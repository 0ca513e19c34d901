import ShellLexer.Scan.Run
import ShellLexer.Proofs.Grammar.Derivation

/-!
# Reading by recursive descent

The same tokens can be read with a procedure for each construct: one cursor
moves over the text, a procedure looks at the character in front of it, and a
construct inside another is a call.  How deep expansions nest is a counter that
`$` raises before it calls and lowers afterwards.

`step` says what a procedure does from one `Point` to the next one: it returns,
goes on, or calls another procedure and says where it goes on behind the call.
`Runs` is the evaluation of whole procedures, and `Reached` holds of every point
that control comes to in a text, inside the calls as well.
-/

namespace ShellLexer.Descent

open Scan (Event wordToken)

/-! ## Cursors -/

/-- What the procedures share: the number of characters read, how many expansions are open, and
what has been found. -/
structure Cursor where
  position : Nat
  depth : Nat
  found : List Event

namespace Cursor

def initial : Cursor := ⟨0, 0, []⟩

variable (text : List Char) (c : Cursor)

/-- The next character. -/
def current : Option Char := text[c.position]?

/-- Past the next character, if there is one. -/
def advance : Cursor :=
  { c with position := if c.position < text.length then c.position + 1 else c.position }

def emit (t : Token) : Cursor := { c with found := c.found ++ [.token t] }

def report (f : Fault) (position : Nat) : Cursor :=
  { c with found := c.found ++ [.fault f position] }

/-- Inside one more expansion. -/
def deeper : Cursor := { c with depth := c.depth + 1 }

def shallower : Cursor := { c with depth := c.depth - 1 }

def tokens : List Token := c.found.filterMap Event.token?

def diagnostics : List Diagnostic := c.found.filterMap Event.diagnostic?

/-- Behind a run of blanks, which is a token unless it is empty. -/
def emitBlanks (pending : List Char) : Cursor :=
  if pending.isEmpty then c else c.emit ⟨.whitespace, String.ofList pending⟩

/-- Behind literal text that is a token even if it is empty. -/
def emitSegment (pending : List Char) : Cursor := c.emit ⟨.segment, String.ofList pending⟩

/-- Behind literal text that is a token unless it is empty. -/
def emitNonempty (pending : List Char) : Cursor :=
  if pending.isEmpty then c else c.emitSegment pending

/-- Behind a parameter's name, which must be there. -/
def emitName (pending : List Char) : Cursor :=
  if pending.isEmpty then c.report .missingParameter c.position else c.emitSegment pending

end Cursor

/-! ## Procedures -/

inductive Procedure
  /-- White space, newlines included. -/
  | layout
  | word
  | punctuation
  | singleQuotes
  | doubleQuotes
  /-- A `$` and the expansion it opens. -/
  | dollar
  /-- The inside of `$( )`. -/
  | command
  /-- The inside of `${ }`. -/
  | parameter

/-- Where control stands: at the start of a procedure, or at the head of a loop with what the loop
has collected. -/
inductive Point
  | call (p : Procedure)
  /-- Between the constructs of the text. -/
  | script
  | layout (pending : List Char)
  | word (pending : List Char)
  | singleQuotes (start : Nat) (pending : List Char)
  | doubleQuotes (start : Nat) (pending : List Char)
  /-- In a command substitution with so many parentheses open, its own included. -/
  | command (start opened : Nat)
  | parameter (start : Nat) (pending : List Char) (split : Bool)
  /-- Behind the expansion that a `$` has opened. -/
  | dollarEnd

/-- How control leaves a point. -/
inductive Outcome
  | returns (c : Cursor)
  | goes (p : Point) (c : Cursor)
  /-- Calls a procedure, and goes on at `back` when it has returned. -/
  | calls (p : Procedure) (c : Cursor) (back : Point)

section Procedures

variable (text : List Char)

/-- Between the constructs: the next character says which procedure reads on. -/
def script (c : Cursor) : Outcome :=
  match c.current text with
  | none => .returns c
  | some ch =>
    if isWhitespace ch then .calls .layout c .script
    else if isNameChar ch then .calls .word c .script
    else if ch = '\'' then .calls .singleQuotes c .script
    else if ch = '"' then .calls .doubleQuotes c .script
    else if isShellPunctuation ch then .calls .punctuation c .script
    else .goes .script ((c.report (.unexpectedChar ch) c.position).advance text)

def layout (pending : List Char) (c : Cursor) : Outcome :=
  match c.current text with
  | none => .returns (c.emitBlanks pending)
  | some ch =>
    if ch = '\n' then .goes (.layout []) (((c.emitBlanks pending).emit .newline).advance text)
    else if isWhitespace ch then .goes (.layout (pending ++ [ch])) (c.advance text)
    else .returns (c.emitBlanks pending)

def word (pending : List Char) (c : Cursor) : Outcome :=
  match c.current text with
  | none => .returns (if pending.isEmpty then c else c.emit (wordToken pending))
  | some ch =>
    if isNameChar ch then .goes (.word (pending ++ [ch])) (c.advance text)
    else .returns (if pending.isEmpty then c else c.emit (wordToken pending))

/-- Punctuation, longest first. -/
def punctuation (c : Cursor) : Outcome :=
  match c.current text with
  | none => .returns c
  | some first =>
    match ((c.advance text).current text).bind (Punctuation.ofPair? first) with
    | some o =>
      let behind := (c.advance text).advance text
      if o = .doubleLess ∧ behind.current text = some '-' then
        .returns ((behind.advance text).emit (.punctuation .doubleLessDash))
      else .returns (behind.emit (.punctuation o))
    | none =>
      match Punctuation.ofChar? first with
      | some o => .returns ((c.advance text).emit (.punctuation o))
      | none => .returns ((c.advance text).report (.unhandledPunctuation first) c.position)

def singleQuotes (start : Nat) (pending : List Char) (c : Cursor) : Outcome :=
  match c.current text with
  | none => .returns (c.report .unclosedSingleQuote start)
  | some ch =>
    if ch = '\'' then
      .returns ((c.advance text).emit ⟨.singleQuotedString, String.ofList pending⟩)
    else .goes (.singleQuotes start (pending ++ [ch])) (c.advance text)

def doubleQuotes (start : Nat) (pending : List Char) (c : Cursor) : Outcome :=
  match c.current text with
  | none => .returns (c.report .unclosedDoubleQuote start)
  | some ch =>
    if ch = '"' then
      .returns (((c.emitNonempty pending).emit (.punctuation .doubleQuote)).advance text)
    else if ch = '\\' then
      let behind := c.advance text
      match behind.current text with
      | some d =>
        if isOneOf d Scan.quotedEscapes then
          .goes (.doubleQuotes start (pending ++ [d])) (behind.advance text)
        else if d = '\n' then .goes (.doubleQuotes start pending) (behind.advance text)
        else .goes (.doubleQuotes start (pending ++ ['\\'])) behind
      | none => .goes (.doubleQuotes start (pending ++ ['\\'])) behind
    else if ch = '$' then .calls .dollar (c.emitSegment pending) (.doubleQuotes start [])
    else .goes (.doubleQuotes start (pending ++ [ch])) (c.advance text)

/-- A `$` opens an expansion unless too many are open. -/
def dollar (limit : Option Nat) (c : Cursor) : Outcome :=
  let behind := (c.advance text).emit (.punctuation .dollar)
  if Scan.Quoted.tooDeep limit behind.depth then
    .returns (behind.report .nestedTooDeeply c.position)
  else
    match behind.current text with
    | none => .goes .dollarEnd (behind.deeper.report .endAfterDollar c.position)
    | some ch =>
      if ch = '(' then .calls .command behind.deeper .dollarEnd
      else if ch = '{' then .calls .parameter behind.deeper .dollarEnd
      else if isNameStart ch then .calls .word behind.deeper .dollarEnd
      else .goes .dollarEnd (behind.deeper.report (.invalidExpansion ch) c.position)

def command (start opened : Nat) (c : Cursor) : Outcome :=
  if opened = 0 then .returns c
  else
    match c.current text with
    | none => .returns (c.report .unclosedCommand start)
    | some ch =>
      if ch = '$' then .calls .dollar c (.command start opened)
      else if ch = '(' then
        .goes (.command start (opened + 1)) ((c.emit (.punctuation .leftParen)).advance text)
      else if ch = ')' then
        .goes (.command start (opened - 1)) ((c.emit (.punctuation .rightParen)).advance text)
      else if isNameChar ch then .calls .word c (.command start opened)
      else
        .goes (.command start opened) ((c.report (.unhandledInCommand ch) c.position).advance text)

/-- The first operator of a parameter expansion splits it, and takes with it the operator behind a
colon and a second trimming operator. -/
def parameter (start : Nat) (pending : List Char) (split : Bool) (c : Cursor) : Outcome :=
  match c.current text with
  | none => .returns (c.report .unclosedParameter start)
  | some ch =>
    if ch = '}' then
      .returns (((c.emitSegment pending).emit (.punctuation .rightBrace)).advance text)
    else if ch = '\\' then
      let behind := c.advance text
      if behind.current text = some '{' then
        .goes (.parameter start (pending ++ ['{']) split) (behind.advance text)
      else .goes (.parameter start (pending ++ ['\\']) split) behind
    else if ch ∈ Grammar.namedOperators ∧ split = false then
      let named := c.emitName pending
      let behind := if ch = ':' then (named.emit (.punctuation .colon)).advance text else named
      match (behind.current text).bind Scan.Parameter.choiceOperator? with
      | some o =>
        .goes (.parameter start [] true) ((behind.emit (.punctuation o)).advance text)
      | none => .goes (.parameter start [] true) behind
    else
      match if split then none else Scan.Parameter.trimOperator? ch with
      | some o =>
        let behind := ((c.emitNonempty pending).emit (.punctuation o)).advance text
        if behind.current text = some ch then
          .goes (.parameter start [] true) ((behind.emit (.punctuation o)).advance text)
        else .goes (.parameter start [] true) behind
      | none => .goes (.parameter start (pending ++ [ch]) split) (c.advance text)

/-- From one point to the next.  A procedure that collects a run starts at the head of its loop. -/
def step (limit : Option Nat) (p : Point) (c : Cursor) : Outcome :=
  match p with
  | .script => script text c
  | .call .layout => layout text [] c
  | .layout pending => layout text pending c
  | .call .word => word text [] c
  | .word pending => word text pending c
  | .call .punctuation => punctuation text c
  | .call .singleQuotes => .goes (.singleQuotes c.position []) (c.advance text)
  | .singleQuotes start pending => singleQuotes text start pending c
  | .call .doubleQuotes =>
    .goes (.doubleQuotes c.position []) ((c.advance text).emit (.punctuation .doubleQuote))
  | .doubleQuotes start pending => doubleQuotes text start pending c
  | .call .dollar => dollar text limit c
  | .dollarEnd => .returns c.shallower
  | .call .command =>
    .goes (.command c.position 1) ((c.advance text).emit (.punctuation .leftParen))
  | .command start opened => command text start opened c
  | .call .parameter =>
    .goes (.parameter c.position [] false) ((c.advance text).emit (.punctuation .leftBrace))
  | .parameter start pending split => parameter text start pending split c

end Procedures

/-! ## Evaluation -/

variable (text : List Char) (limit : Option Nat)

/-- Control that stands at a point with one cursor returns from there with another. -/
inductive Runs : Point → Cursor → Cursor → Prop
  | returns {p : Point} {c c' : Cursor} (step : step text limit p c = .returns c') : Runs p c c'
  | goes {p p' : Point} {c c₁ c' : Cursor} (step : step text limit p c = .goes p' c₁)
      (rest : Runs p' c₁ c') : Runs p c c'
  | calls {p back : Point} {s : Procedure} {c c₁ c₂ c' : Cursor}
      (step : step text limit p c = .calls s c₁ back) (call : Runs (.call s) c₁ c₂)
      (rest : Runs back c₂ c') : Runs p c c'

/-- Control goes on from one point to the next one in the same procedure, past a call if there is
one in between. -/
inductive Continues : Point → Cursor → Point → Cursor → Prop
  | goes {p p' : Point} {c c' : Cursor} (step : step text limit p c = .goes p' c') :
      Continues p c p' c'
  | calls {p back : Point} {s : Procedure} {c c₁ c' : Cursor}
      (step : step text limit p c = .calls s c₁ back) (call : Runs text limit (.call s) c₁ c') :
      Continues p c back c'

/-- Control comes to a point with a cursor when the text is read. -/
inductive Reached : Point → Cursor → Prop
  | start : Reached .script .initial
  | next {p p' : Point} {c c' : Cursor} (front : Reached p c)
      (continues : Continues text limit p c p' c') : Reached p' c'
  | call {p back : Point} {s : Procedure} {c c' : Cursor} (front : Reached p c)
      (step : step text limit p c = .calls s c' back) : Reached (.call s) c'

/-- Control comes to the name in `"$(a)"` inside one expansion. -/
example : ∃ c, Reached ['"', '$', '(', 'a', ')', '"'] (some 1) (.call .word) c ∧
    c.position = 3 ∧ c.depth = 1 :=
  ⟨_, .call (.next (.call (.call (.next (.call .start rfl) (.goes rfl)) rfl) rfl) (.goes rfl)) rfl,
    rfl, rfl⟩

end ShellLexer.Descent
