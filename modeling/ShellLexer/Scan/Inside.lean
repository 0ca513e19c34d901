import ShellLexer.Scan.Outside
import ShellLexer.Scan.Parameter

/-!
# Reading inside double quotes

Literal text is collected until a `$` or the closing quote.  A `$` with a name
after it is an expansion complete in itself; `$(` opens a command substitution,
which holds names, parentheses and further expansions, and `${` a parameter
expansion.  What fits none of these is reported and left to whatever surrounds
the `$`.

Expansions nest up to a limit.  A `$` beyond it is a token like any other but
opens nothing, so the innermost command substitution reads on and keeps count
of the parentheses.
-/

namespace ShellLexer.Scan

variable {β : Type} [TextBuffer β]

/-- What a backslash escapes inside double quotes; a newline after it is dropped with it. -/
def quotedEscapes : String := "$\x60\"\\"

namespace Quoted

def setInner (q : Quoted β) (inner : Inner β) : Quoted β := { q with inner := inner }

def pushText (q : Quoted β) (c : Char) : Quoted β :=
  let ⟨start, text, commands, _⟩ := q
  ⟨start, TextBuffer.push text c, commands, .nothing⟩

/-- Whether a `$` inside so many command substitutions opens no expansion any more. -/
def tooDeep (limit : Option Nat) (depth : Nat) : Bool := limit.any (· ≤ depth)

/-- Reads a `$` at `position`. -/
def dollar (limit : Option Nat) (position : Nat) (q : Quoted β) : Quoted β × List Event :=
  if tooDeep limit q.commands.length then
    (q.setInner .nothing, [.punctuation .dollar, .fault .nestedTooDeeply position])
  else (q.setInner (.dollar position), [.punctuation .dollar])

/-- Reads `c` as part of the literal text. -/
def readText (limit : Option Nat) (position : Nat) (c : Char) (q : Quoted β) :
    State β × List Event :=
  if c == '"' then
    let rest := if TextBuffer.isEmpty q.text then [] else [.segment (TextBuffer.text q.text)]
    (.plain .nothing, rest ++ [.punctuation .doubleQuote])
  else if c == '\\' then (.quoted (q.setInner .backslash), [])
  else if c == '$' then
    let segment := TextBuffer.text q.text
    let (q, events) := dollar limit position { q with text := TextBuffer.clear q.text }
    (.quoted q, .segment segment :: events)
  else (.quoted (q.pushText c), [])

/-- Reads `c` in the command substitution `command`, which `outer` are around. -/
def readCommand (limit : Option Nat) (position : Nat) (c : Char) (command : Command)
    (outer : List Command) (q : Quoted β) : Quoted β × List Event :=
  if c == '$' then dollar limit position q
  else if c == '(' then
    ({ q with commands := { command with nested := command.nested + 1 } :: outer,
              inner := .nothing },
      [.punctuation .leftParen])
  else if c == ')' then
    let commands := match command.nested with
      | 0 => outer
      | nested + 1 => { command with nested := nested } :: outer
    ({ q with commands := commands, inner := .nothing }, [.punctuation .rightParen])
  else if isNameChar c then (q.setInner (.word (oneChar c)), [])
  else (q.setInner .nothing, [.fault (.unhandledInCommand c) position])

/-- Reads `c` with nothing pending. -/
def enter (limit : Option Nat) (position : Nat) (c : Char) (q : Quoted β) :
    State β × List Event :=
  match q.commands with
  | [] => q.readText limit position c
  | command :: outer =>
    let (q, events) := q.readCommand limit position c command outer
    (.quoted q, events)

/-- Reads `c` with nothing pending, after the given events. -/
def enterAfter (events : List Event) (limit : Option Nat) (position : Nat) (c : Char)
    (q : Quoted β) : State β × List Event :=
  let (state, more) := q.enter limit position c
  (state, events ++ more)

/-- Reads the character after the `$` at `start`. -/
def afterDollar (limit : Option Nat) (position : Nat) (c : Char) (start : Nat) (q : Quoted β) :
    State β × List Event :=
  if c == '(' then
    (.quoted { q with commands := ⟨position, 0⟩ :: q.commands, inner := .nothing },
      [.punctuation .leftParen])
  else if c == '{' then
    let p := Parameter.opened position (TextBuffer.withCapacity Buffer.wordCapacity)
    (.quoted (q.setInner (.parameter p)), [.punctuation .leftBrace])
  else if isNameStart c then (.quoted (q.setInner (.word (oneChar c))), [])
  else q.enterAfter [.fault (.invalidExpansion c) start] limit position c

/-- Reads the character after a backslash in the literal text. -/
def afterBackslash (c : Char) (q : Quoted β) : Quoted β :=
  if isOneOf c quotedEscapes then q.pushText c
  else if c == '\n' then q.setInner .nothing
  else (q.pushText '\\').pushText c

/-- Reads `c` inside double quotes. -/
def step (limit : Option Nat) (position : Nat) (c : Char) (q : Quoted β) :
    State β × List Event :=
  let ⟨start, text, commands, inner⟩ := q
  let q : Quoted β := ⟨start, text, commands, .nothing⟩
  match inner with
  | .nothing => q.enter limit position c
  | .backslash => (.quoted (q.afterBackslash c), [])
  | .dollar dollarStart => q.afterDollar limit position c dollarStart
  | .word name =>
    if isNameChar c then (.quoted (q.setInner (.word (TextBuffer.push name c))), [])
    else q.enterAfter [.token (wordToken name)] limit position c
  | .parameter p =>
    match p.step position c with
    | (some p, events) => (.quoted (q.setInner (.parameter p)), events)
    | (none, events) => (.quoted q, events)

/-- What the end of the text adds inside double quotes: what is pending, then a fault for each
construct left open, innermost first. The text collected in them is dropped. -/
def finish (q : Quoted β) : List Event :=
  let pending := match q.inner with
    | .nothing | .backslash => []
    | .dollar start => [.fault .endAfterDollar start]
    | .word name => [.token (wordToken name)]
    | .parameter p => [.fault .unclosedParameter p.start]
  pending ++ q.commands.map (fun command => .fault .unclosedCommand command.start)
    ++ [.fault .unclosedDoubleQuote q.start]

end Quoted

end ShellLexer.Scan
