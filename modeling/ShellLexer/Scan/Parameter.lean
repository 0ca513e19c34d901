import ShellLexer.Scan.State

/-!
# Reading a parameter expansion

The inside of `${ }` is text that its first operator splits in two: the
parameter's name and the operator's word.  An operator is one of `+ - = ?`,
with or without a colon in front, a colon alone, or one of `#` and `%`, single
or doubled.  Operator characters after the first operator are ordinary text,
and so is everything else up to the brace that closes the expansion.  A
backslash escapes an opening brace and nothing else.
-/

namespace ShellLexer.Scan.Parameter

variable {β : Type} [TextBuffer β]

/-- The operators that may stand after a colon. -/
def choiceOperator? (c : Char) : Option Punctuation :=
  if c == '+' then some .plus
  else if c == '-' then some .dash
  else if c == '=' then some .equals
  else if c == '?' then some .question
  else none

/-- The operators that may be doubled. -/
def trimOperator? (c : Char) : Option Punctuation :=
  if c == '#' then some .hash
  else if c == '%' then some .percent
  else none

/-- An expansion whose brace is at `start`, with nothing read in it. -/
def opened (start : Nat) (text : β) : Parameter β := ⟨start, text, false, .text⟩

def push (p : Parameter β) (c : Char) : Parameter β :=
  let ⟨start, text, hasOperator, _⟩ := p
  ⟨start, TextBuffer.push text c, hasOperator, .text⟩

/-- The expansion behind its first operator. -/
def split (p : Parameter β) (phase : Phase) : Parameter β :=
  let ⟨start, text, _, _⟩ := p
  ⟨start, TextBuffer.clear text, true, phase⟩

/-- The name in front of a colon or of a choice operator at `position`, which must be there. -/
def nameEvent (text : β) (position : Nat) : Event :=
  if TextBuffer.isEmpty text then .fault .missingParameter position
  else .segment (TextBuffer.text text)

/-- The name in front of a trimming operator; `${#x}` has none. -/
def optionalName (text : β) : List Event :=
  if TextBuffer.isEmpty text then [] else [.segment (TextBuffer.text text)]

/-- Reads `c` as part of the text; the expansion is gone once it closes. -/
def read (position : Nat) (c : Char) (p : Parameter β) : Option (Parameter β) × List Event :=
  if c == '}' then (none, [.segment (TextBuffer.text p.text), .punctuation .rightBrace])
  else if c == '\\' then (some { p with phase := .backslash }, [])
  else if p.hasOperator then (some (p.push c), [])
  else if c == ':' then
    (some (p.split .colon), [nameEvent p.text position, .punctuation .colon])
  else match choiceOperator? c with
    | some o => (some (p.split .text), [nameEvent p.text position, .punctuation o])
    | none =>
      match trimOperator? c with
      | some o => (some (p.split (.trim o)), optionalName p.text ++ [.punctuation o])
      | none => (some (p.push c), [])

/-- Reads `c` inside a parameter expansion. -/
def step (position : Nat) (c : Char) (p : Parameter β) : Option (Parameter β) × List Event :=
  match p.phase with
  | .text => p.read position c
  | .backslash =>
    if c == '{' then (some (p.push c), [])
    else (p.push '\\').read position c
  | .colon =>
    match choiceOperator? c with
    | some o => (some { p with phase := .text }, [.punctuation o])
    | none => { p with phase := .text }.read position c
  | .trim o =>
    if trimOperator? c = some o then (some { p with phase := .text }, [.punctuation o])
    else { p with phase := .text }.read position c

end ShellLexer.Scan.Parameter
