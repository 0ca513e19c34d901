import ShellLexer.Token
import ShellLexer.Diagnostic
import ShellLexer.TextBuffer

/-!
# Where a scan stands

A scan reads one character at a time and looks at none twice, so all it knows
of the text behind it is in its `State`.  Outside double quotes (`Plain`) that
is the token it is in the middle of.  Inside double quotes (`Quoted`) it is the
literal text collected so far, the command substitutions that are open around
the next character, innermost first, and what is being read within them.

Only command substitutions nest, so a list of them is the whole stack; a
parameter expansion holds text alone and is always the innermost construct.
-/

namespace ShellLexer.Scan

/-- What a scan finds: a token or a fault. -/
inductive Event
  | token (t : Token)
  | diagnostic (d : Diagnostic)
  deriving DecidableEq

namespace Event

def punctuation (p : Punctuation) : Event := token (.punctuation p)

def segment (text : String) : Event := token ⟨.segment, text⟩

def fault (f : Fault) (position : Nat) : Event := diagnostic ⟨f, position⟩

def token? : Event → Option Token
  | token t => some t
  | diagnostic _ => none

def diagnostic? : Event → Option Diagnostic
  | token _ => none
  | diagnostic d => some d

end Event

/-- What is pending outside double quotes. -/
inductive Plain (β : Type)
  | nothing
  | blanks (text : β)
  | word (text : β)
  /-- Punctuation at `start` that may make an operator with the next character. -/
  | operator (start : Nat) (first : Char)
  /-- A `<<` that a dash would extend. -/
  | doubleLess
  | singleQuoted (start : Nat) (text : β)

/-- A command substitution: the position of its parenthesis, and how many parentheses are open
inside it. -/
structure Command where
  start : Nat
  nested : Nat

/-- What the character just read leaves open inside a parameter expansion. -/
inductive Parameter.Phase
  | text
  /-- A backslash, which escapes an opening brace. -/
  | backslash
  /-- The colon in front of an operator. -/
  | colon
  /-- A trimming operator, which may be doubled. -/
  | trim (p : Punctuation)
  deriving DecidableEq

/-- A parameter expansion: the position of its brace, the text collected since its last token,
and whether an operator has ended the parameter's name. -/
structure Parameter (β : Type) where
  start : Nat
  text : β
  hasOperator : Bool
  phase : Parameter.Phase

/-- What is pending inside double quotes, besides their literal text. -/
inductive Inner (β : Type)
  | nothing
  /-- A backslash in the literal text. -/
  | backslash
  /-- The `$` at `start`. -/
  | dollar (start : Nat)
  | word (text : β)
  | parameter (p : Parameter β)

/-- The inside of double quotes that opened at `start`. -/
structure Quoted (β : Type) where
  start : Nat
  text : β
  commands : List Command
  inner : Inner β

/-- All that a scan knows of the text behind it, apart from the position. -/
inductive State (β : Type)
  | plain (p : Plain β)
  | quoted (q : Quoted β)

/-- A state and the number of characters behind it. -/
structure Config (β : Type) where
  position : Nat
  state : State β

/-- The start of a text. -/
def Config.initial {β : Type} : Config β := ⟨0, .plain .nothing⟩

end ShellLexer.Scan
