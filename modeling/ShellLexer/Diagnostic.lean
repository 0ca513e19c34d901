/-!
# Diagnostics

What a scan reports about the text it reads.  No fault ends a scan, so a text
can have many.  A diagnostic says what is wrong and where: its position counts
the characters of the text in front of the place it points at.
-/

namespace ShellLexer

/-- What can be wrong with a text. -/
inductive Fault
  /-- A character of no class, outside quotes. -/
  | unexpectedChar (c : Char)
  /-- Punctuation without a token of its own, outside quotes. -/
  | unhandledPunctuation (c : Char)
  /-- Anything but names, parentheses and `$` in a command substitution. -/
  | unhandledInCommand (c : Char)
  | unclosedSingleQuote
  | unclosedDoubleQuote
  | unclosedCommand
  | unclosedParameter
  /-- A `$` inside so many expansions that it opens none. -/
  | nestedTooDeeply
  /-- An operator with no parameter in front of it. -/
  | missingParameter
  /-- A `$` before a character that begins no expansion. -/
  | invalidExpansion (c : Char)
  /-- A `$` with nothing after it. -/
  | endAfterDollar
  deriving DecidableEq

namespace Fault

/-- The wording of a fault, up to the position. -/
def description : Fault → String
  | unexpectedChar c => "failed to handle char '" ++ c.toString ++ "'"
  | unhandledPunctuation c => "failed to handle punctuation '" ++ c.toString ++ "'"
  | unhandledInCommand c => "unhandled char in command substitution: '" ++ c.toString ++ "'"
  | unclosedSingleQuote => "unclosed single-quoted string starting"
  | unclosedDoubleQuote => "unclosed double-quoted string starting"
  | unclosedCommand => "unclosed command substitution starting"
  | unclosedParameter => "unclosed parameter expansion starting"
  | nestedTooDeeply => "expansions nested too deeply"
  | missingParameter => "no parameter found in parameter expansion"
  | invalidExpansion c => "invalid expansion sequence '$" ++ c.toString ++ "'"
  | endAfterDollar => "unexpected end of input after '$'"

/-- The character a fault is about, if it is about one. -/
def char? : Fault → Option Char
  | unexpectedChar c | unhandledPunctuation c | unhandledInCommand c | invalidExpansion c => some c
  | _ => none

end Fault

/-- A fault and the number of characters before the place it points at. -/
structure Diagnostic where
  fault : Fault
  position : Nat
  deriving DecidableEq

namespace Diagnostic

def message (d : Diagnostic) : String :=
  d.fault.description ++ " at position " ++ toString d.position

end Diagnostic

instance : ToString Diagnostic := ⟨Diagnostic.message⟩

end ShellLexer
