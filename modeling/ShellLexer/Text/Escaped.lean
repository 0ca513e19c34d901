import ShellLexer.Text.Printable
import ShellLexer.Text.Combining

/-!
# Escaped text

A text written so that it fits on one line between double quotes and shows
every character it holds.  NUL, tab, newline, carriage return, the backslash
and both quotes have escapes of one letter; a character that is not printable
is given by its code point, as in `\u{7f}`.  A combining character is given by
its code point too where it comes first, since there it has nothing to combine
with but the quote in front of it.
-/

namespace ShellLexer.Text

/-- A character by its code point, in lower-case hexadecimal without padding. -/
def codePointEscape (c : Char) : List Char :=
  ['\\', 'u', '{'] ++ Nat.toDigits 16 c.toNat ++ ['}']

/-- One character of an escaped text; `isFirst` says whether the text starts with it. -/
def escapeChar (isFirst : Bool) (c : Char) : List Char :=
  if c == '\x00' then ['\\', '0']
  else if c == '\t' then ['\\', 't']
  else if c == '\r' then ['\\', 'r']
  else if c == '\n' then ['\\', 'n']
  else if c == '\\' || c == '"' || c == '\'' then ['\\', c]
  else if isFirst && isCombining c || !isPrintable c then codePointEscape c
  else [c]

def escapeChars : List Char → List Char
  | [] => []
  | c :: rest => escapeChar true c ++ rest.flatMap (escapeChar false)

def escape (s : String) : String := String.ofList (escapeChars s.toList)

end ShellLexer.Text
