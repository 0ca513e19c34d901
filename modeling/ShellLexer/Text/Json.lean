/-!
# JSON text

Compact JSON: no space between the parts, fields in the order given.  In a
string the quote, the backslash and the control characters below U+0020 are
escaped, the common ones by a letter and the rest by four hexadecimal digits;
every other character stands for itself.
-/

namespace ShellLexer.Text.Json

/-- The characters that stand for `c` inside a string. -/
def escapeChar (c : Char) : List Char :=
  if c == '"' then ['\\', '"']
  else if c == '\\' then ['\\', '\\']
  else if c == '\x08' then ['\\', 'b']
  else if c == '\x0c' then ['\\', 'f']
  else if c == '\n' then ['\\', 'n']
  else if c == '\r' then ['\\', 'r']
  else if c == '\t' then ['\\', 't']
  else if c.toNat < 0x20 then
    ['\\', 'u', '0', '0', Nat.digitChar (c.toNat / 16), Nat.digitChar (c.toNat % 16)]
  else [c]

/-- A string in quotes. -/
def string (s : String) : String :=
  "\"" ++ String.ofList (s.toList.flatMap escapeChar) ++ "\""

/-- An array of values already written. -/
def array (values : List String) : String := "[" ++ String.intercalate "," values ++ "]"

def field (key value : String) : String := string key ++ ":" ++ value

/-- An object of keys and values already written. -/
def object (fields : List (String × String)) : String :=
  "\x7b" ++ String.intercalate "," (fields.map fun (key, value) => field key value) ++ "\x7d"

end ShellLexer.Text.Json
