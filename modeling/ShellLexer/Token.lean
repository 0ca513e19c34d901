import ShellLexer.Token.Kind
import ShellLexer.Text.Escaped
import ShellLexer.Text.Json

/-!
# Tokens

A token is a kind with the text it was read from.  Only a single-quoted string
leaves something out: its quotes, which `Token.sourceText` puts back.
-/

namespace ShellLexer

structure Token where
  kind : Kind
  text : String
  deriving DecidableEq

namespace Token

/-- A token of punctuation, with the text punctuation is always spelled with. -/
def punctuation (p : Punctuation) : Token := ⟨.punctuation p, p.spelling⟩

def newline : Token := ⟨.newline, "\n"⟩

/-- A name, or the reserved word that is spelled like it. -/
def ofName (s : String) : Token :=
  match ReservedWord.ofSpelling? s with
  | some w => ⟨.reserved w, s⟩
  | none => ⟨.name, s⟩

/-- The text of a token with the quotes of a single-quoted string around it. -/
def sourceText (t : Token) : String :=
  match t.kind with
  | .singleQuotedString => "'" ++ t.text ++ "'"
  | _ => t.text

/-- A token as it is shown to people: its escaped text in double quotes, and its kind. -/
def display (t : Token) : String := "(\"" ++ Text.escape t.text ++ "\" " ++ t.kind.label ++ ")"

def toJson (t : Token) : String :=
  Text.Json.object [("type", Text.Json.string t.kind.label), ("value", Text.Json.string t.text)]

end Token

instance : ToString Token := ⟨Token.display⟩

end ShellLexer
