import ShellLexer.Lexed

/-!
# Dumps

The result of a scan in writing.  As text it is the tokens alone, on one line,
and the diagnostics are written apart, one to a line.  As JSON it is one object
that holds both.
-/

namespace ShellLexer

/-- The name the program goes by, in its messages too. -/
def programName : String := "psh-lexer"

inductive DumpFormat
  | text
  | json
  deriving DecidableEq

namespace Lexed

def toJson (lexed : Lexed) : String :=
  Text.Json.object
    [("diagnostics",
      Text.Json.array (lexed.diagnostics.map fun d => Text.Json.string d.message)),
     ("tokens", lexed.tokens.toJson)]

def dump (format : DumpFormat) (lexed : Lexed) : String :=
  match format with
  | .text => lexed.tokens.display
  | .json => lexed.toJson

/-- A line for each diagnostic, with the program's name in front. -/
def report (lexed : Lexed) : String :=
  String.join (lexed.diagnostics.map fun d => programName ++ ": " ++ d.message ++ "\n")

end Lexed

end ShellLexer
