import ShellLexer.CommandLine.Arguments

/-!
# The command line

What the program writes and the code it ends with.  The text to scan is the one
given with `-c`, or else that of the named file, or else all of standard input.
The dump goes to standard output and the diagnostics of a text dump to standard
error.  The code is 0 only if there was something to scan and nothing to
report; 2 is for arguments that make no sense.
-/

namespace ShellLexer.CommandLine

def version : String := "0.1.0"

def help : String :=
  "Tokenize shell command lines and print the tokens\n\n" ++
  "Usage: " ++ programName ++ " [OPTIONS] [SCRIPT_FILE]\n\n" ++
  "Arguments:\n" ++
  "  [SCRIPT_FILE]  Script file to tokenize\n\n" ++
  "Options:\n" ++
  "  -c <TEXT>             Tokenize the given text and exit\n" ++
  "  -f, --file <FILE>     Script file to tokenize\n" ++
  "      --json            Output tokens and diagnostics as JSON\n" ++
  "  -d, --debug           Enable debug logging\n" ++
  "      --no-diagnostics  Do not print diagnostics to stderr\n" ++
  "  -h, --help            Print help\n" ++
  "  -V, --version         Print version\n"

/-- What the operating system can say when a file is to be read. -/
inductive SystemFault
  | missing
  | permissionDenied
  | notDirectory
  | isDirectory
  | nameTooLong
  deriving DecidableEq

namespace SystemFault

def all : List SystemFault :=
  [missing, permissionDenied, notDirectory, isDirectory, nameTooLong]

/-- The number of the error. -/
def code : SystemFault → Nat
  | missing => 2
  | permissionDenied => 13
  | notDirectory => 20
  | isDirectory => 21
  | nameTooLong => 36

def description : SystemFault → String
  | missing => "No such file or directory"
  | permissionDenied => "Permission denied"
  | notDirectory => "Not a directory"
  | isDirectory => "Is a directory"
  | nameTooLong => "File name too long"

def ofCode? (code : Nat) : Option SystemFault := all.find? (·.code == code)

end SystemFault

/-- Why a file could not be read. -/
inductive FileFault
  | system (f : SystemFault)
  | invalidText (e : Text.Utf8.InvalidText)
  | other (reason : String)

def FileFault.reason : FileFault → String
  | system f => f.description ++ " (os error " ++ toString f.code ++ ")"
  | invalidText e => e.message
  | other reason => reason

/-- Where the text to scan comes from. -/
inductive Source
  | text (s : String)
  | file (name : String)
  | standardInput

def Options.source (o : Options) : Source :=
  match o.text?, o.file?.or o.script? with
  | some s, _ => .text s
  | none, some name => .file name
  | none, none => .standardInput

/-- What a run of the program leaves behind. -/
structure Outcome where
  code : UInt32
  output : String
  errors : String

namespace Outcome

def success (output : String) : Outcome := ⟨0, output, ""⟩

def failure (message : String) : Outcome := ⟨1, "", "Error: " ++ message ++ "\n"⟩

def usage (e : UsageError) : Outcome :=
  ⟨2, "", "error: " ++ e.message ++ "\n\nFor more information, try '--help'.\n"⟩

def unreadableFile (name : String) (fault : FileFault) : Outcome :=
  failure ("Cannot read script file: " ++ name ++ ": " ++ fault.reason)

def unreadableInput (e : Text.Utf8.InvalidText) : Outcome :=
  failure ("Cannot read stdin: " ++ e.message)

/-- The outcome of a scan of the text that was asked for. -/
def scanned (o : Options) (text : String) : Outcome :=
  let lexed := tokenize text
  { code := if lexed.isClean then 0 else 1
    output := lexed.dump o.format ++ "\n"
    errors :=
      if o.format = .text && !o.noDiagnostics then lexed.report else "" }

end Outcome

/-- A run of the program, given a way to read files and one to read standard input. -/
def run {m : Type → Type} [Monad m] (readFile : String → m (Except FileFault ByteArray))
    (readInput : m ByteArray) (args : List String) : m Outcome := do
  match Request.parse args with
  | .error e => return .usage e
  | .ok .help => return .success help
  | .ok .version => return .success (programName ++ " " ++ version ++ "\n")
  | .ok (.scan o) =>
    match o.source with
    | .text s => return .scanned o s
    | .file name =>
      match ← readFile name with
      | .error fault => return .unreadableFile name fault
      | .ok bytes =>
        match Text.Utf8.decode? bytes with
        | .ok s => return .scanned o s
        | .error e => return .unreadableFile name (.invalidText e)
    | .standardInput =>
      match Text.Utf8.decode? (← readInput) with
      | .ok s => return .scanned o s
      | .error e => return .unreadableInput e

end ShellLexer.CommandLine
