import ShellLexer.Dump

/-!
# Command-line arguments

The arguments of the program and what they ask for.  An argument that starts
with two dashes is a long option, perhaps with a value after an equals sign;
one that starts with a single dash holds short options, of which one that takes
a value takes the rest of the argument, with or without an equals sign in
front, or else the next argument.  After `--` every argument is a file name.

Arguments are read from the left.  The first that makes no sense ends the
reading, and so does the first that asks for help or for the version.
-/

namespace ShellLexer.CommandLine

/-- The options without a value. -/
inductive Switch
  | json
  | debug
  | noDiagnostics
  deriving DecidableEq

/-- The options with a value. -/
inductive Setting
  | text
  | file
  deriving DecidableEq

inductive Key
  | switch (s : Switch)
  | setting (s : Setting)
  | help
  | version
  deriving DecidableEq

/-- The options by their long names. -/
def Key.ofLong? : String → Option Key
  | "file" => some (.setting .file)
  | "json" => some (.switch .json)
  | "debug" => some (.switch .debug)
  | "no-diagnostics" => some (.switch .noDiagnostics)
  | "help" => some .help
  | "version" => some .version
  | _ => none

/-- The options by their short names. -/
def Key.ofShort? : Char → Option Key
  | 'c' => some (.setting .text)
  | 'f' => some (.setting .file)
  | 'd' => some (.switch .debug)
  | 'h' => some .help
  | 'V' => some .version
  | _ => none

/-- What is wrong with the arguments. -/
inductive UsageError
  | unexpected (argument : String)
  | repeatedSwitch (s : Switch)
  | repeatedSetting (s : Setting)
  | missingValue (s : Setting)
  | unexpectedValue (option : String)
  | fileAndScript
  deriving DecidableEq

def Switch.display : Switch → String
  | json => "--json"
  | debug => "--debug"
  | noDiagnostics => "--no-diagnostics"

def Setting.display : Setting → String
  | text => "-c <TEXT>"
  | file => "--file <FILE>"

def UsageError.message : UsageError → String
  | unexpected argument => "unexpected argument '" ++ argument ++ "' found"
  | repeatedSwitch s => "the argument '" ++ s.display ++ "' cannot be used multiple times"
  | repeatedSetting s => "the argument '" ++ s.display ++ "' cannot be used multiple times"
  | missingValue s => "a value is required for '" ++ s.display ++ "' but none was supplied"
  | unexpectedValue option => "the argument '" ++ option ++ "' takes no value"
  | fileAndScript =>
    "the argument '" ++ Setting.file.display ++ "' cannot be used with '[SCRIPT_FILE]'"

/-- What the arguments have set. -/
structure Options where
  text? : Option String := none
  file? : Option String := none
  /-- The script given without an option's name. -/
  script? : Option String := none
  json : Bool := false
  /-- Asks for a log of the scan; a scan has nothing to log. -/
  debug : Bool := false
  noDiagnostics : Bool := false
  deriving DecidableEq

namespace Options

def format (o : Options) : DumpFormat := if o.json then .json else .text

/-- Turns a switch on, once. -/
def turnOn (o : Options) : Switch → Except UsageError Options
  | .json => if o.json then .error (.repeatedSwitch .json) else .ok { o with json := true }
  | .debug => if o.debug then .error (.repeatedSwitch .debug) else .ok { o with debug := true }
  | .noDiagnostics =>
    if o.noDiagnostics then .error (.repeatedSwitch .noDiagnostics)
    else .ok { o with noDiagnostics := true }

/-- Gives a setting its value, once. -/
def set (o : Options) (value : String) : Setting → Except UsageError Options
  | .text =>
    if o.text?.isSome then .error (.repeatedSetting .text) else .ok { o with text? := some value }
  | .file =>
    if o.file?.isSome then .error (.repeatedSetting .file) else .ok { o with file? := some value }

def setScript (o : Options) (name : String) : Except UsageError Options :=
  if o.script?.isSome then .error (.unexpected name) else .ok { o with script? := some name }

end Options

/-- An argument by its form. -/
inductive Argument
  /-- Two dashes: no options after them. -/
  | terminator
  | long (name : String) (value? : Option String)
  | short (names : List Char)
  | plain (value : String)

/-- A dash alone is a plain argument, and so is the empty one. -/
def Argument.ofString (s : String) : Argument :=
  match s.toList with
  | ['-', '-'] => .terminator
  | '-' :: '-' :: cs =>
    let name := String.ofList (cs.takeWhile (· != '='))
    match cs.dropWhile (· != '=') with
    | [] => .long name none
    | _ :: value => .long name (some (String.ofList value))
  | '-' :: c :: cs => .short (c :: cs)
  | _ => .plain s

/-- What the program is asked to do. -/
inductive Request
  | scan (o : Options)
  | help
  | version

/-- How far the arguments have been read. -/
inductive Progress
  | reading (o : Options)
  /-- The next argument is the value of `s`. -/
  | awaiting (o : Options) (s : Setting)
  /-- Every argument from here on is a file name. -/
  | literal (o : Options)
  | decided (r : Request)

namespace Progress

/-- Reads a long option. -/
def long (o : Options) (name : String) (value? : Option String) : Except UsageError Progress :=
  match Key.ofLong? name, value? with
  | none, _ => .error (.unexpected ("--" ++ name))
  | some (.setting s), some value => (o.set value s).map reading
  | some (.setting s), none => .ok (awaiting o s)
  | some (.switch s), none => (o.turnOn s).map reading
  | some .help, none => .ok (decided .help)
  | some .version, none => .ok (decided .version)
  | some _, some _ => .error (.unexpectedValue ("--" ++ name))

/-- Reads the short options of one argument. -/
def short (o : Options) : List Char → Except UsageError Progress
  | [] => .ok (reading o)
  | c :: cs =>
    match Key.ofShort? c with
    | none => .error (.unexpected ("-" ++ c.toString))
    | some .help => .ok (decided .help)
    | some .version => .ok (decided .version)
    | some (.switch s) =>
      match o.turnOn s with
      | .ok o => short o cs
      | .error e => .error e
    | some (.setting s) =>
      match cs with
      | [] => .ok (awaiting o s)
      | '=' :: value => (o.set (String.ofList value) s).map reading
      | value => (o.set (String.ofList value) s).map reading

/-- Reads one more argument. -/
def step : Progress → String → Except UsageError Progress
  | reading o, arg =>
    match Argument.ofString arg with
    | .terminator => .ok (literal o)
    | .long name value? => long o name value?
    | .short names => short o names
    | .plain value => (o.setScript value).map reading
  | awaiting o s, arg =>
    match Argument.ofString arg with
    | .plain value => (o.set value s).map reading
    | _ => .error (.missingValue s)
  | literal o, arg => (o.setScript arg).map literal
  | decided r, _ => .ok (decided r)

/-- What all the arguments ask for. -/
def request : Progress → Except UsageError Request
  | reading o | literal o =>
    if o.file?.isSome && o.script?.isSome then .error .fileAndScript else .ok (.scan o)
  | awaiting _ s => .error (.missingValue s)
  | decided r => .ok r

end Progress

def Request.parse (args : List String) : Except UsageError Request := do
  let progress ← args.foldlM Progress.step (.reading {})
  progress.request

end ShellLexer.CommandLine
