import ShellLexer.CommandLine
import ShellLexer.ReadLoop

/-!
# The program

The outer layer: it reads files, standard input and the terminal, and writes
what the command line decides.  With a terminal for standard input and nothing
else to scan, it runs the read loop line by line.
-/

namespace ShellLexer.Main

open CommandLine

/-- The number of a system error, which may be given negated. -/
def errorNumber (e : IO.Error) : Option Nat :=
  let code? : Option UInt32 := match e with
    | .noFileOrDirectory _ code _ => some code
    | .permissionDenied _ code _ => some code
    | .inappropriateType _ code _ => some code
    | .invalidArgument _ code _ => some code
    | _ => none
  code?.map fun code => if code < 0x80000000 then code.toNat else (0 - code).toNat

def readFile (name : String) : IO (Except FileFault ByteArray) := do
  match ← (IO.FS.readBinFile name).toBaseIO with
  | .ok bytes => return .ok bytes
  | .error e =>
    match (errorNumber e).bind SystemFault.ofCode? with
    | some f => return .error (.system f)
    | none => return .error (.other (toString e))

/-- Reads from a stream up to its end. -/
partial def readAll (stream : IO.FS.Stream) (bytes : ByteArray) : IO ByteArray := do
  let chunk ← stream.read 65536
  if chunk.isEmpty then return bytes else readAll stream (bytes ++ chunk)

/-- Reads from a stream through the next newline. -/
partial def readLineBytes (stream : IO.FS.Stream) (bytes : ByteArray) : IO ByteArray := do
  let chunk ← stream.read 1
  let bytes := bytes ++ chunk
  if chunk.isEmpty || chunk[0]? == some ReadLoop.newline then return bytes
  else readLineBytes stream bytes

/-- The read loop on a terminal, a line at a time. -/
partial def interact (options : ReadLoop.Options) (input output errors : IO.FS.Stream) :
    IO UInt32 := do
  output.putStr options.prompt
  output.flush
  match ReadLoop.readLine? (← readLineBytes input .empty).toList with
  | none =>
    output.putStr "\n"
    return 0
  | some (.error e, _) =>
    errors.putStr ("Error: " ++ e.message ++ "\n")
    return 1
  | some (.ok line, _) =>
    output.putStr (ReadLoop.answer options.format line)
    interact options input output errors

end ShellLexer.Main

open ShellLexer CommandLine in
def main (args : List String) : IO UInt32 := do
  let input ← IO.getStdin
  let output ← IO.getStdout
  let errors ← IO.getStderr
  if let .ok (.scan o) := Request.parse args then
    if let .standardInput := o.source then
      if ← input.isTty then
        return ← ShellLexer.Main.interact { format := o.format } input output errors
  let outcome ← CommandLine.run ShellLexer.Main.readFile
    (ShellLexer.Main.readAll input .empty) args
  output.putStr outcome.output
  errors.putStr outcome.errors
  return outcome.code
