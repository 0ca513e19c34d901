import ShellLexer.Dump

/-!
# The read loop

Prompt, read a line, print its tokens, until the input ends.  Lines are cut
from bytes: a line ends with a newline byte or with the input, and loses the
newline together with one carriage return in front of it.  An empty line gets
no answer, and faults in a line end nothing.  Only a line that is not UTF-8
stops the loop.
-/

namespace ShellLexer.ReadLoop

open Text.Utf8 (InvalidText)

def newline : UInt8 := 0x0A

def carriageReturn : UInt8 := 0x0D

/-- The bytes of the first line, whether a newline ends it, and the bytes after it. -/
def cutLine (input : List UInt8) : List UInt8 × Bool × List UInt8 :=
  let line := input.takeWhile (· != newline)
  match input.dropWhile (· != newline) with
  | [] => (line, false, [])
  | _ :: rest => (line, true, rest)

/-- A line without the carriage return at its end. -/
def dropCarriageReturn (line : List UInt8) : List UInt8 :=
  if line.getLast? = some carriageReturn then line.dropLast else line

/-- The first line of the input and the input after it; nothing at the end of the input.  A line
that is not text is read all the same. -/
def readLine? (input : List UInt8) : Option (Except InvalidText String × List UInt8) :=
  if input.isEmpty then none
  else
    let (line, hasNewline, rest) := cutLine input
    let line := if hasNewline then dropCarriageReturn line else line
    some (Text.Utf8.decode? line.toByteArray, rest)

theorem length_of_cutLine {input line rest : List UInt8} {hasNewline : Bool}
    (hCut : cutLine input = (line, hasNewline, rest)) :
    input.length = line.length + hasNewline.toNat + rest.length := by
  have hSplit := congrArg List.length (List.takeWhile_append_dropWhile (p := (· != newline))
    (l := input))
  unfold cutLine at hCut
  split at hCut <;> rename_i hDrop <;> rw [hDrop] at hSplit <;> cases hCut <;>
    simp at hSplit ⊢ <;> omega

theorem length_lt_of_readLine? {input rest : List UInt8} {line : Except InvalidText String}
    (hRead : readLine? input = some (line, rest)) : rest.length < input.length := by
  unfold readLine? at hRead
  split at hRead
  · cases hRead
  · rename_i hInput
    generalize hCut : cutLine input = cut at hRead
    obtain ⟨body, hasNewline, tail⟩ := cut
    have hLength := length_of_cutLine hCut
    simp only [Option.some.injEq, Prod.mk.injEq] at hRead
    obtain ⟨_, rfl⟩ := hRead
    cases hasNewline with
    | true => simp at hLength; omega
    | false =>
      unfold cutLine at hCut
      split at hCut <;> cases hCut
      cases input with
      | nil => simp at hInput
      | cons b bs => simp

/-- The lines of the input after the lines found so far. -/
def linesFrom (found : Array (Except InvalidText String)) (input : List UInt8) :
    Array (Except InvalidText String) :=
  match _hRead : readLine? input with
  | none => found
  | some (line, rest) => linesFrom (found.push line) rest
termination_by input.length
decreasing_by exact length_lt_of_readLine? _hRead

/-- The lines of the input, each read as text or refused. -/
def lines (input : List UInt8) : List (Except InvalidText String) :=
  (linesFrom #[] input).toList

theorem toList_linesFrom (found : Array (Except InvalidText String)) (input : List UInt8) :
    (linesFrom found input).toList = found.toList ++ lines input := by
  induction hLength : input.length using Nat.strongRecOn generalizing found input with
  | ind n ih =>
    rw [lines, linesFrom, linesFrom]
    split
    · simp
    · rename_i line rest hRead
      have hShort : rest.length < n := hLength ▸ length_lt_of_readLine? hRead
      rw [ih _ hShort _ _ rfl, ih _ hShort _ _ rfl]
      simp

theorem lines_of_readLine?_eq_none {input : List UInt8} (hRead : readLine? input = none) :
    lines input = [] := by
  rw [lines, linesFrom]
  split
  · rfl
  · rename_i hSome
    rw [hRead] at hSome
    cases hSome

/-- The lines of an input are its first line and the lines of what is left. -/
theorem lines_of_readLine?_eq_some {input rest : List UInt8} {line : Except InvalidText String}
    (hRead : readLine? input = some (line, rest)) : lines input = line :: lines rest := by
  rw [lines, linesFrom]
  split
  · rename_i hNone
    rw [hRead] at hNone
    cases hNone
  · rename_i hSome
    rw [hRead] at hSome
    cases hSome
    rw [toList_linesFrom]
    rfl

structure Options where
  prompt : String := "$ "
  format : DumpFormat := .text

/-- What a loop has written, and what stopped it before the end of the input. -/
structure Outcome where
  output : String
  error? : Option InvalidText

/-- What is written for a line: its dump, and in text its diagnostics on the lines below. -/
def answer (format : DumpFormat) (line : String) : String :=
  if line.isEmpty then ""
  else
    let lexed := tokenize line
    match format with
    | .text => lexed.dump .text ++ "\n" ++ lexed.report
    | .json => lexed.dump .json ++ "\n"

/-- Answers the lines one after the other, after the output written so far. -/
def respond (options : Options) (output : String) :
    List (Except InvalidText String) → Outcome
  | [] => ⟨output ++ options.prompt ++ "\n", none⟩
  | .error e :: _ => ⟨output ++ options.prompt, some e⟩
  | .ok line :: rest =>
    respond options (output ++ options.prompt ++ answer options.format line) rest

/-- The whole loop on the bytes of an input. -/
def run (options : Options) (input : ByteArray) : Outcome :=
  respond options "" (lines input.toList)

end ShellLexer.ReadLoop
