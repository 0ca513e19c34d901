import ShellLexer.Proofs.ReadLoop.Segments

/-!
# What the read loop writes

The loop writes a `block` for each line it reads: the prompt, and behind it
what there is to say about the line.  It keeps nothing of a line for the next
one (`respond_append`), so its output is the blocks of the lines and one more
prompt, up to the end of the input or up to the first segment that is not text
(`run_eq_blocks`).
-/

namespace ShellLexer.ReadLoop

open Text.Utf8

variable (options : Options)

/-- The prompt and the answer to a line: nothing for an empty line, and otherwise its dump, with its
diagnostics on the lines below if the dump is text. -/
def block (line : String) : String :=
  options.prompt ++
    if line = "" then ""
    else
      (tokenize line).dump options.format ++ "\n" ++
        if options.format = .text then (tokenize line).report else ""

def blocks (ls : List String) : String := String.join (ls.map (block options))

theorem prompt_append_answer (line : String) :
    options.prompt ++ answer options.format line = block options line := by
  unfold block answer
  congr 1
  by_cases hLine : line = ""
  · subst hLine
    rfl
  · have hEmpty : line.isEmpty = false := by simpa using hLine
    rw [hEmpty, if_neg Bool.false_ne_true, if_neg hLine]
    cases options.format with
    | text => rfl
    | json => exact (String.append_empty).symm

theorem blocks_cons (line : String) (ls : List String) :
    blocks options (line :: ls) = block options line ++ blocks options ls := by
  rw [blocks, List.map_cons, String.join_cons]
  rfl

/-- **The loop writes the blocks of the lines in front**, and then goes on as at the start. -/
theorem respond_append (output : String) (ls : List String)
    (rest : List (Except InvalidText String)) :
    respond options output (ls.map .ok ++ rest) =
      respond options (output ++ blocks options ls) rest := by
  induction ls generalizing output with
  | nil =>
    show respond options output rest = respond options (output ++ "") rest
    rw [String.append_empty]
  | cons line ls ih =>
    rw [List.map_cons, List.cons_append, respond, ih, blocks_cons, ← prompt_append_answer]
    simp only [String.append_assoc]

/-! ## The lines of segments -/

/-- The text of a segment, unless it is none. -/
def text? (segment : List UInt8) : Option String := String.fromUTF8? segment.toByteArray

/-- The lines of the segments that are text. -/
def linesOf (parts : List (List UInt8)) : List String :=
  parts.filterMap fun segment => (text? segment).map lineOf

theorem readSegment_of_text?_eq_some {segment : List UInt8} {s : String}
    (h : text? segment = some s) : readSegment segment = .ok (lineOf s) := by
  rw [text?] at h
  rw [readSegment, decode?, h]
  rfl

theorem readSegment_of_text?_eq_none {segment : List UInt8} (h : text? segment = none) :
    readSegment segment = .error .notUtf8 := by
  rw [text?] at h
  rw [readSegment, decode?, h]
  rfl

theorem map_readSegment {parts : List (List UInt8)} (h : ∀ s ∈ parts, text? s ≠ none) :
    parts.map readSegment = (linesOf parts).map .ok := by
  induction parts with
  | nil => rfl
  | cons segment parts ih =>
    obtain ⟨s, hs⟩ := Option.ne_none_iff_exists'.mp (h segment List.mem_cons_self)
    have hFirst : linesOf (segment :: parts) = lineOf s :: linesOf parts := by
      simp [linesOf, hs]
    rw [hFirst, List.map_cons, List.map_cons, readSegment_of_text?_eq_some hs,
      ih fun s hMem => h s (List.mem_cons_of_mem _ hMem)]

/-- **The whole output of the loop.**  Where all segments of the input are text, the loop writes the
block of each line, the prompt and a newline.  Otherwise it writes the blocks of the lines in front
of the first segment that is not text and the prompt, and fails. -/
theorem run_eq_blocks (input : ByteArray) :
    run options input =
      match (segments input.toList).findIdx? fun segment => (text? segment).isNone with
      | none => ⟨blocks options (linesOf (segments input.toList)) ++ options.prompt ++ "\n", none⟩
      | some j =>
        ⟨blocks options (linesOf ((segments input.toList).take j)) ++ options.prompt,
          some .notUtf8⟩ := by
  rw [run, lines_eq]
  generalize segments input.toList = parts
  cases hFirst : parts.findIdx? fun segment => (text? segment).isNone with
  | none =>
    have hText : ∀ s ∈ parts, text? s ≠ none := by
      intro s hs hNone
      have hFalse := List.findIdx?_eq_none_iff.mp hFirst s hs
      simp [hNone] at hFalse
    have hRespond := respond_append options "" (linesOf parts) []
    rw [List.append_nil, String.empty_append, respond] at hRespond
    rw [map_readSegment hText, hRespond]
  | some j =>
    obtain ⟨hj, hBad, hBefore⟩ := List.findIdx?_eq_some_iff_getElem.mp hFirst
    have hText : ∀ s ∈ parts.take j, text? s ≠ none := by
      intro s hs hNone
      obtain ⟨i, hi, rfl⟩ := List.mem_take_iff_getElem.mp hs
      have hFalse := hBefore i (by omega)
      simp [hNone] at hFalse
    have hBadRead : readSegment parts[j] = .error .notUtf8 :=
      readSegment_of_text?_eq_none (Option.isNone_iff_eq_none.mp hBad)
    have hSplit : parts.map readSegment = (linesOf (parts.take j)).map .ok ++
        .error .notUtf8 :: (parts.drop (j + 1)).map readSegment := by
      rw [← map_readSegment hText, ← hBadRead, ← List.map_cons, ← List.map_append,
        List.getElem_cons_drop, List.take_append_drop]
    rw [hSplit, respond_append, String.empty_append, respond]

end ShellLexer.ReadLoop
