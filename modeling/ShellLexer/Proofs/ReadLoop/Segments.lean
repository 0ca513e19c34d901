import ShellLexer.ReadLoop
import ShellLexer.Proofs.ReadLoop.Encoding
import Mathlib.Data.List.SplitBy
import Mathlib.Data.List.TakeWhile

/-!
# Segments and lines

The bytes of an input, cut behind every newline byte, are its segments
(`segments`).  A line is the text of a segment without what ends it
(`lineOf`).  The read loop strips the bytes of a line before it reads them as
text; `readSegment_newline` says that this comes to the same.

* `lines_append_newline`: the first newline ends the first segment and the
  first line that the loop reads.
* `lines_eq`: the lines that the loop reads are those of the segments, in
  order, and it refuses the segments that are not text.
-/

namespace ShellLexer.ReadLoop

open Text.Utf8

/-! ## Segments -/

/-- The input cut behind every newline byte; the last segment may lack its newline. -/
def segments (input : List UInt8) : List (List UInt8) := input.splitBy fun b _ => b != newline

theorem bne_newline_of_mem {line : List UInt8} (h : newline ∉ line) {b : UInt8} (hb : b ∈ line) :
    (b != newline) = true := by
  apply bne_iff_ne.mpr
  rintro rfl
  exact h hb

/-- There is no cut in front of the last byte of a line, be it a newline or not. -/
theorem isChain_line {line tail : List UInt8} (h : newline ∉ line) (hTail : tail.length ≤ 1) :
    (line ++ tail).IsChain fun b _ => b != newline := by
  induction line with
  | nil =>
    match tail, hTail with
    | [], _ => exact .nil
    | [b], _ => exact .singleton b
  | cons b line ih =>
    have hb := bne_newline_of_mem h List.mem_cons_self
    have hRest := ih fun hMem => h (List.mem_cons_of_mem b hMem)
    rw [List.cons_append, List.isChain_cons]
    exact ⟨fun _ _ => hb, hRest⟩

theorem segments_of_not_mem {line : List UInt8} (hNe : line ≠ []) (h : newline ∉ line) :
    segments line = [line] := by
  have hChain : (line ++ []).IsChain fun b _ => b != newline := isChain_line h (Nat.zero_le 1)
  rw [List.append_nil] at hChain
  exact List.splitBy_of_isChain hNe hChain

theorem segments_append_newline {line : List UInt8} (h : newline ∉ line) (rest : List UInt8) :
    segments (line ++ newline :: rest) = (line ++ [newline]) :: segments rest := by
  have hFirst : segments (line ++ [newline]) = [line ++ [newline]] :=
    List.splitBy_of_isChain (List.append_ne_nil_of_right_ne_nil _ (List.cons_ne_nil _ _))
      (isChain_line h (Nat.le_refl 1))
  have hCut : segments ((line ++ [newline]) ++ rest) =
      segments (line ++ [newline]) ++ segments rest := by
    apply List.splitBy_append
    intro b hb c _
    rw [List.getLast?_concat] at hb
    obtain rfl := Option.some.inj hb
    rfl
  rw [List.append_cons, hCut, hFirst, List.singleton_append]

/-! ## Lines -/

/-- A text without the newline at its end and without one carriage return directly in front of that
newline. -/
def lineOf (text : String) : String :=
  match text.toList.reverse with
  | '\n' :: '\r' :: cs => String.ofList cs.reverse
  | '\n' :: cs => String.ofList cs.reverse
  | _ => text

theorem lineOf_return_newline (cs : List Char) :
    lineOf (String.ofList (cs ++ ['\r'] ++ ['\n'])) = String.ofList cs := by
  simp [lineOf]

theorem lineOf_newline {cs : List Char} (h : cs.getLast? ≠ some '\r') :
    lineOf (String.ofList (cs ++ ['\n'])) = String.ofList cs := by
  induction cs using List.reverseRecOn with
  | nil => rfl
  | append_singleton ds d _ =>
    have hd : d ≠ '\r' := by
      rintro rfl
      exact h List.getLast?_concat
    simp [lineOf, hd]

theorem lineOf_of_not_mem {text : String} (h : '\n' ∉ text.toList) : lineOf text = text := by
  have hReverse : '\n' ∉ text.toList.reverse := mt List.mem_reverse.mp h
  unfold lineOf
  split
  · rename_i hText
    exact absurd (hText ▸ List.mem_cons_self) hReverse
  · rename_i hText
    exact absurd (hText ▸ List.mem_cons_self) hReverse
  · rfl

/-- The line of a segment, unless the segment is not text. -/
def readSegment (segment : List UInt8) : Except InvalidText String :=
  (decode? segment.toByteArray).map lineOf

theorem encode_newline : String.utf8EncodeChar '\n' = [newline] := by decide

theorem encode_carriageReturn : String.utf8EncodeChar '\r' = [carriageReturn] := by decide

theorem dropCarriageReturn_concat (front : List UInt8) :
    dropCarriageReturn (front ++ [carriageReturn]) = front := by
  rw [dropCarriageReturn, if_pos List.getLast?_concat, List.dropLast_concat]

/-- **A line can be stripped before it is read**: the newline and the carriage return are single
bytes. -/
theorem readSegment_newline (line : List UInt8) :
    readSegment (line ++ [newline]) = decode? (dropCarriageReturn line).toByteArray := by
  rw [readSegment, decode?_append_ascii (by decide) encode_newline]
  by_cases hReturn : line.getLast? = some carriageReturn
  · obtain ⟨front, rfl⟩ := List.getLast?_eq_some_iff.mp hReturn
    rw [dropCarriageReturn_concat, decode?_append_ascii (by decide) encode_carriageReturn]
    cases decode? front.toByteArray with
    | error e => rfl
    | ok s =>
      simp only [Except.map, String.toList_ofList, lineOf_return_newline, String.ofList_toList]
  · rw [dropCarriageReturn, if_neg hReturn]
    cases hRead : decode? line.toByteArray with
    | error e => rfl
    | ok s =>
      have hLast : s.toList.getLast? ≠ some '\r' := by
        rw [decode?_eq_ok_iff.mp hRead] at hReturn
        exact mt (getLast?_encode_eq_some_iff (by decide) encode_carriageReturn).mpr hReturn
      simp only [Except.map, lineOf_newline hLast, String.ofList_toList]

theorem readSegment_of_not_mem {line : List UInt8} (h : newline ∉ line) :
    readSegment line = decode? line.toByteArray := by
  rw [readSegment]
  cases hRead : decode? line.toByteArray with
  | error e => rfl
  | ok s =>
    have hText : '\n' ∉ s.toList := by
      rw [← mem_encode_iff (by decide) encode_newline, ← decode?_eq_ok_iff.mp hRead]
      exact h
    rw [Except.map, lineOf_of_not_mem hText]

/-! ## What the loop reads -/

theorem cutLine_append_newline {line : List UInt8} (h : newline ∉ line) (rest : List UInt8) :
    cutLine (line ++ newline :: rest) = (line, true, rest) := by
  have hTake : (line ++ newline :: rest).takeWhile (· != newline) = line := by
    rw [List.takeWhile_append_of_pos fun _ => bne_newline_of_mem h,
      List.takeWhile_cons_of_neg (by decide), List.append_nil]
  have hDrop : (line ++ newline :: rest).dropWhile (· != newline) = newline :: rest := by
    rw [List.dropWhile_append_of_pos fun _ => bne_newline_of_mem h,
      List.dropWhile_cons_of_neg (by decide)]
  rw [cutLine, hTake, hDrop]

theorem cutLine_of_not_mem {line : List UInt8} (h : newline ∉ line) :
    cutLine line = (line, false, []) := by
  have hTake : line.takeWhile (· != newline) = line :=
    List.takeWhile_eq_self_iff.mpr fun _ => bne_newline_of_mem h
  have hDrop : line.dropWhile (· != newline) = [] :=
    List.dropWhile_eq_nil_iff.mpr fun _ => bne_newline_of_mem h
  rw [cutLine, hTake, hDrop]

theorem lines_append_newline {line : List UInt8} (h : newline ∉ line) (rest : List UInt8) :
    lines (line ++ newline :: rest) = readSegment (line ++ [newline]) :: lines rest := by
  have hNe : (line ++ newline :: rest).isEmpty = false := by
    cases line <;> rfl
  have hRead : readLine? (line ++ newline :: rest) =
      some (readSegment (line ++ [newline]), rest) := by
    rw [readLine?, if_neg (by rw [hNe]; decide), cutLine_append_newline h, readSegment_newline]
    rfl
  exact lines_of_readLine?_eq_some hRead

theorem lines_of_not_mem {line : List UInt8} (hNe : line ≠ []) (h : newline ∉ line) :
    lines line = [readSegment line] := by
  have hEmpty : line.isEmpty = false := List.isEmpty_eq_false_iff.mpr hNe
  have hRead : readLine? line = some (readSegment line, []) := by
    rw [readLine?, if_neg (by rw [hEmpty]; decide), cutLine_of_not_mem h, readSegment_of_not_mem h]
    rfl
  rw [lines_of_readLine?_eq_some hRead]
  exact congrArg _ (lines_of_readLine?_eq_none rfl)

/-- **The loop reads the lines of the segments**, one for each, in their order. -/
theorem lines_eq (input : List UInt8) : lines input = (segments input).map readSegment := by
  induction hLength : input.length using Nat.strongRecOn generalizing input with
  | ind n ih =>
    by_cases hNewline : newline ∈ input
    · obtain ⟨line, rest, rfl, hLine⟩ := List.eq_append_cons_of_mem hNewline
      have hShort : rest.length < n := by
        rw [← hLength, List.length_append, List.length_cons]
        omega
      rw [lines_append_newline hLine, segments_append_newline hLine, List.map_cons,
        ih rest.length hShort rest rfl]
    · by_cases hNe : input = []
      · subst hNe
        exact lines_of_readLine?_eq_none rfl
      · rw [lines_of_not_mem hNe hNewline, segments_of_not_mem hNe hNewline, List.map_cons,
          List.map_nil]

end ShellLexer.ReadLoop
