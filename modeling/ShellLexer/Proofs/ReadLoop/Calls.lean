import ShellLexer.Proofs.ReadLoop.Segments

/-!
# Calling for lines

Whoever calls for a line again and again gets the lines of the input in their
order, and nothing once they are used up (`call_eq_getElem?`).

Lines are written with a newline behind each of them, or with a carriage return
and a newline, in any mixture, and the last one may do without.  Reading undoes
that (`call_written`): a carriage return inside a line stays, and so does an
empty line.
-/

namespace ShellLexer.ReadLoop

open Text.Utf8

/-! ## Calls -/

/-- The input that is left after so many calls; at its end a call leaves it as it is. -/
def restAfter : Nat → List UInt8 → List UInt8
  | 0, input => input
  | n + 1, input =>
    match readLine? input with
    | none => input
    | some (_, rest) => restAfter n rest

/-- What a call returns that `n` calls went before. -/
def call (n : Nat) (input : List UInt8) : Option (Except InvalidText String) :=
  (readLine? (restAfter n input)).map Prod.fst

/-- **Calls return the lines of the input**, one after the other, and then nothing for ever. -/
theorem call_eq_getElem? (n : Nat) (input : List UInt8) : call n input = (lines input)[n]? := by
  induction n generalizing input with
  | zero =>
    cases hRead : readLine? input with
    | none => simp [call, restAfter, hRead, lines_of_readLine?_eq_none hRead]
    | some first =>
      obtain ⟨line, rest⟩ := first
      simp [call, restAfter, hRead, lines_of_readLine?_eq_some hRead]
  | succ n ih =>
    cases hRead : readLine? input with
    | none => simp [call, restAfter, hRead, lines_of_readLine?_eq_none hRead]
    | some first =>
      obtain ⟨line, rest⟩ := first
      rw [lines_of_readLine?_eq_some hRead, List.getElem?_cons_succ, ← ih]
      simp [call, restAfter, hRead]

/-! ## Lines and what ends them -/

/-- What may stand behind a line. -/
inductive Terminator
  | newline
  | returnNewline

def Terminator.text : Terminator → String
  | newline => "\n"
  | returnNewline => "\r\n"

/-- A text that is a line as it stands: nothing in it ends a line, and nothing at its end would be
taken for a part of what ends it. -/
structure IsLine (line : String) : Prop where
  no_newline : '\n' ∉ line.toList
  no_return : line.toList.getLast? ≠ some '\r'

/-- Lines with what ends them, and a last line without. -/
def written (ls : List (String × Terminator)) (last? : Option String) : String :=
  String.join (ls.map fun (line, ending) => line ++ ending.text) ++ last?.getD ""

theorem toList_written_cons (l : String × Terminator) (ls : List (String × Terminator))
    (last? : Option String) :
    (written (l :: ls) last?).toList =
      l.1.toList ++ l.2.text.toList ++ (written ls last?).toList := by
  simp [written]

theorem IsLine.newline_not_mem {l : String} (h : IsLine l) : newline ∉ encode l.toList :=
  mt (mem_encode_iff (by decide) encode_newline).mp h.no_newline

theorem IsLine.dropCarriageReturn_eq {l : String} (h : IsLine l) :
    dropCarriageReturn (encode l.toList) = encode l.toList := by
  have hReturn : (encode l.toList).getLast? ≠ some carriageReturn :=
    mt (getLast?_encode_eq_some_iff (by decide) encode_carriageReturn).mp h.no_return
  rw [dropCarriageReturn, if_neg hReturn]

/-- **A line comes back without what ended it**, and the lines behind it are read as before. -/
theorem lines_terminated {l : String} (h : IsLine l) (ending : Terminator) (rest : List UInt8) :
    lines (encode (l.toList ++ ending.text.toList) ++ rest) = .ok l :: lines rest := by
  cases ending with
  | newline =>
    have hRead : readSegment (encode l.toList ++ [newline]) = .ok l := by
      rw [readSegment_newline, h.dropCarriageReturn_eq, decode?_encode]
    show lines (encode (l.toList ++ ['\n']) ++ rest) = _
    rw [encode_concat, encode_newline, List.append_assoc, List.singleton_append,
      lines_append_newline h.newline_not_mem, hRead]
  | returnNewline =>
    have hRead : readSegment (encode l.toList ++ [carriageReturn] ++ [newline]) = .ok l := by
      rw [readSegment_newline, dropCarriageReturn_concat, decode?_encode]
    have hNewline : newline ∉ encode l.toList ++ [carriageReturn] :=
      List.not_mem_append h.newline_not_mem (by decide)
    show lines (encode (l.toList ++ ['\r', '\n']) ++ rest) = _
    rw [List.append_cons, encode_concat, encode_concat, encode_carriageReturn, encode_newline,
      List.append_assoc _ [newline], List.singleton_append, lines_append_newline hNewline, hRead]

theorem lines_unterminated {l : String} (h : IsLine l) (hNe : l ≠ "") :
    lines (encode l.toList) = [.ok l] := by
  have hBytes : encode l.toList ≠ [] := by
    intro hEmpty
    have hRead := decode?_encode l
    rw [hEmpty] at hRead
    exact hNe (Except.ok.inj (hRead.symm.trans (decode?_encode "")))
  rw [lines_of_not_mem hBytes h.newline_not_mem, readSegment_of_not_mem h.newline_not_mem,
    decode?_encode]

theorem lines_written {ls : List (String × Terminator)} {last? : Option String}
    (hLines : ∀ l ∈ ls, IsLine l.1) (hLast : ∀ l ∈ last?, IsLine l ∧ l ≠ "") :
    lines (encode (written ls last?).toList) = (ls.map Prod.fst ++ last?.toList).map .ok := by
  induction ls with
  | nil =>
    cases last? with
    | none => exact lines_of_readLine?_eq_none rfl
    | some l =>
      obtain ⟨hLine, hNe⟩ := hLast l rfl
      simpa [written] using lines_unterminated hLine hNe
  | cons l ls ih =>
    obtain ⟨hFirst, hRest⟩ := List.forall_mem_cons.mp hLines
    rw [toList_written_cons, encode_append, lines_terminated hFirst, ih hRest, List.map_cons,
      List.cons_append, List.map_cons]

/-- **Reading lines undoes writing them.**  Lines may end with a newline or with a carriage return
and a newline, each as it likes, and the last one with the input unless it is empty.  The calls for
a line return them in order, and every later call returns nothing. -/
theorem call_written (ls : List (String × Terminator)) (last? : Option String)
    (hLines : ∀ l ∈ ls, IsLine l.1) (hLast : ∀ l ∈ last?, IsLine l ∧ l ≠ "") (n : Nat) :
    call n (written ls last?).toUTF8.toList =
      (ls.map Prod.fst ++ last?.toList)[n]?.map .ok := by
  rw [call_eq_getElem?, toList_toUTF8, lines_written hLines hLast, List.getElem?_map]

/-- Both terminators, a carriage return inside a line, an empty line, and a last line without
terminator; then nothing, however often it is asked for. -/
theorem call_written_mixed :
    let input := (written [("a", .returnNewline), ("b\rc", .newline), ("", .newline)]
      (some "é")).toUTF8.toList
    call 0 input = some (.ok "a") ∧ call 1 input = some (.ok "b\rc") ∧
      call 2 input = some (.ok "") ∧ call 3 input = some (.ok "é") ∧ call 4 input = none ∧
      call 7 input = none := by
  have hLines : ∀ l ∈ [("a", Terminator.returnNewline), ("b\rc", .newline), ("", .newline)],
      IsLine l.1 := by
    simp only [List.forall_mem_cons, List.not_mem_nil, IsEmpty.forall_iff, implies_true, and_true]
    exact ⟨⟨by decide, by decide⟩, ⟨by decide, by decide⟩, ⟨by decide, by decide⟩⟩
  have hLast : ∀ l ∈ some "é", IsLine l ∧ l ≠ "" := by
    rintro l ⟨⟩
    exact ⟨⟨by decide, by decide⟩, by decide⟩
  exact ⟨call_written _ _ hLines hLast 0, call_written _ _ hLines hLast 1,
    call_written _ _ hLines hLast 2, call_written _ _ hLines hLast 3,
    call_written _ _ hLines hLast 4, call_written _ _ hLines hLast 7⟩

end ShellLexer.ReadLoop
