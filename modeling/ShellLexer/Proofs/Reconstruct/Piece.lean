import ShellLexer.Lexed
import Mathlib.Data.List.Basic

/-!
# What becomes of the characters of a text

A scan carries a character over into a token, reports it and drops it, or takes
a backslash off it.  A text with that decided for every character is a list of
`Piece`s: `sourceOf` is the text and `textOf` what the tokens hold of it.

* `Explains n ps es`: the events `es` hold the text of `ps` and report the
  characters that `ps` drops, where the first character of `ps` is at `n`.
* `textOf_eq_charsAt`: the text of `ps` is its source without the positions
  that are dropped (`droppedFrom`) and those that are taken off (`strippedFrom`).
-/

namespace ShellLexer

/-! ## Positions in a text -/

/-- The characters at the positions that `keep` holds of, in their order, if the first is at
`n`. -/
def charsFrom (n : Nat) (keep : Nat → Bool) (cs : List Char) : List Char :=
  ((cs.zipIdx n).filter fun entry => keep entry.2).map Prod.fst

theorem charsFrom_append (n : Nat) (keep : Nat → Bool) (cs ds : List Char) :
    charsFrom n keep (cs ++ ds) = charsFrom n keep cs ++ charsFrom (n + cs.length) keep ds := by
  simp only [charsFrom, List.zipIdx_append, List.filter_append, List.map_append]

/-- Only what is asked at the positions of the text matters. -/
theorem charsFrom_congr {n : Nat} {p q : Nat → Bool} {cs : List Char}
    (h : ∀ i, n ≤ i → i < n + cs.length → p i = q i) :
    charsFrom n p cs = charsFrom n q cs := by
  unfold charsFrom
  rw [List.filter_congr]
  intro entry hEntry
  have hBounds := List.mem_zipIdx hEntry
  exact h entry.2 hBounds.1 (by omega)

theorem charsFrom_none {n : Nat} {keep : Nat → Bool} {cs : List Char}
    (h : ∀ i, n ≤ i → keep i = false) : charsFrom n keep cs = [] := by
  have hNone := charsFrom_congr (q := fun _ => false) fun i hi (_ : i < n + cs.length) => h i hi
  rw [hNone]
  simp [charsFrom]

theorem charsFrom_all {n : Nat} {keep : Nat → Bool} {cs : List Char}
    (h : ∀ i, n ≤ i → i < n + cs.length → keep i = true) : charsFrom n keep cs = cs := by
  rw [charsFrom_congr (q := fun _ => true) h]
  simp [charsFrom]

/-- The characters of a text at the positions that `keep` holds of, in their order. -/
def charsAt (keep : Nat → Bool) (cs : List Char) : List Char := charsFrom 0 keep cs

/-- Position `i` is a backslash with a character after it that it may be taken off, or a newline
with a backslash in front. -/
def Strippable (cs : List Char) (i : Nat) : Prop :=
  (cs[i]? = some '\\' ∧ ∃ c ∈ ['$', '\x60', '"', '\\', '{', '\n'], cs[i + 1]? = some c) ∨
    (cs[i]? = some '\n' ∧ ∃ j, i = j + 1 ∧ cs[j]? = some '\\')

theorem Strippable.append {cs : List Char} {i : Nat} (h : Strippable cs i) (ds : List Char) :
    Strippable (cs ++ ds) i := by
  have hMono : ∀ {j : Nat} {c : Char}, cs[j]? = some c → (cs ++ ds)[j]? = some c := by
    intro j c hj
    rw [List.getElem?_append_left (List.getElem?_eq_some_iff.mp hj).1, hj]
  rcases h with ⟨hi, c, hc, hNext⟩ | ⟨hi, j, rfl, hj⟩
  · exact Or.inl ⟨hMono hi, c, hc, hMono hNext⟩
  · exact Or.inr ⟨hMono hi, j, rfl, hMono hj⟩

theorem Strippable.append_left {cs : List Char} {i : Nat} (h : Strippable cs i) (ds : List Char) :
    Strippable (ds ++ cs) (ds.length + i) := by
  have hMove : ∀ {j : Nat} {c : Char}, cs[j]? = some c → (ds ++ cs)[ds.length + j]? = some c := by
    intro j c hj
    rw [List.getElem?_append_right (Nat.le_add_right _ _), Nat.add_sub_cancel_left, hj]
  rcases h with ⟨hi, c, hc, hNext⟩ | ⟨hi, j, rfl, hj⟩
  · exact Or.inl ⟨hMove hi, c, hc, hMove hNext⟩
  · exact Or.inr ⟨hMove hi, ds.length + j, rfl, hMove hj⟩

/-- Nothing is taken off a text without a backslash. -/
theorem Strippable.mem_backslash {cs : List Char} {i : Nat} (h : Strippable cs i) : '\\' ∈ cs := by
  rcases h with ⟨hi, -⟩ | ⟨-, j, -, hj⟩
  · exact List.mem_of_getElem? hi
  · exact List.mem_of_getElem? hj

/-- The faults about a character that is part of no token. -/
def Fault.dropsChar : Fault → Bool
  | unexpectedChar _ | unhandledPunctuation _ | unhandledInCommand _ => true
  | _ => false

namespace Scan

/-- What a token holds of the text. -/
def Event.chars : Event → List Char
  | token t => t.sourceText.toList
  | diagnostic _ => []

/-- Where a dropped character was. -/
def Event.droppedPosition? : Event → Option Nat
  | token _ => none
  | diagnostic d => if d.fault.dropsChar then some d.position else none

/-! ## Pieces -/

/-- One or two characters of a text, and what becomes of them. -/
inductive Piece
  /-- A character that a token holds. -/
  | kept (c : Char)
  /-- A character that is reported and left out. -/
  | dropped (c : Char)
  /-- A character with the backslash in front taken off. -/
  | escaped (c : Char) (escapable : c ∈ ['$', '\x60', '"', '\\', '{'])
  /-- A backslash and a newline, both left out. -/
  | continued

namespace Piece

def source : Piece → List Char
  | kept c | dropped c => [c]
  | escaped c _ => ['\\', c]
  | continued => ['\\', '\n']

def text : Piece → List Char
  | kept c | escaped c _ => [c]
  | dropped _ | continued => []

/-- The characters left out with a report, counted from the start of the piece. -/
def droppedOffsets : Piece → List Nat
  | dropped _ => [0]
  | kept _ | escaped _ _ | continued => []

/-- The characters left out without a report. -/
def strippedOffsets : Piece → List Nat
  | kept _ | dropped _ => []
  | escaped _ _ => [0]
  | continued => [0, 1]

theorem lt_of_mem_droppedOffsets {p : Piece} {i : Nat} (h : i ∈ p.droppedOffsets) :
    i < p.source.length := by
  cases p <;> simp_all [droppedOffsets, source]

theorem lt_of_mem_strippedOffsets {p : Piece} {i : Nat} (h : i ∈ p.strippedOffsets) :
    i < p.source.length := by
  cases p with
  | kept | dropped => cases h
  | escaped c hc => simp_all [strippedOffsets, source]
  | continued =>
    simp only [strippedOffsets, List.mem_cons, List.not_mem_nil, or_false] at h
    simp only [source, List.length_cons, List.length_nil]
    omega

theorem strippable_of_mem_strippedOffsets {p : Piece} {i : Nat} (h : i ∈ p.strippedOffsets) :
    Strippable p.source i := by
  cases p with
  | kept | dropped => cases h
  | escaped c hc =>
    obtain rfl : i = 0 := by simpa [strippedOffsets] using h
    exact Or.inl ⟨rfl, c, List.mem_append_left ['\n'] hc, rfl⟩
  | continued =>
    obtain rfl | rfl : i = 0 ∨ i = 1 := by simpa [strippedOffsets] using h
    · exact Or.inl ⟨rfl, '\n', by decide, rfl⟩
    · exact Or.inr ⟨rfl, 0, rfl, rfl⟩

end Piece

/-- The text that the pieces make up. -/
def sourceOf (ps : List Piece) : List Char := ps.flatMap Piece.source

/-- What tokens hold of that text. -/
def textOf (ps : List Piece) : List Char := ps.flatMap Piece.text

@[simp] theorem sourceOf_nil : sourceOf [] = [] := rfl

@[simp] theorem textOf_nil : textOf [] = [] := rfl

@[simp] theorem sourceOf_append (ps qs : List Piece) :
    sourceOf (ps ++ qs) = sourceOf ps ++ sourceOf qs := by simp [sourceOf]

@[simp] theorem textOf_append (ps qs : List Piece) :
    textOf (ps ++ qs) = textOf ps ++ textOf qs := by simp [textOf]

@[simp] theorem sourceOf_cons (p : Piece) (ps : List Piece) :
    sourceOf (p :: ps) = p.source ++ sourceOf ps := by simp [sourceOf]

@[simp] theorem textOf_cons (p : Piece) (ps : List Piece) :
    textOf (p :: ps) = p.text ++ textOf ps := by simp [textOf]

/-! ### Characters that are all kept -/

/-- The pieces of a text that a token holds as it is. -/
def keepAll (cs : List Char) : List Piece := cs.map Piece.kept

@[simp] theorem sourceOf_keepAll (cs : List Char) : sourceOf (keepAll cs) = cs := by
  induction cs with
  | nil => rfl
  | cons c cs ih => exact congrArg (c :: ·) ih

@[simp] theorem textOf_keepAll (cs : List Char) : textOf (keepAll cs) = cs := by
  induction cs with
  | nil => rfl
  | cons c cs ih => exact congrArg (c :: ·) ih

/-! ### Positions in a list of pieces -/

/-- The positions at the given offsets in each of the pieces, the first of which starts at `n`. -/
def positionsFrom (offsets : Piece → List Nat) (n : Nat) : List Piece → List Nat
  | [] => []
  | p :: ps => (offsets p).map (n + ·) ++ positionsFrom offsets (n + p.source.length) ps

/-- Where characters are dropped, if the first is at `n`. -/
def droppedFrom (n : Nat) (ps : List Piece) : List Nat :=
  positionsFrom Piece.droppedOffsets n ps

/-- Where characters are left out without a report, if the first is at `n`. -/
def strippedFrom (n : Nat) (ps : List Piece) : List Nat :=
  positionsFrom Piece.strippedOffsets n ps

theorem positionsFrom_append (offsets : Piece → List Nat) (n : Nat) (ps qs : List Piece) :
    positionsFrom offsets n (ps ++ qs) =
      positionsFrom offsets n ps ++ positionsFrom offsets (n + (sourceOf ps).length) qs := by
  induction ps generalizing n with
  | nil => rfl
  | cons p ps ih =>
    rw [List.cons_append, positionsFrom, positionsFrom, ih, List.append_assoc, sourceOf_cons,
      List.length_append, Nat.add_assoc]

theorem le_of_mem_positionsFrom {offsets : Piece → List Nat} {n i : Nat} {ps : List Piece}
    (h : i ∈ positionsFrom offsets n ps) : n ≤ i := by
  induction ps generalizing n with
  | nil => cases h
  | cons p ps ih =>
    rcases List.mem_append.mp h with h | h
    · obtain ⟨j, -, rfl⟩ := List.mem_map.mp h
      exact Nat.le_add_right n j
    · have := ih h
      omega

theorem droppedFrom_append (n : Nat) (ps qs : List Piece) :
    droppedFrom n (ps ++ qs) = droppedFrom n ps ++ droppedFrom (n + (sourceOf ps).length) qs :=
  positionsFrom_append _ n ps qs

@[simp] theorem droppedFrom_keepAll (n : Nat) (cs : List Char) :
    droppedFrom n (keepAll cs) = [] := by
  induction cs generalizing n with
  | nil => rfl
  | cons c cs ih => exact ih (n + 1)

theorem strippable_of_mem_strippedFrom {n i : Nat} {ps : List Piece}
    (h : i ∈ strippedFrom n ps) : ∃ j, i = n + j ∧ Strippable (sourceOf ps) j := by
  induction ps generalizing n with
  | nil => cases h
  | cons p ps ih =>
    rw [sourceOf_cons]
    rcases List.mem_append.mp h with h | h
    · obtain ⟨j, hj, rfl⟩ := List.mem_map.mp h
      exact ⟨j, rfl, (Piece.strippable_of_mem_strippedOffsets hj).append _⟩
    · obtain ⟨j, rfl, hj⟩ := ih h
      exact ⟨p.source.length + j, by omega, hj.append_left _⟩

/-- **Tokens hold what is neither dropped nor taken off.** -/
theorem charsFrom_sourceOf (n : Nat) (ps : List Piece) :
    charsFrom n (fun i => i ∉ droppedFrom n ps ∧ i ∉ strippedFrom n ps) (sourceOf ps) =
      textOf ps := by
  induction ps generalizing n with
  | nil => rfl
  | cons p ps ih =>
    have hTail : charsFrom (n + p.source.length)
        (fun i => i ∉ droppedFrom n (p :: ps) ∧ i ∉ strippedFrom n (p :: ps)) (sourceOf ps) =
          textOf ps := by
      rw [← ih]
      refine charsFrom_congr fun i hi _ => ?_
      have hAfter : ∀ offsets : Piece → List Nat, (∀ j ∈ offsets p, j < p.source.length) →
          (i ∈ positionsFrom offsets n (p :: ps) ↔
            i ∈ positionsFrom offsets (n + p.source.length) ps) := by
        intro offsets hOffsets
        rw [positionsFrom, List.mem_append]
        refine or_iff_right fun h => ?_
        obtain ⟨j, hj, rfl⟩ := List.mem_map.mp h
        have := hOffsets j hj
        omega
      have hDropped := hAfter Piece.droppedOffsets fun _ => Piece.lt_of_mem_droppedOffsets
      have hStripped := hAfter Piece.strippedOffsets fun _ => Piece.lt_of_mem_strippedOffsets
      exact decide_eq_decide.mpr (and_congr (not_congr hDropped) (not_congr hStripped))
    have hHead : charsFrom n
        (fun i => i ∉ droppedFrom n (p :: ps) ∧ i ∉ strippedFrom n (p :: ps)) p.source =
          p.text := by
      have hBefore : ∀ offsets : Piece → List Nat, ∀ i, i < n + p.source.length →
          (i ∈ positionsFrom offsets n (p :: ps) ↔ i ∈ (offsets p).map (n + ·)) := by
        intro offsets i hi
        rw [positionsFrom, List.mem_append]
        refine or_iff_left fun h => ?_
        have := le_of_mem_positionsFrom h
        omega
      rw [charsFrom_congr (q := fun i =>
        i ∉ p.droppedOffsets.map (n + ·) ∧ i ∉ p.strippedOffsets.map (n + ·))]
      · cases p <;> simp [charsFrom, Piece.droppedOffsets, Piece.strippedOffsets, Piece.source,
          Piece.text, List.zipIdx_cons]
      · intro i _ hi
        exact decide_eq_decide.mpr
          (and_congr (not_congr (hBefore _ i hi)) (not_congr (hBefore _ i hi)))
    rw [sourceOf_cons, charsFrom_append, hHead, hTail, textOf_cons]

/-! ### Events that explain pieces -/

/-- The events hold the text of the pieces, the first of which starts at `n`, and report the
characters that these drop. -/
structure Explains (n : Nat) (ps : List Piece) (es : List Event) : Prop where
  text : es.flatMap Event.chars = textOf ps
  dropped : es.filterMap Event.droppedPosition? = droppedFrom n ps

namespace Explains

theorem nil (n : Nat) : Explains n [] [] := ⟨rfl, rfl⟩

theorem append {n : Nat} {ps qs : List Piece} {es fs : List Event} (h : Explains n ps es)
    (g : Explains (n + (sourceOf ps).length) qs fs) : Explains n (ps ++ qs) (es ++ fs) where
  text := by rw [List.flatMap_append, h.text, g.text, textOf_append]
  dropped := by rw [List.filterMap_append, h.dropped, g.dropped, droppedFrom_append]

/-- A token that holds all the pieces. -/
theorem token {n : Nat} {ps : List Piece} {t : Token} (hText : t.sourceText.toList = textOf ps)
    (hKept : droppedFrom n ps = []) : Explains n ps [.token t] where
  text := by simp [Event.chars, hText]
  dropped := by simp [Event.droppedPosition?, hKept]

/-- A report that leaves no character out. -/
theorem fault {n : Nat} {f : Fault} {position : Nat} (hf : f.dropsChar = false) :
    Explains n [] [.fault f position] where
  text := rfl
  dropped := by simp [Event.fault, Event.droppedPosition?, hf, droppedFrom, positionsFrom]

/-- A report that leaves its character out. -/
theorem drop {n : Nat} {f : Fault} (c : Char) (hf : f.dropsChar = true) :
    Explains n [.dropped c] [.fault f n] where
  text := rfl
  dropped := by
    simp [Event.fault, Event.droppedPosition?, hf, droppedFrom, positionsFrom,
      Piece.droppedOffsets]

end Explains

end Scan

end ShellLexer
