import ShellLexer.Scan.Outside
import Mathlib.Data.Bool.AllAny
import Mathlib.Tactic.ByContra

/-!
# What is a token outside quotes

`Token.ofChars?` says which characters are a token all together: a newline, a
run of blanks, a run of name characters, or the spelling of an operator
(`Punctuation.ofChars?`).  It knows nothing of a scan.

* `Token.ofChars?_eq_none`: characters of different classes are no token.
* `Punctuation.ofChars?_cons_cons_eq_none` and the lemmas behind it: where an
  operator ends.
-/

namespace ShellLexer

variable {c d e : Char} {cs : List Char}

theorem not_isNameChar_of_isWhitespace (h : isWhitespace c) : ¬ isNameChar c := by
  simp only [isWhitespace, isBlank, Bool.or_eq_true, beq_iff_eq] at h
  obtain ((rfl | rfl) | rfl) | rfl := h
  all_goals decide

theorem isWhitespace_of_isBlank (h : isBlank c) : isWhitespace c := by simp [isWhitespace, h]

theorem not_class_of_isShellPunctuation (h : isShellPunctuation c) :
    ¬ isWhitespace c ∧ ¬ isNameChar c := by
  have hAll : ∀ d ∈ shellPunctuation.toList, ¬ isWhitespace d ∧ ¬ isNameChar d :=
    List.all_iff_forall_prop.mp (by decide)
  exact hAll c (by simpa [isShellPunctuation, isOneOf] using h)

theorem isShellPunctuation_of_ofChar? {p : Punctuation} (h : Punctuation.ofChar? c = some p) :
    isShellPunctuation c := by
  have hAll : ∀ p ∈ Punctuation.singles, p.chars.all isShellPunctuation := by decide
  refine List.all_eq_true.mp (hAll p (List.mem_of_find?_eq_some h)) c ?_
  rw [Punctuation.chars_of_ofChar? h]
  exact List.mem_singleton_self c

namespace Punctuation

/-- The operators that are read outside quotes: all those of one or two characters, and `<<-`. -/
def operators : List Punctuation := singles ++ pairs ++ [doubleLessDash]

/-- The operator that is spelled exactly `cs`. -/
def ofChars? (cs : List Char) : Option Punctuation := operators.find? (·.chars == cs)

theorem find?_eq_none_of_length {ps : List Punctuation} {n : Nat}
    (hAll : ∀ p ∈ ps, p.chars.length = n) (h : cs.length ≠ n) :
    ps.find? (·.chars == cs) = none := by
  rw [List.find?_eq_none]
  intro p hp hEq
  rw [← beq_iff_eq.mp hEq] at h
  exact h (hAll p hp)

theorem length_chars_of_mem_singles : ∀ p ∈ singles, p.chars.length = 1 := by decide

theorem length_chars_of_mem_pairs : ∀ p ∈ pairs, p.chars.length = 2 := by decide

theorem length_chars_of_mem_doubleLessDash : ∀ p ∈ [doubleLessDash], p.chars.length = 3 := by
  decide

theorem ofChars?_one (c : Char) : ofChars? [c] = ofChar? c := by
  have hPairs : pairs.find? (·.chars == [c]) = none :=
    find?_eq_none_of_length length_chars_of_mem_pairs (by simp)
  have hDash : [doubleLessDash].find? (·.chars == [c]) = none :=
    find?_eq_none_of_length length_chars_of_mem_doubleLessDash (by simp)
  rw [ofChars?, operators, List.find?_append, List.find?_append, hPairs, hDash, Option.or_none,
    Option.or_none]
  rfl

theorem ofChars?_two (c d : Char) : ofChars? [c, d] = ofPair? c d := by
  have hSingles : singles.find? (·.chars == [c, d]) = none :=
    find?_eq_none_of_length length_chars_of_mem_singles (by simp)
  have hDash : [doubleLessDash].find? (·.chars == [c, d]) = none :=
    find?_eq_none_of_length length_chars_of_mem_doubleLessDash (by simp)
  rw [ofChars?, operators, List.find?_append, List.find?_append, hSingles, hDash, Option.none_or,
    Option.or_none]
  rfl

/-- There is one operator of three characters, and none that is longer. -/
theorem ofChars?_three (c d e : Char) (cs : List Char) :
    ofChars? (c :: d :: e :: cs) =
      if ['<', '<', '-'] = c :: d :: e :: cs then some doubleLessDash else none := by
  have hSingles : singles.find? (·.chars == c :: d :: e :: cs) = none :=
    find?_eq_none_of_length length_chars_of_mem_singles (by simp)
  have hPairs : pairs.find? (·.chars == c :: d :: e :: cs) = none :=
    find?_eq_none_of_length length_chars_of_mem_pairs (by simp)
  rw [ofChars?, operators, List.find?_append, List.find?_append, hSingles, hPairs, Option.none_or,
    Option.none_or, List.find?_singleton]
  simp only [chars, beq_iff_eq]

/-- Two characters that are no operator do not begin one. -/
theorem ofChars?_cons_cons_eq_none (h : ofPair? c d = none) (cs : List Char) :
    ofChars? (c :: d :: cs) = none := by
  cases cs with
  | nil => rw [ofChars?_two, h]
  | cons e cs =>
    rw [ofChars?_three, if_neg]
    intro hEq
    obtain ⟨rfl, rfl, -⟩ : '<' = c ∧ '<' = d ∧ _ := by simpa using hEq
    exact absurd h (by decide)

/-- A character that is no operator does not begin one. -/
theorem ofChars?_cons_eq_none (h : ofChar? c = none) (cs : List Char) :
    ofChars? (c :: cs) = none := by
  cases cs with
  | nil => rw [ofChars?_one, h]
  | cons d cs =>
    refine ofChars?_cons_cons_eq_none ?_ cs
    by_contra hPair
    obtain ⟨p, hp⟩ := Option.ne_none_iff_exists'.mp hPair
    have hSome := (isSome_ofChar?_of_ofPair? hp).1
    rw [h] at hSome
    contradiction

/-- Only `<<` goes on behind its second character. -/
theorem ofChars?_pair_cons {p : Punctuation} (h : ofPair? c d = some p) (hLongest : p ≠ doubleLess)
    (e : Char) (cs : List Char) : ofChars? (c :: d :: e :: cs) = none := by
  rw [ofChars?_three, if_neg]
  intro hEq
  obtain ⟨rfl, rfl, -⟩ : '<' = c ∧ '<' = d ∧ _ := by simpa using hEq
  exact hLongest (Option.some.inj h).symm

theorem ofChars?_doubleLess_cons (h : e ≠ '-') (cs : List Char) :
    ofChars? ('<' :: '<' :: e :: cs) = none := by
  rw [ofChars?_three, if_neg]
  intro hEq
  obtain ⟨rfl, -⟩ : '-' = e ∧ _ := by simpa using hEq
  exact h rfl

theorem ofChars?_doubleLessDash_cons (e : Char) (cs : List Char) :
    ofChars? ('<' :: '<' :: '-' :: e :: cs) = none := by
  rw [ofChars?_three, if_neg]
  simp

/-- Blanks, newlines and name characters are in no operator. -/
theorem ofChars?_eq_none_of_mem (hc : c ∈ cs) (h : isWhitespace c ∨ isNameChar c) :
    ofChars? cs = none := by
  have hAll : ∀ p ∈ operators, p.chars.all fun d => ¬ (isWhitespace d ∨ isNameChar d) := by decide
  refine List.find?_eq_none.mpr ?_
  intro p hp hEq
  rw [← beq_iff_eq.mp hEq] at hc
  exact List.all_iff_forall_prop.mp (hAll p hp) c hc h

end Punctuation

namespace Token

/-- The token that the characters are all together. -/
def ofChars? (cs : List Char) : Option Token :=
  if cs = [] then none
  else if cs = ['\n'] then some newline
  else if cs.all isBlank then some ⟨.whitespace, String.ofList cs⟩
  else if cs.all isNameChar then
    some (if cs.head?.any isDigit then ⟨.word, String.ofList cs⟩ else ofName (String.ofList cs))
  else (Punctuation.ofChars? cs).map punctuation

/-- Characters that are not all blanks, not all name characters and not all of an operator. -/
theorem ofChars?_eq_none (hNewline : cs ≠ ['\n']) (hBlanks : ∃ d ∈ cs, ¬ isBlank d)
    (hNames : ∃ d ∈ cs, ¬ isNameChar d) (hOperator : ∃ d ∈ cs, isWhitespace d ∨ isNameChar d) :
    ofChars? cs = none := by
  obtain ⟨c, hc, hClass⟩ := hOperator
  have hNotBlanks : ¬ cs.all isBlank := by simpa using hBlanks
  have hNotNames : ¬ cs.all isNameChar := by simpa using hNames
  rw [ofChars?, if_neg (List.ne_nil_of_mem hc), if_neg hNewline, if_neg hNotBlanks,
    if_neg hNotNames, Punctuation.ofChars?_eq_none_of_mem hc hClass]
  rfl

theorem ofChars?_blanks (hNe : cs ≠ []) (hAll : ∀ d ∈ cs, isBlank d) :
    ofChars? cs = some ⟨.whitespace, String.ofList cs⟩ := by
  have hNewline : cs ≠ ['\n'] := by
    rintro rfl
    exact absurd (hAll '\n' List.mem_cons_self) (by decide)
  rw [ofChars?, if_neg hNe, if_neg hNewline, if_pos (List.all_eq_true.mpr hAll)]

theorem ofChars?_word (hNe : cs ≠ []) (hAll : ∀ d ∈ cs, isNameChar d) :
    ofChars? cs = some (Scan.wordToken cs) := by
  obtain ⟨c, hc⟩ := List.exists_mem_of_ne_nil cs hNe
  have hWhite : ¬ isWhitespace c := fun h => not_isNameChar_of_isWhitespace h (hAll c hc)
  have hNewline : cs ≠ ['\n'] := by
    rintro rfl
    exact absurd (hAll '\n' List.mem_cons_self) (by decide)
  have hBlanks : ¬ cs.all isBlank := by
    intro h
    exact hWhite (isWhitespace_of_isBlank (List.all_eq_true.mp h c hc))
  rw [ofChars?, if_neg hNe, if_neg hNewline, if_neg hBlanks, if_pos (List.all_eq_true.mpr hAll)]
  rfl

/-- Behind its first character, punctuation can only be an operator. -/
theorem ofChars?_cons (hWhite : ¬ isWhitespace c) (hName : ¬ isNameChar c) (cs : List Char) :
    ofChars? (c :: cs) = (Punctuation.ofChars? (c :: cs)).map punctuation := by
  have hNewline : c :: cs ≠ ['\n'] := by
    intro h
    obtain ⟨rfl, -⟩ := List.cons.inj h
    exact hWhite (by decide)
  have hBlanks : ¬ (c :: cs).all isBlank := fun h =>
    hWhite (isWhitespace_of_isBlank (List.all_eq_true.mp h c List.mem_cons_self))
  have hNames : ¬ (c :: cs).all isNameChar := fun h =>
    hName (List.all_eq_true.mp h c List.mem_cons_self)
  rw [ofChars?, if_neg (List.cons_ne_nil c cs), if_neg hNewline, if_neg hBlanks, if_neg hNames]

theorem ofChars?_cons_eq_some {p : Punctuation} (hWhite : ¬ isWhitespace c)
    (hName : ¬ isNameChar c) (h : Punctuation.ofChars? (c :: cs) = some p) :
    ofChars? (c :: cs) = some (punctuation p) := by
  rw [ofChars?_cons hWhite hName, h]
  rfl

theorem ofChars?_cons_eq_none (hWhite : ¬ isWhitespace c) (hName : ¬ isNameChar c)
    (h : Punctuation.ofChars? (c :: cs) = none) : ofChars? (c :: cs) = none := by
  rw [ofChars?_cons hWhite hName, h]
  rfl

/-- The kinds of tokens there are. -/
theorem eq_of_ofChars? {t : Token} (h : ofChars? cs = some t) :
    (cs = ['\n'] ∧ t = newline) ∨ t = ⟨.whitespace, String.ofList cs⟩ ∨
      t = Scan.wordToken cs ∨ ∃ p, t = punctuation p := by
  unfold ofChars? at h
  split at h
  · cases h
  split at h
  · rename_i hNewline
    exact Or.inl ⟨hNewline, (Option.some.inj h).symm⟩
  split at h
  · exact Or.inr (Or.inl (Option.some.inj h).symm)
  split at h
  · exact Or.inr (Or.inr (Or.inl (Option.some.inj h).symm))
  · obtain ⟨p, -, rfl⟩ := Option.map_eq_some_iff.mp h
    exact Or.inr (Or.inr (Or.inr ⟨p, rfl⟩))

end Token

end ShellLexer
