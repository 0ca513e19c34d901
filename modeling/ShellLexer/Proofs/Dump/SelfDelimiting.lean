import Mathlib.Data.List.Nodup

/-!
# Written forms that end by themselves

Values that are written one behind the other can be told apart if each written
form shows where it ends: whatever comes behind it, the value and the rest are
determined by the whole (`SelfDelimiting`).

* `SelfDelimiting.flatMap_injective`: a list of such forms, one behind the
  other, determines the list of their values.
* `SelfDelimiting.flatMap_concat`, `SelfDelimiting.intercalate_concat`: with an
  element behind it that begins none of the forms, such a list ends by itself,
  and so does one with separators.
* `toDigits_injective`, `not_mem_toDigits`: a number is determined by its digits,
  and ends in front of any other character.
* `EscapeRules`: what stands for a character between double quotes, given by a
  table of letters and by numeric codes.  A text written by such rules ends by
  itself at its closing quote (`EscapeRules.WritesText.append_quote_inj`).
-/

namespace ShellLexer

/-- What is written for a value determines the value and its own end, whatever comes behind. -/
def SelfDelimiting {α β : Type} (write : α → List β) : Prop :=
  ∀ ⦃a b : α⦄ ⦃s t : List β⦄, write a ++ s = write b ++ t → a = b ∧ s = t

/-- A list begins, and not with `stop`. -/
def BeginsUnlike {β : Type} (stop : β) (x : List β) : Prop :=
  ∃ y ys, x = y :: ys ∧ y ≠ stop

theorem BeginsUnlike.append_ne {β : Type} {stop : β} {x : List β} (h : BeginsUnlike stop x)
    (s t : List β) : x ++ s ≠ stop :: t := by
  obtain ⟨y, ys, rfl, hy⟩ := h
  intro hEq
  exact hy (List.cons.inj hEq).1

/-- Where the fronts do not have it, the first `stop` marks their end. -/
theorem append_cons_inj_of_not_mem {β : Type} {stop : β} {x y s t : List β} (hx : stop ∉ x)
    (hy : stop ∉ y) (h : x ++ stop :: s = y ++ stop :: t) : x = y ∧ s = t := by
  rcases List.append_eq_append_iff.mp h with ⟨z, hz, hs⟩ | ⟨z, hz, ht⟩
  · cases z with
    | nil => exact ⟨by simpa using hz.symm, (List.cons.inj hs).2⟩
    | cons c z =>
      obtain rfl := (List.cons.inj hs).1
      exact absurd (hz ▸ List.mem_append_right x List.mem_cons_self) hy
  · cases z with
    | nil => exact ⟨by simpa using hz, (List.cons.inj ht).2.symm⟩
    | cons c z =>
      obtain rfl := (List.cons.inj ht).1
      exact absurd (hz ▸ List.mem_append_right y List.mem_cons_self) hx

theorem intercalate_cons_eq_flatMap {β : Type} (separator : β) (x : List β) (xs : List (List β)) :
    [separator].intercalate (x :: xs) = x ++ xs.flatMap (separator :: ·) := by
  induction xs generalizing x with
  | nil => simp
  | cons y ys ih => rw [List.intercalate_cons_cons, ih, List.flatMap_cons, List.append_assoc]; rfl

namespace SelfDelimiting

variable {α β γ : Type} {write : α → List β}

theorem injective (h : SelfDelimiting write) : Function.Injective write := by
  intro a b hab
  have hEnd : write a ++ [] = write b ++ [] := congrArg (· ++ []) hab
  exact (h hEnd).1

/-- A value that another one determines is written by writing the other. -/
theorem comp (h : SelfDelimiting write) {f : γ → α} (hf : Function.Injective f) :
    SelfDelimiting (write ∘ f) := by
  intro a b s t hab
  obtain ⟨hValue, hRest⟩ := h hab
  exact ⟨hf hValue, hRest⟩

/-- Something fixed may stand in front of each form. -/
theorem cons (h : SelfDelimiting write) (x : β) : SelfDelimiting fun a => x :: write a := by
  intro a b s t hab
  exact h (List.cons.inj hab).2

theorem flatMap_injective (h : SelfDelimiting write) (hNe : ∀ a, write a ≠ []) :
    Function.Injective fun as : List α => as.flatMap write := by
  intro as
  induction as with
  | nil =>
    intro bs hab
    cases bs with
    | nil => rfl
    | cons b bs => exact absurd (List.append_eq_nil_iff.mp hab.symm).1 (hNe b)
  | cons a as ih =>
    intro bs hab
    cases bs with
    | nil => exact absurd (List.append_eq_nil_iff.mp hab).1 (hNe a)
    | cons b bs =>
      obtain ⟨rfl, hRest⟩ := h hab
      rw [ih hRest]

section Stop

variable {stop : β} (h : SelfDelimiting write) (hFirst : ∀ a, BeginsUnlike stop (write a))
include h hFirst

/-- A list of forms ends by itself at an element that begins none of them. -/
theorem flatMap_concat : SelfDelimiting fun as : List α => as.flatMap write ++ [stop] := by
  intro as
  induction as with
  | nil =>
    intro bs s t hab
    cases bs with
    | nil => exact ⟨rfl, (List.cons.inj hab).2⟩
    | cons b bs =>
      simp only [List.flatMap_cons, List.append_assoc] at hab
      exact absurd hab.symm ((hFirst b).append_ne _ _)
  | cons a as ih =>
    intro bs s t hab
    simp only [List.flatMap_cons, List.append_assoc] at hab
    cases bs with
    | nil => exact absurd hab ((hFirst a).append_ne _ _)
    | cons b bs =>
      rw [List.flatMap_cons, List.append_assoc] at hab
      obtain ⟨rfl, hRest⟩ := h hab
      rw [← List.append_assoc, ← List.append_assoc] at hRest
      obtain ⟨rfl, hBehind⟩ := ih hRest
      exact ⟨rfl, hBehind⟩

/-- A list of forms with a separator between them ends by itself as well. -/
theorem intercalate_concat (separator : β) (hSeparator : separator ≠ stop) :
    SelfDelimiting fun as : List α => [separator].intercalate (as.map write) ++ [stop] := by
  have hMore := (h.cons separator).flatMap_concat fun a => ⟨separator, write a, rfl, hSeparator⟩
  intro as bs s t hab
  cases as with
  | nil =>
    cases bs with
    | nil => exact ⟨rfl, (List.cons.inj hab).2⟩
    | cons b bs =>
      simp only [List.map_cons, intercalate_cons_eq_flatMap, List.append_assoc] at hab
      exact absurd hab.symm ((hFirst b).append_ne _ _)
  | cons a as =>
    simp only [List.map_cons, intercalate_cons_eq_flatMap, List.append_assoc] at hab
    cases bs with
    | nil => exact absurd hab ((hFirst a).append_ne _ _)
    | cons b bs =>
      simp only [List.map_cons, intercalate_cons_eq_flatMap, List.append_assoc] at hab
      obtain ⟨rfl, hRest⟩ := h hab
      rw [← List.append_assoc, ← List.append_assoc, List.flatMap_map, List.flatMap_map] at hRest
      obtain ⟨rfl, hBehind⟩ := hMore hRest
      exact ⟨rfl, hBehind⟩

end Stop

end SelfDelimiting

/-! ## Numbers in digits -/

theorem digitChar_inj {m n : Nat} (hm : m < 16) (hn : n < 16)
    (h : Nat.digitChar m = Nat.digitChar n) : m = n := by
  have hAll : ∀ m < 16, ∀ n < 16, Nat.digitChar m = Nat.digitChar n → m = n := by decide
  exact hAll m hm n hn h

/-- Up to hexadecimal, a number is determined by its digits. -/
theorem toDigits_injective {b : Nat} (hb : 1 < b) (hb' : b ≤ 16) :
    Function.Injective (Nat.toDigits b) := by
  have hOne : ∀ n, (Nat.toDigits b n).length ≤ 1 ↔ n < b := by
    intro n
    simpa using Nat.length_toDigits_le_iff (n := n) hb Nat.one_pos
  intro m
  induction m using Nat.strongRecOn with
  | ind m ih =>
    intro n h
    have hSmall : m < b ↔ n < b := by rw [← hOne, ← hOne, h]
    by_cases hm : m < b
    · have hn := hSmall.mp hm
      rw [Nat.toDigits_of_lt_base hm, Nat.toDigits_of_lt_base hn] at h
      exact digitChar_inj (by omega) (by omega) (List.cons.inj h).1
    · have hn := mt hSmall.mpr hm
      rw [Nat.toDigits_of_base_le hb (Nat.le_of_not_lt hm),
        Nat.toDigits_of_base_le hb (Nat.le_of_not_lt hn)] at h
      obtain ⟨hFront, hLast⟩ := List.append_inj' h rfl
      have hDigit : ∀ k, k % b < 16 := fun k => Nat.lt_of_lt_of_le (Nat.mod_lt k (by omega)) hb'
      have hDiv : m / b = n / b := ih _ (Nat.div_lt_self (by omega) hb) hFront
      have hMod : m % b = n % b := digitChar_inj (hDigit m) (hDigit n) (List.cons.inj hLast).1
      rw [← Nat.div_add_mod m b, hDiv, hMod, Nat.div_add_mod]

theorem not_mem_toDigits {b : Nat} (hb : 1 < b) {c : Char} (hc : ∀ k < b, Nat.digitChar k ≠ c)
    (n : Nat) : c ∉ Nat.toDigits b n := by
  have hDigit : ∀ k < b, c ∉ [Nat.digitChar k] := by
    intro k hk
    exact List.not_mem_cons_of_ne_of_not_mem (hc k hk).symm List.not_mem_nil
  induction n using Nat.base_induction b hb with
  | single n hn =>
    rw [Nat.toDigits_of_lt_base hn]
    exact hDigit n hn
  | digit n k hk hn ih =>
    rw [← Nat.toDigits_append_toDigits hb hn hk, Nat.toDigits_of_lt_base hk]
    exact List.not_mem_append ih (hDigit k hk)

/-! ## Escapes -/

/-- How characters are escaped between double quotes: some by a letter behind a backslash, and
some by a code behind a backslash and a `u`. -/
structure EscapeRules where
  /-- The letters, each with the character it stands for. -/
  letters : List (Char × Char)
  code : Char → List Char
  /-- Whether the code of a character is in use. -/
  IsCoded : Char → Prop
  letters_nodup : (letters.map Prod.fst).Nodup
  u_not_mem : 'u' ∉ letters.map Prod.fst
  code_append_inj : ∀ {c d : Char} {s t : List Char}, IsCoded c → IsCoded d →
    code c ++ s = code d ++ t → c = d ∧ s = t

namespace EscapeRules

variable {rules : EscapeRules}

theorem eq_of_letter {l c d : Char} (hc : (l, c) ∈ rules.letters) (hd : (l, d) ∈ rules.letters) :
    c = d :=
  congrArg Prod.snd (List.inj_on_of_nodup_map rules.letters_nodup hc hd rfl)

theorem letter_ne {l c : Char} (h : (l, c) ∈ rules.letters) : l ≠ 'u' := by
  rintro rfl
  exact rules.u_not_mem (List.mem_map_of_mem h)

/-- What may stand for a character. -/
inductive Writes (rules : EscapeRules) (c : Char) : List Char → Prop
  | raw : c ≠ '\\' → c ≠ '"' → Writes rules c [c]
  | letter {l : Char} : (l, c) ∈ rules.letters → Writes rules c ['\\', l]
  | code : rules.IsCoded c → Writes rules c ('\\' :: 'u' :: rules.code c)

/-- What may stand for a text: something for each of its characters. -/
inductive WritesText (rules : EscapeRules) : List Char → List Char → Prop
  | nil : WritesText rules [] []
  | cons {c : Char} {cs x xs : List Char} : rules.Writes c x → WritesText rules cs xs →
      WritesText rules (c :: cs) (x ++ xs)

theorem Writes.of_letter {l c d : Char} (hc : (c == d) = true) (h : (l, d) ∈ rules.letters) :
    rules.Writes c ['\\', l] := by
  rw [beq_iff_eq.mp hc]
  exact .letter h

/-- No character is written so that it looks like the closing quote. -/
theorem Writes.beginsUnlike_quote {c : Char} {x : List Char} (h : rules.Writes c x) :
    BeginsUnlike '"' x := by
  cases h with
  | raw _ hQuote => exact ⟨c, [], rfl, hQuote⟩
  | letter => exact ⟨'\\', _, rfl, by decide⟩
  | code => exact ⟨'\\', _, rfl, by decide⟩

/-- **What stands for a character determines it**, in whichever of the ways it is written. -/
theorem Writes.append_inj {c d : Char} {x y s t : List Char} (hc : rules.Writes c x)
    (hd : rules.Writes d y) (h : x ++ s = y ++ t) : c = d ∧ s = t := by
  cases hc with
  | raw hSlash =>
    cases hd with
    | raw => exact List.cons.inj h
    | letter => exact absurd (List.cons.inj h).1 hSlash
    | code => exact absurd (List.cons.inj h).1 hSlash
  | letter hLetter =>
    cases hd with
    | raw hSlash => exact absurd (List.cons.inj h).1.symm hSlash
    | letter hOther =>
      obtain ⟨-, hRest⟩ := List.cons.inj h
      obtain ⟨rfl, hBehind⟩ := List.cons.inj hRest
      exact ⟨eq_of_letter hLetter hOther, hBehind⟩
    | code =>
      obtain ⟨-, hRest⟩ := List.cons.inj h
      exact absurd (List.cons.inj hRest).1 (letter_ne hLetter)
  | code hCoded =>
    cases hd with
    | raw hSlash => exact absurd (List.cons.inj h).1.symm hSlash
    | letter hOther =>
      obtain ⟨-, hRest⟩ := List.cons.inj h
      exact absurd (List.cons.inj hRest).1.symm (letter_ne hOther)
    | code hOther =>
      obtain ⟨-, hRest⟩ := List.cons.inj h
      exact rules.code_append_inj hCoded hOther (List.cons.inj hRest).2

/-- **A written text ends by itself** at its closing quote. -/
theorem WritesText.append_quote_inj {cs ds x y s t : List Char} (hc : rules.WritesText cs x)
    (hd : rules.WritesText ds y) (h : x ++ '"' :: s = y ++ '"' :: t) : cs = ds ∧ s = t := by
  induction hc generalizing ds y with
  | nil =>
    cases hd with
    | nil => exact ⟨rfl, (List.cons.inj h).2⟩
    | cons hFirst =>
      rw [List.append_assoc] at h
      exact absurd h.symm (hFirst.beginsUnlike_quote.append_ne _ _)
  | cons hFirst _ ih =>
    rw [List.append_assoc] at h
    cases hd with
    | nil => exact absurd h (hFirst.beginsUnlike_quote.append_ne _ _)
    | cons hOther hTexts =>
      rw [List.append_assoc] at h
      obtain ⟨rfl, hRest⟩ := hFirst.append_inj hOther h
      obtain ⟨rfl, hBehind⟩ := ih hTexts hRest
      exact ⟨rfl, hBehind⟩

/-- A text is written by writing each of its characters. -/
theorem writesText_flatMap {write : Char → List Char} (h : ∀ c, rules.Writes c (write c))
    (cs : List Char) : rules.WritesText cs (cs.flatMap write) := by
  induction cs with
  | nil => exact .nil
  | cons c cs ih => exact .cons (h c) ih

end EscapeRules

end ShellLexer
