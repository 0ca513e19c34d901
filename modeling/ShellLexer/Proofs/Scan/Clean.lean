import ShellLexer.Proofs.Scan.Transition
import ShellLexer.Proofs.Grammar.Derivation

/-!
# Steps without a report

A list of events is `Clean` if it holds tokens alone.  Inside a parameter
expansion only an operator with no name in front of it is reported, and it can
only be the first character: before it the expansion is `Fresh`, and ever after
it is `Named`, whatever the character was (`Steps.named`, `Steps.clean`).
-/

namespace ShellLexer.Scan

def Event.isToken : Event → Bool
  | token _ => true
  | diagnostic _ => false

/-- Nothing is reported. -/
def Clean (es : List Event) : Prop := ∀ e ∈ es, e.isToken

theorem Clean.nil : Clean [] := fun _ h => absurd h List.not_mem_nil

theorem Clean.cons {e : Event} {es : List Event} (he : e.isToken) (h : Clean es) :
    Clean (e :: es) := List.forall_mem_cons.mpr ⟨he, h⟩

theorem Clean.tail {e : Event} {es : List Event} (h : Clean (e :: es)) : Clean es :=
  (List.forall_mem_cons.mp h).2

theorem Clean.one {e : Event} (he : e.isToken) : Clean [e] := .cons he .nil

theorem clean_append {es fs : List Event} : Clean (es ++ fs) ↔ Clean es ∧ Clean fs :=
  List.forall_mem_append

theorem not_clean_cons_fault {f : Fault} {position : Nat} {es : List Event} :
    ¬ Clean (.fault f position :: es) := by
  intro h
  cases h _ List.mem_cons_self

namespace Parameter

/-- Nothing is read of the parameter expansion. -/
structure Fresh (p : Parameter (List Char)) : Prop where
  text : p.text = []
  hasOperator : p.hasOperator = false
  phase : p.phase = .text

/-- An operator to come misses nothing in front of it. -/
def Named (p : Parameter (List Char)) : Prop :=
  p.hasOperator = true ∨ p.text ≠ [] ∨ p.phase = .backslash

theorem push_text_ne_nil (p : Parameter (List Char)) (c : Char) : (p.push c).text ≠ [] :=
  List.append_ne_nil_of_right_ne_nil _ (List.cons_ne_nil c [])

theorem Fresh.settled {p : Parameter (List Char)} (h : p.Fresh) : p.settled = p := by
  obtain ⟨start, text, hasOperator, phase⟩ := p
  obtain rfl : phase = .text := h.phase
  rfl

theorem Named.settled {p : Parameter (List Char)} (h : p.Named) :
    p.settled.hasOperator = true ∨ p.settled.text ≠ [] := by
  obtain ⟨start, text, hasOperator, phase⟩ := p
  cases phase with
  | backslash => exact Or.inr (push_text_ne_nil _ '\\')
  | text | colon | trim =>
    rcases h with h | h | h
    · exact Or.inl h
    · exact Or.inr h
    · contradiction

theorem clean_nameEvent {text : List Char} (h : text ≠ []) (position : Nat) :
    (nameEvent text position).isToken := by
  have hEmpty : TextBuffer.isEmpty text = false := by simpa [TextBuffer.isEmpty] using h
  rw [nameEvent, hEmpty]
  rfl

theorem clean_optionalName (text : List Char) : Clean (optionalName text) := by
  unfold optionalName
  split
  · exact .nil
  · exact .one rfl

theorem mem_of_choiceOperator? {c : Char} {o : Punctuation} (h : choiceOperator? c = some o) :
    c ∈ ['+', '-', '=', '?'] := by
  unfold choiceOperator? at h
  repeat' split at h
  all_goals simp_all

theorem choiceOperator?_ne_none {c : Char} (h : c ∈ ['+', '-', '=', '?']) :
    choiceOperator? c ≠ none := by
  simp only [List.mem_cons, List.not_mem_nil, or_false] at h
  obtain rfl | rfl | rfl | rfl := h
  all_goals decide

theorem mem_namedOperators_of_choiceOperator? {c : Char} {o : Punctuation}
    (h : choiceOperator? c = some o) : c ∈ Grammar.namedOperators :=
  List.mem_cons_of_mem ':' (mem_of_choiceOperator? h)

theorem eq_of_trimOperator? {c : Char} {o : Punctuation} (h : trimOperator? c = some o) :
    (c = '#' ∧ o = .hash) ∨ (c = '%' ∧ o = .percent) := by
  unfold trimOperator? at h
  repeat' split at h
  all_goals simp_all

section Steps

variable {p p' : Parameter (List Char)} {next : Option (Parameter (List Char))} {position : Nat}
variable {c : Char} {es : List Event}

/-- Only a brace closes the expansion, and it always does. -/
theorem Reads.eq_none_iff (h : Parameter.Reads position p c next es) : next = none ↔ c = '}' := by
  cases h with
  | close => exact ⟨fun _ => rfl, fun _ => rfl⟩
  | backslash => exact ⟨nofun, fun hc => absurd hc (by decide)⟩
  | collect hBrace => exact ⟨nofun, fun hc => absurd hc hBrace⟩
  | colon => exact ⟨nofun, fun hc => absurd hc (by decide)⟩
  | choice _ hOperator =>
    refine ⟨nofun, ?_⟩
    rintro rfl
    cases hOperator
  | trim _ hOperator =>
    refine ⟨nofun, ?_⟩
    rintro rfl
    cases hOperator

theorem Steps.eq_none_iff (h : Parameter.Steps position p c next es) : next = none ↔ c = '}' := by
  cases h with
  | read hReads => exact hReads.eq_none_iff
  | escaped => exact ⟨nofun, fun hc => absurd hc (by decide)⟩
  | afterColon _ hOperator =>
    refine ⟨nofun, ?_⟩
    rintro rfl
    cases hOperator
  | twice _ hOperator =>
    refine ⟨nofun, ?_⟩
    rintro rfl
    cases hOperator

theorem Steps.eq_brace (h : Parameter.Steps position p c none es) : c = '}' :=
  h.eq_none_iff.mp rfl

theorem Steps.ne_brace (h : Parameter.Steps position p c (some p') es) : c ≠ '}' :=
  fun hc => nomatch h.eq_none_iff.mpr hc

/-! ### Names -/

theorem Reads.named (h : Parameter.Reads position p c (some p') es) : p'.Named := by
  cases h with
  | backslash => exact Or.inr (Or.inr rfl)
  | collect => exact Or.inr (Or.inl (p.push_text_ne_nil c))
  | colon | choice | trim => exact Or.inl rfl

/-- Behind its first character an expansion is named, and stays so. -/
theorem Steps.named (h : Parameter.Steps position p c (some p') es) (hp : p.Fresh ∨ p.Named) :
    p'.Named := by
  have hKept : p.phase ≠ .text → p.phase ≠ .backslash → p.hasOperator = true ∨ p.text ≠ [] := by
    intro hText hBackslash
    rcases hp with hFresh | hOperator | hName | hPhase
    · exact absurd hFresh.phase hText
    · exact Or.inl hOperator
    · exact Or.inr hName
    · exact absurd hPhase hBackslash
  cases h with
  | read hReads => exact hReads.named
  | escaped => exact Or.inr (Or.inl (p.push_text_ne_nil '{'))
  | afterColon hPhase => exact (hKept (by simp [hPhase]) (by simp [hPhase])).imp_right Or.inl
  | twice hPhase => exact (hKept (by simp [hPhase]) (by simp [hPhase])).imp_right Or.inl

/-! ### Reports -/

theorem Reads.clean (h : Parameter.Reads position p c next es)
    (hp : p.hasOperator = true ∨ p.text ≠ [] ∨ c ∉ Grammar.namedOperators) : Clean es := by
  have hName : p.hasOperator = false → c ∈ Grammar.namedOperators →
      (nameEvent p.text position).isToken := by
    intro hFirst hc
    rcases hp with hOperator | hText | hNot
    · rw [hFirst] at hOperator
      contradiction
    · exact clean_nameEvent hText position
    · exact absurd hc hNot
  cases h with
  | close => exact .cons rfl (.one rfl)
  | backslash | collect => exact .nil
  | colon hFirst => exact .cons (hName hFirst (by decide)) (.one rfl)
  | choice hFirst hOperator =>
    exact .cons (hName hFirst (mem_namedOperators_of_choiceOperator? hOperator)) (.one rfl)
  | trim => exact clean_append.mpr ⟨clean_optionalName p.text, .one rfl⟩

/-- A report is only made of an operator with nothing in front of it. -/
theorem Steps.clean (h : Parameter.Steps position p c next es)
    (hp : p.Named ∨ c ∉ Grammar.namedOperators) : Clean es := by
  cases h with
  | escaped => exact .nil
  | afterColon | twice => exact .one rfl
  | read hReads =>
    refine hReads.clean ?_
    rcases hp with hNamed | hc
    · rcases hNamed.settled with hOperator | hText
      · exact Or.inl hOperator
      · exact Or.inr (Or.inl hText)
    · exact Or.inr (Or.inr hc)

/-- The first character is reported if it is an operator that must have a name in front. -/
theorem Steps.not_mem_namedOperators (h : Parameter.Steps position p c next es) (hp : p.Fresh)
    (hClean : Clean es) : c ∉ Grammar.namedOperators := by
  have hMissing : ∀ es, ¬ Clean (nameEvent p.text position :: es) := by
    intro es
    rw [hp.text]
    exact not_clean_cons_fault
  cases h with
  | escaped hPhase | afterColon hPhase | twice hPhase =>
    rw [hp.phase] at hPhase
    contradiction
  | read hReads =>
    rw [hp.settled] at hReads
    cases hReads with
    | close | backslash => decide
    | collect _ _ hPlain =>
      rcases hPlain with hOperator | ⟨hColon, hChoice, -⟩
      · rw [hp.hasOperator] at hOperator
        contradiction
      · intro hc
        rcases List.mem_cons.mp hc with hc | hc
        · exact hColon hc
        · exact choiceOperator?_ne_none hc hChoice
    | colon => exact absurd hClean (hMissing _)
    | choice => exact absurd hClean (hMissing _)
    | trim _ hOperator =>
      rcases eq_of_trimOperator? hOperator with ⟨rfl, -⟩ | ⟨rfl, -⟩
      all_goals decide

end Steps

end Parameter

end ShellLexer.Scan
