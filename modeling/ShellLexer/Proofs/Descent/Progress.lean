import ShellLexer.Proofs.Descent.Moves
import Mathlib.Tactic.SplitIfs

/-!
# Every procedure makes progress

What one step keeps, whole procedures keep.  The characters that are left bound
their evaluation: they grow fewer with every step but a call from between two
steps, and the procedure that is called reads one itself.

* `Standing.exists_runs`: from every point where control can stand, it returns.
* `Runs.functional`: there is one way to do so.
* `Standing.exists_returns`: what a call keeps.
* `Reached.standing`: control stands as it should wherever it comes to.
-/

namespace ShellLexer.Descent

variable {text : List Char} {limit : Option Nat} {p : Point} {c : Cursor}

/-! ## Whole procedures -/

/-- What is so when control has returned from a point with `c` to a caller with `c'`. -/
structure Kept (text : List Char) (p : Point) (c c' : Cursor) : Prop where
  leads : Leads text p.least c c'
  depth_eq : c'.depth = p.depthBehind c.depth

namespace Standing

variable {p' : Point} {c₁ c₂ : Cursor} {s : Procedure} {back : Point}

theorem leads_of_goes (h : Standing text limit p c) (hStep : step text limit p c = .goes p' c₁) :
    Leads text 1 c c₁ := by
  cases h.moves_of_eq hStep with
  | goes hLeads => exact hLeads

theorem leads_of_call (h : Standing text limit p c)
    (hStep : step text limit p c = .calls s c₁ back) : Leads text p.least c c₁ := by
  cases h.moves_of_eq hStep with
  | calls hLeads => exact hLeads

theorem of_goes (h : Standing text limit p c) (hStep : step text limit p c = .goes p' c₁) :
    Standing text limit p' c₁ := by
  cases h.moves_of_eq hStep with
  | goes hLeads _ hAllowed hReady => exact ⟨hLeads.within h.position_le, hAllowed, hReady⟩

theorem of_call (h : Standing text limit p c) (hStep : step text limit p c = .calls s c₁ back) :
    Standing text limit (.call s) c₁ := by
  cases h.moves_of_eq hStep with
  | calls hLeads _ hAllowed hCurrent hStarts =>
    exact ⟨hLeads.within h.position_le, hAllowed, _, hCurrent, hStarts⟩

theorem of_back (h : Standing text limit p c) (hStep : step text limit p c = .calls s c₁ back)
    (hKept : Kept text (.call s) c₁ c₂) : Standing text limit back c₂ := by
  have hCall := h.of_call hStep
  cases h.moves_of_eq hStep with
  | calls _ _ hAllowed _ _ hReady =>
    refine ⟨hKept.leads.within hCall.position_le, ?_, hReady c₂⟩
    rw [hKept.depth_eq]
    exact hAllowed

end Standing

namespace Kept

variable {p' : Point} {c₁ c₂ c' : Cursor} {s : Procedure} {back : Point}

theorem of_returns (h : Standing text limit p c) (hStep : step text limit p c = .returns c') :
    Kept text p c c' := by
  cases h.moves_of_eq hStep with
  | returns hLeads hDepth => exact ⟨hLeads, hDepth⟩

theorem of_goes (h : Standing text limit p c) (hStep : step text limit p c = .goes p' c₁)
    (hRest : Kept text p' c₁ c') : Kept text p c c' := by
  cases h.moves_of_eq hStep with
  | goes hLeads hDepth =>
    refine ⟨(hLeads.trans hRest.leads).mono ?_, hRest.depth_eq.trans hDepth⟩
    exact Nat.le_trans p.least_le_one (Nat.le_add_right 1 _)

theorem of_calls (h : Standing text limit p c) (hStep : step text limit p c = .calls s c₁ back)
    (hCall : Kept text (.call s) c₁ c₂) (hRest : Kept text back c₂ c') : Kept text p c c' := by
  cases h.moves_of_eq hStep with
  | calls hLeads hDepth =>
    refine ⟨((hLeads.trans hCall.leads).trans hRest.leads).mono ?_, ?_⟩
    · rw [Nat.add_assoc]
      exact Nat.le_add_right _ _
    · rw [hRest.depth_eq, hCall.depth_eq]
      exact hDepth

end Kept

/-- **Control that returns has kept to the text**, to what was found and to the count of open
expansions. -/
theorem Runs.kept {c' : Cursor} (hRuns : Runs text limit p c c') (h : Standing text limit p c) :
    Kept text p c c' := by
  induction hRuns with
  | returns hStep => exact .of_returns h hStep
  | goes hStep _ ih => exact .of_goes h hStep (ih (h.of_goes hStep))
  | calls hStep _ _ ihCall ihRest =>
    have hCall := ihCall (h.of_call hStep)
    exact .of_calls h hStep hCall (ihRest (h.of_back hStep hCall))

/-- There is one way to go on. -/
theorem Runs.functional {c' c'' : Cursor} (h : Runs text limit p c c')
    (h' : Runs text limit p c c'') : c'' = c' := by
  induction h generalizing c'' with
  | returns hStep =>
    cases h' with
    | returns hStep' => exact Outcome.returns.inj (hStep'.symm.trans hStep)
    | goes hStep' | calls hStep' => cases hStep'.symm.trans hStep
  | goes hStep _ ih =>
    cases h' with
    | goes hStep' hRest' =>
      cases hStep'.symm.trans hStep
      exact ih hRest'
    | returns hStep' | calls hStep' => cases hStep'.symm.trans hStep
  | calls hStep _ _ ihCall ihRest =>
    cases h' with
    | calls hStep' hCall' hRest' =>
      cases hStep'.symm.trans hStep
      cases ihCall hCall'
      exact ihRest hRest'
    | returns hStep' | goes hStep' => cases hStep'.symm.trans hStep

/-- What is left to do from a point: twice the characters left, and one more between calls. -/
def Point.left (text : List Char) (c : Cursor) (p : Point) : Nat :=
  2 * (text.length - c.position) + 1 - p.least

theorem Point.left_lt {p' : Point} {c₁ : Cursor} {k : Nat} (hLeads : Leads text k c c₁)
    (hEnd : c.position ≤ text.length) (hLess : p.least < 2 * k + p'.least) :
    p'.left text c₁ < p.left text c := by
  have hPosition := hLeads.position_le
  have hEnd' := hLeads.within hEnd
  have hLeast := p.least_le_one
  have hLeast' := p'.least_le_one
  unfold left
  omega

/-- **Control returns from every point** where it can stand. -/
theorem Standing.exists_runs (h : Standing text limit p c) :
    ∃ c', Runs text limit p c c' := by
  induction hLeft : p.left text c using Nat.strongRecOn generalizing p c with
  | ind n ih =>
    subst hLeft
    have hEnd := h.position_le
    have hLeast := p.least_le_one
    cases hStep : step text limit p c with
    | returns c' => exact ⟨c', .returns hStep⟩
    | goes p' c₁ =>
      have hLess : p'.left text c₁ < p.left text c :=
        Point.left_lt (h.leads_of_goes hStep) hEnd (by omega)
      obtain ⟨c', hRest⟩ := ih _ hLess (h.of_goes hStep) rfl
      exact ⟨c', .goes hStep hRest⟩
    | calls s c₁ back =>
      have hLeads := h.leads_of_call hStep
      have hLess : (Point.call s).left text c₁ < p.left text c :=
        Point.left_lt hLeads hEnd (by rw [Point.least]; omega)
      obtain ⟨c₂, hCall⟩ := ih _ hLess (h.of_call hStep) rfl
      have hKept := hCall.kept (h.of_call hStep)
      have hLess' : back.left text c₂ < p.left text c :=
        Point.left_lt (hLeads.trans hKept.leads) hEnd (by rw [Point.least.eq_1]; omega)
      obtain ⟨c', hRest⟩ := ih _ hLess' (h.of_back hStep hKept) rfl
      exact ⟨c', .calls hStep hCall hRest⟩

/-- A call that begins with the cursor `c` returns with `c'`, and with that alone: it has read on
within the text, as many expansions are open as before, and it has added to the tokens and
diagnostics. -/
structure Returns (text : List Char) (limit : Option Nat) (s : Procedure) (c c' : Cursor) :
    Prop where
  runs_iff (c'' : Cursor) : Runs text limit (.call s) c c'' ↔ c'' = c'
  position_lt : c.position < c'.position
  within : c'.position ≤ text.length
  depth_eq : c'.depth = c.depth
  tokens : c.tokens <+: c'.tokens
  diagnostics : c.diagnostics <+: c'.diagnostics

theorem Standing.exists_returns {s : Procedure} (h : Standing text limit (.call s) c) :
    ∃ c', Returns text limit s c c' := by
  obtain ⟨c', hRuns⟩ := h.exists_runs
  have hKept := hRuns.kept h
  refine ⟨c', ⟨fun c'' => ⟨hRuns.functional, fun hEq => hEq ▸ hRuns⟩, hKept.leads.position_le,
    hKept.leads.within h.position_le, hKept.depth_eq, hKept.leads.found.filterMap _,
    hKept.leads.found.filterMap _⟩⟩

/-! ## A whole text -/

section Reached

variable {p' : Point} {c' : Cursor}

theorem Continues.standing (hContinues : Continues text limit p c p' c')
    (h : Standing text limit p c) : Standing text limit p' c' := by
  cases hContinues with
  | goes hStep => exact h.of_goes hStep
  | calls hStep hCall => exact h.of_back hStep (hCall.kept (h.of_call hStep))

/-- **Every turn of a loop reads on**, be it through the procedure it calls. -/
theorem Continues.position_lt (hContinues : Continues text limit p c p' c')
    (h : Standing text limit p c) : c.position < c'.position := by
  cases hContinues with
  | goes hStep => exact (h.leads_of_goes hStep).position_le
  | calls hStep hCall =>
    have hKept := hCall.kept (h.of_call hStep)
    have hLeads := (h.leads_of_call hStep).any.trans hKept.leads
    exact hLeads.position_le

theorem standing_initial : Standing text limit .script .initial :=
  ⟨Nat.zero_le _, fun n _ => Nat.zero_le n, trivial⟩

theorem Reached.standing (h : Reached text limit p c) : Standing text limit p c := by
  induction h with
  | start => exact standing_initial
  | next _ hContinues ih => exact hContinues.standing ih
  | call _ hStep ih => exact ih.of_call hStep

end Reached

/-- Control stays between the constructs, up to the end of the text. -/
theorem script_outcome (text : List Char) (c : Cursor) :
    match script text c with
    | .returns c' => c'.current text = none
    | .goes p _ | .calls _ _ p => p = .script := by
  unfold script
  cases hCurrent : c.current text with
  | none => exact hCurrent
  | some ch =>
    dsimp only
    split_ifs <;> rfl

/-- Control returns from a text where the text ends. -/
theorem Runs.current_eq_none {c' : Cursor} (h : Runs text limit p c c') (hScript : p = .script) :
    c'.current text = none := by
  induction h with
  | @returns p c c' hStep =>
    subst hScript
    have hOutcome := script_outcome text c
    rwa [show script text c = .returns c' from hStep] at hOutcome
  | @goes p p' c c₁ c' hStep _ ih =>
    subst hScript
    have hOutcome := script_outcome text c
    rw [show script text c = .goes p' c₁ from hStep] at hOutcome
    exact ih hOutcome
  | @calls p back s c c₁ c₂ c' hStep _ _ _ ihRest =>
    subst hScript
    have hOutcome := script_outcome text c
    rw [show script text c = .calls s c₁ back from hStep] at hOutcome
    exact ihRest hOutcome

end ShellLexer.Descent
