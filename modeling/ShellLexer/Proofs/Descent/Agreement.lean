import ShellLexer.Proofs.Descent.Outside
import ShellLexer.Proofs.Descent.Inside

/-!
# The descent reads what the scan reads

Every step agrees with the scan (`Stands.agrees`), and so do whole procedures,
by induction on their evaluation (`Runs.finds`).

* `runs_script`: the descent finds the events of the text.
* `descent_progress`: what every procedure keeps, and that together they read
  the whole text to its tokens and diagnostics.
-/

namespace ShellLexer.Descent

open Scan (Event State eventsFrom)

variable {text : List Char} {limit : Option Nat}
variable {p : Point} {c c' : Cursor} {back : State (List Char)} {ahead : List Event}

/-- **A step does what the scan does next**, wherever the two stand together. -/
theorem Stands.agrees (h : Stands text limit p c back ahead) (hStanding : Standing text limit p c) :
    Agrees text limit c back ahead (step text limit p c) := by
  cases h with
  | script hDepth => exact agrees_script hDepth
  | layout => exact agrees_layout
  | word hSettled hNe => exact agrees_word hSettled hNe
  | singleQuotes => exact agrees_singleQuotes
  | doubleQuotes hDepth => exact agrees_doubleQuotes hDepth
  | callDollar hDepth => exact agrees_dollar hDepth
  | dollarEnd => exact .returns (.same rfl rfl)
  | callCommand hDepth => exact .goes ⟨[.punctuation .leftParen], rfl, rfl⟩ (.command hDepth)
  | command hDepth => exact agrees_command hDepth
  | callParameter => exact .goes ⟨[.punctuation .leftBrace], rfl, rfl⟩ .parameter
  | parameter => exact agrees_parameter
  | callWord hSettled =>
    obtain ⟨ch, hCurrent, hName⟩ := hStanding.ready
    rw [step_call_word hCurrent hName]
    exact .goes (.pass hCurrent (hSettled.step_inWord hName _))
      (.word hSettled (List.cons_ne_nil ch []))
  | callOutside hDepth hOutside =>
    obtain ⟨ch, hCurrent, hStarts⟩ := hStanding.ready
    obtain rfl | rfl | rfl | rfl := hOutside
    · have hLayout : Agrees text limit c (.plain .nothing)
          (upcoming text limit (.plain (ofBlanks [])) c.position) (Descent.layout text [] c) :=
        agrees_layout
      exact hLayout
    · exact agrees_punctuation hCurrent hStarts
    · obtain rfl : ch = '\'' := hStarts
      exact .goes (.pass hCurrent rfl) .singleQuotes
    · obtain rfl : ch = '"' := hStarts
      exact .goes (.read hCurrent rfl rfl rfl) (.doubleQuotes hDepth)

theorem Stands.agrees_of_eq {o : Outcome} (h : Stands text limit p c back ahead)
    (hStanding : Standing text limit p c) (hStep : step text limit p c = o) :
    Agrees text limit c back ahead o := hStep ▸ h.agrees hStanding

/-- **What control finds until it returns is what the scan finds on the way.** -/
theorem Runs.finds (hRuns : Runs text limit p c c') (hStanding : Standing text limit p c)
    (h : Stands text limit p c back ahead) :
    Finds c c' ahead (upcoming text limit back c'.position) := by
  induction hRuns generalizing back ahead with
  | returns hStep =>
    cases h.agrees_of_eq hStanding hStep with
    | returns hFinds => exact hFinds
  | goes hStep _ ih =>
    cases h.agrees_of_eq hStanding hStep with
    | goes hFinds hStands => exact hFinds.trans (ih (hStanding.of_goes hStep) hStands)
  | calls hStep hCall _ ihCall ihRest =>
    cases h.agrees_of_eq hStanding hStep with
    | calls hFinds hStands hResumes =>
      have hInner := hStanding.of_call hStep
      have hKept := hCall.kept hInner
      have hBack := hResumes _ hKept.depth_eq
      exact (hFinds.trans (ihCall hInner hStands)).trans
        (ihRest (hStanding.of_back hStep hKept) hBack)

/-- The descent finds the events of the text. -/
theorem runs_script (text : List Char) (limit : Option Nat) :
    ∃ c', Runs text limit .script .initial c' ∧ c'.position = text.length ∧ c'.depth = 0 ∧
      c'.found = eventsFrom limit (Scan.Config.initial : Scan.Config (List Char)) text := by
  have hStanding : Standing text limit .script .initial := standing_initial
  obtain ⟨c', hRuns⟩ := hStanding.exists_runs
  have hKept := hRuns.kept hStanding
  have hEnd := hRuns.current_eq_none rfl
  have hPosition : c'.position = text.length :=
    Nat.le_antisymm (hKept.leads.within hStanding.position_le) (Cursor.length_le_of_current hEnd)
  obtain ⟨es, hFound, hAhead⟩ := hRuns.finds hStanding (.script rfl)
  rw [upcoming_eq_finish hEnd] at hAhead
  refine ⟨c', hRuns, hPosition, hKept.depth_eq, ?_⟩
  rw [hFound]
  exact (hAhead.trans (List.append_nil es)).symm

end ShellLexer.Descent

namespace ShellLexer

open Descent Scan

/-- **Every procedure of the descent makes progress.**  A call, wherever control comes to it,
returns in one way, further on in the text, with as many expansions open as before and with nothing
taken back of what was found.  No more expansions than the limit are ever open, and every turn of a
loop reads on.  Between them the procedures read the whole text, to its tokens and diagnostics. -/
theorem descent_progress (text : String) :
    (∀ s c, Reached text.toList (some maxExpansionDepth) (.call s) c →
      ∃ c', Returns text.toList (some maxExpansionDepth) s c c') ∧
    (∀ p c, Reached text.toList (some maxExpansionDepth) p c → c.depth ≤ maxExpansionDepth ∧
      ∀ p' c', Continues text.toList (some maxExpansionDepth) p c p' c' →
        c.position < c'.position) ∧
    ∃ c', (∀ c'', Runs text.toList (some maxExpansionDepth) .script .initial c'' ↔ c'' = c') ∧
      c'.position = text.toList.length ∧ c'.depth = 0 ∧
      tokenize text = ⟨c'.tokens, c'.diagnostics⟩ := by
  refine ⟨fun s c h => h.standing.exists_returns, fun p c h => ⟨?_, ?_⟩, ?_⟩
  · exact h.standing.allowed _ rfl
  · exact fun p' c' hContinues => hContinues.position_lt h.standing
  · obtain ⟨c', hRuns, hPosition, hDepth, hFound⟩ :=
      runs_script text.toList (some maxExpansionDepth)
    have hTokens : (tokenize text).tokens = c'.tokens := by
      rw [tokenize_tokens, events_eq, Cursor.tokens, hFound]
    have hDiagnostics : (tokenize text).diagnostics = c'.diagnostics := by
      rw [tokenize_diagnostics, events_eq, Cursor.diagnostics, hFound]
    refine ⟨c', fun c'' => ⟨hRuns.functional, fun hEq => hEq ▸ hRuns⟩, hPosition, hDepth, ?_⟩
    rw [← hTokens, ← hDiagnostics]

end ShellLexer
