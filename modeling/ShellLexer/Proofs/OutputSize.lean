import ShellLexer.Proofs.Buffer.Encoded
import ShellLexer.Proofs.Scan.EndFaults

/-!
# How much is found

A scan finds at most three things for each character of a text, and one less in
all.  Not every step keeps to that by itself: a construct that is left open is
reported at the end of the text, long after the character that opened it.  So
what the end of the text would add is owed from the moment it is pending
(`State.owed`), and a step is charged for what it adds to that.

* `State.Steps.length_add_owed_le`: a step finds and comes to owe three more at most.
* `Plain.Enters.length_add_owed_le`: the first one only two.
* `length_tokens_add_length_diagnostics_le`: the bound for a whole text.
-/

namespace ShellLexer

namespace Scan

/-- How much the end of the text would add. -/
def State.owed (s : State (List Char)) : Nat := s.finish.length

theorem Plain.owed_eq (p : Plain (List Char)) : State.owed (.plain p) = p.finish.length := rfl

theorem Quoted.owed_eq (start : Nat) (text : List Char) (commands : List Command)
    (inner : Inner (List Char)) :
    State.owed (.quoted ⟨start, text, commands, inner⟩) =
      inner.finish.length + commands.length + 1 := by
  rw [State.owed, State.finish, Quoted.finish_eq, Quoted.unclosed, List.length_append,
    List.length_append, List.length_map, Nat.add_assoc]
  rfl

section Steps

variable {limit : Option Nat} {position start : Nat} {text : List Char} {commands : List Command}
variable {c : Char} {s s' : State (List Char)} {es : List Event}

theorem Plain.Enters.length_add_owed_le (h : Plain.Enters position c s es) :
    es.length + s.owed ≤ 2 := by
  cases h with
  | newline | blank | name | singleQuote | operator | unexpected => exact Nat.le_succ 1
  | doubleQuote => exact Nat.le_refl 2

theorem Plain.Steps.length_add_owed_le {p : Plain (List Char)}
    (h : Plain.Steps position p c s es) : es.length + s.owed ≤ State.owed (.plain p) + 3 := by
  cases h with
  | ended hEnds hEnters =>
    have hEntered := hEnters.length_add_owed_le
    rw [List.length_append, Plain.owed_eq]
    omega
  | blank | name | doubleLess | pair | doubleLessDash | quotedChar | closingQuote =>
    exact Nat.le_add_left 1 3

theorem Parameter.Reads.length_le {p : Parameter (List Char)}
    {next : Option (Parameter (List Char))} (h : Parameter.Reads position p c next es) :
    es.length ≤ 2 := by
  cases h with
  | close | colon | choice => exact Nat.le_refl 2
  | backslash | collect => exact Nat.zero_le 2
  | trim =>
    unfold optionalName
    split
    · exact Nat.le_succ 1
    · exact Nat.le_refl 2

theorem Parameter.Steps.length_le {p : Parameter (List Char)}
    {next : Option (Parameter (List Char))} (h : Parameter.Steps position p c next es) :
    es.length ≤ 2 := by
  cases h with
  | read hReads => exact hReads.length_le
  | escaped => exact Nat.zero_le 2
  | afterColon | twice => exact Nat.le_succ 1

/-- A `$` is a token, and it owes a report or has had one. -/
theorem Quoted.Dollars.length_add_owed_le {depth : Nat} {inner : Inner (List Char)}
    (h : Quoted.Dollars limit position depth inner es) :
    es.length + inner.finish.length ≤ 2 := by
  cases h with
  | opens | deep => exact Nat.le_refl 2

theorem Quoted.length_lastSegment_le (text : List Char) : (lastSegment text).length ≤ 1 := by
  unfold lastSegment
  split
  · exact Nat.zero_le 1
  · exact Nat.le_refl 1

theorem Quoted.Enters.length_add_owed_le
    (h : Quoted.Enters limit position start text commands c s es) :
    es.length + s.owed ≤ commands.length + 4 := by
  cases h with
  | close =>
    have hSegment := length_lastSegment_le text
    rw [List.length_append, Plain.owed_eq, List.length_singleton]
    simp only [Plain.finish, List.length_nil]
    omega
  | textDollar hDollars =>
    have hDollar := hDollars.length_add_owed_le
    rw [Quoted.owed_eq, List.length_cons, List.length_nil]
    omega
  | commandDollar hDollars =>
    have hDollar := hDollars.length_add_owed_le
    rw [Quoted.owed_eq]
    omega
  | backslash | literal => exact (by decide : 1 ≤ 4)
  | openParen | closeParen | closeCommand | name | unhandled =>
    rw [Quoted.owed_eq]
    simp only [Inner.finish, List.length_cons, List.length_nil]
    omega

theorem Quoted.Steps.length_add_owed_le {inner : Inner (List Char)}
    (h : Quoted.Steps limit position start text commands inner c s es) :
    es.length + s.owed ≤ State.owed (.quoted ⟨start, text, commands, inner⟩) + 3 := by
  rw [Quoted.owed_eq start text commands inner]
  cases h with
  | enter hEnters =>
    have hEntered := hEnters.length_add_owed_le
    simp only [Inner.finish, List.length_nil]
    omega
  | invalid _ _ _ hEnters =>
    have hEntered := hEnters.length_add_owed_le
    simp only [Inner.finish, List.length_cons, List.length_nil]
    omega
  | nameEnd _ hEnters =>
    have hEntered := hEnters.length_add_owed_le
    simp only [Inner.finish, List.length_cons, List.length_nil]
    omega
  | parameter hSteps | parameterEnd hSteps =>
    have hLength := hSteps.length_le
    rw [Quoted.owed_eq]
    simp only [Inner.finish, List.length_cons, List.length_nil]
    omega
  | escaped | continued | unescaped | openCommand | openParameter | dollarName | name =>
    rw [Quoted.owed_eq]
    simp only [Inner.finish, List.length_cons, List.length_nil]
    omega

/-- **A step finds and comes to owe three more at most.** -/
theorem State.Steps.length_add_owed_le (h : State.Steps limit position s c s' es) :
    es.length + s'.owed ≤ s.owed + 3 := by
  cases h with
  | plain hStep => exact hStep.length_add_owed_le
  | quoted hStep => exact hStep.length_add_owed_le

end Steps

theorem length_eventsFrom_le (limit : Option Nat) (config : Config (List Char)) (cs : List Char) :
    (eventsFrom limit config cs).length ≤ config.state.owed + 3 * cs.length := by
  induction cs generalizing config with
  | nil => exact Nat.le_refl _
  | cons c cs ih =>
    have hStep : (config.step limit c).2.length + (config.step limit c).1.state.owed ≤
        config.state.owed + 3 :=
      (config.state.steps limit config.position c).length_add_owed_le
    have hRest := ih (config.step limit c).1
    rw [eventsFrom, List.length_append, List.length_cons]
    omega

/-- The first character of a text opens one construct at most, and so the text owes one less. -/
theorem length_eventsFrom_initial_le (limit : Option Nat) (cs : List Char) :
    (eventsFrom limit (Config.initial : Config (List Char)) cs).length ≤ 3 * cs.length - 1 := by
  cases cs with
  | nil => exact Nat.le_refl 0
  | cons c cs =>
    have hFirst : ((Config.initial : Config (List Char)).step limit c).2.length +
        ((Config.initial : Config (List Char)).step limit c).1.state.owed ≤ 2 :=
      (Plain.enters 0 c).length_add_owed_le
    have hRest := length_eventsFrom_le limit
      ((Config.initial : Config (List Char)).step limit c).1 cs
    rw [eventsFrom, List.length_append, List.length_cons]
    omega

/-- Everything that is found is a token or a diagnostic. -/
theorem length_tokens_add_length_diagnostics (es : List Event) :
    (es.filterMap Event.token?).length + (es.filterMap Event.diagnostic?).length = es.length := by
  induction es with
  | nil => rfl
  | cons e es ih =>
    cases e with
    | token t =>
      simp only [List.filterMap_cons, Event.token?, Event.diagnostic?, List.length_cons]
      omega
    | diagnostic d =>
      simp only [List.filterMap_cons, Event.token?, Event.diagnostic?, List.length_cons]
      omega

end Scan

/-- **The size of what is found.**  A text of `n` characters has at most `3 * n - 1` tokens and
diagnostics together, and the empty text has none. -/
theorem length_tokens_add_length_diagnostics_le (text : String) :
    (tokenize text).tokens.length + (tokenize text).diagnostics.length ≤ 3 * text.length - 1 := by
  rw [tokenize_tokens, tokenize_diagnostics, Scan.length_tokens_add_length_diagnostics, events_eq,
    ← String.length_toList]
  exact Scan.length_eventsFrom_initial_le _ text.toList

/-- Dollars in double quotes that are left open come up to the bound. -/
example : (tokenize "\"$$$").tokens.length + (tokenize "\"$$$").diagnostics.length = 3 * 4 - 1 := by
  decide

end ShellLexer
