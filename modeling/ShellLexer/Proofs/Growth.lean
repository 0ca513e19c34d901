import ShellLexer.Proofs.Buffer.Encoded
import ShellLexer.Proofs.Scan.EndFaults

/-!
# Texts that grow

A scan takes nothing back.  What it finds among the first characters of a text
it finds whatever comes behind them, so only the end of the text can make a
difference: the token that is pending there, and the faults that are reported
because the text ends (`Fault.atEnd`).

* `State.length_tokens_finish_le`: at most one token is pending.
* `State.earlyFaults_finish_prefix`: a report that the end of the text makes of
  what is pending is made however the text goes on, unless it is about the end.
* `tokenize_append_prefix`: but for these, the scan of a text is the start of
  the scan of every longer text.
-/

namespace ShellLexer

/-- The diagnostics that are not about the end of the text. -/
def Lexed.earlyDiagnostics (lexed : Lexed) : List Diagnostic :=
  lexed.diagnostics.filter fun d => !d.fault.atEnd

namespace Scan

/-- The tokens among the events. -/
def tokensOf (es : List Event) : List Token := es.filterMap Event.token?

/-- The reports among the events that are not about the end of the text. -/
def earlyFaults (es : List Event) : List Diagnostic :=
  (es.filterMap Event.diagnostic?).filter fun d => !d.fault.atEnd

theorem tokensOf_append (es fs : List Event) : tokensOf (es ++ fs) = tokensOf es ++ tokensOf fs :=
  List.filterMap_append

theorem earlyFaults_append (es fs : List Event) :
    earlyFaults (es ++ fs) = earlyFaults es ++ earlyFaults fs := by
  rw [earlyFaults, List.filterMap_append, List.filter_append]
  rfl

/-! ## The end of a text -/

theorem earlyFaults_eq_nil {es : List Event} (h : ∀ e ∈ es, e.atEnd) : earlyFaults es = [] := by
  refine List.filter_eq_nil_iff.mpr ?_
  intro d hd
  obtain ⟨e, he, hEvent⟩ := List.mem_filterMap.mp hd
  have hEnd := h e he
  cases e with
  | token => cases hEvent
  | diagnostic =>
    obtain rfl := Option.some.inj hEvent
    simpa [Event.atEnd] using hEnd

/-- The constructs left open are reported, and only at the end. -/
theorem Quoted.token?_and_atEnd_of_mem_unclosed {q : Quoted (List Char)} {e : Event}
    (h : e ∈ q.unclosed) : e.token? = none ∧ e.atEnd := by
  rcases List.mem_append.mp h with h | h
  · obtain ⟨command, -, rfl⟩ := List.mem_map.mp h
    exact ⟨rfl, rfl⟩
  · obtain rfl := List.mem_singleton.mp h
    exact ⟨rfl, rfl⟩

theorem Quoted.tokensOf_finish (q : Quoted (List Char)) :
    tokensOf q.finish = tokensOf q.inner.finish := by
  have hUnclosed : tokensOf q.unclosed = [] :=
    List.filterMap_eq_nil_iff.mpr fun e he => (token?_and_atEnd_of_mem_unclosed he).1
  rw [Quoted.finish_eq, tokensOf_append, hUnclosed, List.append_nil]

/-- What the end of a text completes inside double quotes is one token at most. -/
theorem Quoted.length_tokens_finish_le (q : Quoted (List Char)) :
    (tokensOf q.finish).length ≤ 1 := by
  rw [q.tokensOf_finish]
  cases q.inner with
  | nothing | backslash | dollar | parameter => exact Nat.zero_le 1
  | word => exact Nat.le_refl 1

theorem State.length_tokens_finish_le (s : State (List Char)) :
    (tokensOf s.finish).length ≤ 1 := by
  obtain p | q := s
  · have hOne : ∀ e : Event, (tokensOf [e]).length ≤ 1 := by
      intro e
      cases e with
      | token => exact Nat.le_refl 1
      | diagnostic => exact Nat.zero_le 1
    cases p with
    | nothing => exact Nat.zero_le 1
    | blanks | word | operator | doubleLess | singleQuoted => exact hOne _
  · exact q.length_tokens_finish_le

/-- Inside double quotes the end of a text reports nothing but itself. -/
theorem Quoted.earlyFaults_finish (q : Quoted (List Char)) : earlyFaults q.finish = [] := by
  have hUnclosed : earlyFaults q.unclosed = [] :=
    earlyFaults_eq_nil fun e he => (token?_and_atEnd_of_mem_unclosed he).2
  rw [Quoted.finish_eq, earlyFaults_append, hUnclosed, List.append_nil]
  cases q.inner <;> rfl

/-- Outside double quotes, what the end of a text reports besides itself is found in front of
every character as well. -/
theorem Plain.endsBefore_of_earlyFaults {p : Plain (List Char)} (h : earlyFaults p.finish ≠ [])
    (c : Char) : p.EndsBefore c := by
  cases p with
  | nothing => trivial
  | blanks | word | doubleLess | singleQuoted => exact absurd rfl h
  | operator start first =>
    -- Punctuation that is reported is no operator, and so it begins none.
    have hNone : Punctuation.ofChar? first = none := by
      by_contra hSome
      obtain ⟨o, ho⟩ := Option.ne_none_iff_exists'.mp hSome
      rw [Plain.finish, singleEvent, ho] at h
      exact h rfl
    cases hPair : Punctuation.ofPair? first c with
    | none => exact hPair
    | some o =>
      have hFirst := (Punctuation.isSome_ofChar?_of_ofPair? hPair).1
      rw [hNone] at hFirst
      contradiction

variable (limit : Option Nat)

theorem Plain.finish_prefix_eventsFrom {p : Plain (List Char)} {c : Char} (h : p.EndsBefore c)
    (position : Nat) (cs : List Char) :
    p.finish <+: eventsFrom limit ⟨position, .plain p⟩ (c :: cs) := by
  have hStep := Plain.step_of_endsBefore h position
  simp only [eventsFrom, Config.step, State.step, hStep, Plain.enterAfter, List.append_assoc]
  exact List.prefix_append _ _

theorem State.earlyFaults_finish_prefix (s : State (List Char)) (position : Nat)
    (cs : List Char) :
    earlyFaults s.finish <+: earlyFaults (eventsFrom limit ⟨position, s⟩ cs) := by
  obtain p | q := s
  · by_cases hNone : earlyFaults p.finish = []
    · rw [State.finish, hNone]
      exact List.nil_prefix
    · cases cs with
      | nil => exact List.prefix_rfl
      | cons c cs =>
        have hEnds := Plain.endsBefore_of_earlyFaults hNone c
        obtain ⟨more, hMore⟩ := Plain.finish_prefix_eventsFrom limit hEnds position cs
        rw [← hMore, earlyFaults_append]
        exact List.prefix_append _ _
  · rw [State.finish, q.earlyFaults_finish]
    exact List.nil_prefix

/-! ## Two scans -/

/-- The last token apart, the tokens of a text come first among those of a longer one. -/
theorem dropLast_tokens_prefix (config : Config (List Char)) (as bs : List Char) :
    (tokensOf (eventsFrom limit config as)).dropLast <+:
      tokensOf (eventsFrom limit config (as ++ bs)) := by
  have hPending := (config.after limit as).state.length_tokens_finish_le
  have hFound : (tokensOf (eventsFrom limit config as)).dropLast <+:
      tokensOf (config.found limit as) := by
    rw [eventsFrom_eq_found_append_finish, tokensOf_append]
    generalize tokensOf (config.after limit as).state.finish = pending at hPending ⊢
    match pending, hPending with
    | [], _ =>
      rw [List.append_nil]
      exact List.dropLast_prefix _
    | [t], _ =>
      refine ⟨[], ?_⟩
      rw [List.append_nil, List.dropLast_concat]
  refine hFound.trans ?_
  rw [eventsFrom_append, tokensOf_append]
  exact List.prefix_append _ _

theorem earlyFaults_prefix (config : Config (List Char)) (as bs : List Char) :
    earlyFaults (eventsFrom limit config as) <+:
      earlyFaults (eventsFrom limit config (as ++ bs)) := by
  rw [eventsFrom_eq_found_append_finish, eventsFrom_append, earlyFaults_append,
    earlyFaults_append]
  refine (List.prefix_append_right_inj _).mpr ?_
  exact (config.after limit as).state.earlyFaults_finish_prefix limit _ bs

end Scan

/-- **A scan takes nothing back.**  Wherever a text is cut, the tokens in front of the cut without
their last one are the first tokens of the whole text, and the diagnostics in front of it that are
not about the end of the text are the first such diagnostics of the whole. -/
theorem tokenize_append_prefix (a b : String) :
    (tokenize a).tokens.dropLast <+: (tokenize (a ++ b)).tokens ∧
      (tokenize a).earlyDiagnostics <+: (tokenize (a ++ b)).earlyDiagnostics := by
  constructor
  · rw [tokenize_tokens, tokenize_tokens, events_eq, events_eq, String.toList_append]
    exact Scan.dropLast_tokens_prefix _ _ _ _
  · rw [Lexed.earlyDiagnostics, Lexed.earlyDiagnostics, tokenize_diagnostics,
      tokenize_diagnostics, events_eq, events_eq, String.toList_append]
    exact Scan.earlyFaults_prefix _ _ _ _

end ShellLexer
