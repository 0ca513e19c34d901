import ShellLexer.Proofs.Buffer.Encoded
import ShellLexer.Proofs.Reconstruct.Pending
import ShellLexer.Proofs.Scan.EndFaults

/-!
# What a token stream gives back of its text

`TokenStream.reconstruct` puts the texts of the tokens together again.  This
file says exactly what it gives back: the text up to a cut, without the
characters that were reported and without the backslashes that were taken off.
The cut is the end of the text unless a quote is left open.
-/

namespace ShellLexer

namespace Scan

/-! ## The end of a text -/

theorem Explains.silent {n : Nat} {es : List Event}
    (h : ∀ e ∈ es, e.chars = [] ∧ e.droppedPosition? = none) : Explains n [] es where
  text := List.flatMap_eq_nil_iff.mpr fun e he => (h e he).1
  dropped := List.filterMap_eq_nil_iff.mpr fun e he => (h e he).2

/-- What the end of the text says of the pending pieces: those in `done` are explained, and if
any other is left then a quote is open. An open single quote is where these start. -/
structure Finished (n : Nat) (done rest : List Piece) (es : List Event) : Prop where
  explains : Explains n done es
  unclosed : sourceOf rest ≠ [] → ∃ e ∈ es, ∃ position,
    e = .fault .unclosedSingleQuote position ∨ e = .fault .unclosedDoubleQuote position
  quote : ∀ position, .fault .unclosedSingleQuote position ∈ es →
    position = n + (sourceOf done).length

/-- Where no quote is left open, nothing is left. -/
theorem Finished.sourceOf_rest_eq_nil {n : Nat} {done rest : List Piece} {es : List Event}
    (h : Finished n done rest es) (hClosed : ∀ position, ∀ e ∈ es,
      e ≠ .fault .unclosedSingleQuote position ∧ e ≠ .fault .unclosedDoubleQuote position) :
    sourceOf rest = [] := by
  by_contra hRest
  obtain ⟨e, he, position, hSingle | hDouble⟩ := h.unclosed hRest
  · exact (hClosed position e he).1 hSingle
  · exact (hClosed position e he).2 hDouble

theorem Finished.complete {n : Nat} {ps : List Piece} {es : List Event}
    (hExplains : Explains n ps es)
    (hQuote : ∀ position, .fault .unclosedSingleQuote position ∉ es) : Finished n ps [] es :=
  ⟨hExplains, fun h => absurd rfl h, fun position h => absurd h (hQuote position)⟩

theorem Plain.Pending.finish {n : Nat} {src : List Char} {p : Plain (List Char)}
    (h : p.Pending n src) :
    ∃ done rest, sourceOf done ++ sourceOf rest = src ∧ Finished n done rest p.finish := by
  by_cases hOpen : ∀ start text, p ≠ .singleQuoted start text
  · obtain ⟨ps, rfl, hExplains⟩ := h.explains_finish hOpen
    refine ⟨ps, [], List.append_nil _, .complete hExplains fun position hMem => ?_⟩
    have hEnd := Plain.finish_beforeEnd hOpen _ hMem
    cases hEnd
  · cases h with
    | @singleQuoted text _ =>
      refine ⟨[], keepAll ('\'' :: text), by simp, .fault rfl, fun _ => ?_, fun position hMem => ?_⟩
      · exact ⟨_, List.mem_singleton.mpr rfl, n, Or.inl rfl⟩
      · simpa [Plain.finish, Event.fault] using hMem
    | nothing | blanks | word | operator | doubleLess => exact absurd (by simp) hOpen

theorem Quoted.Pending.finish {n : Nat} {ps : List Piece} {q : Quoted (List Char)}
    (h : q.Pending ps) :
    ∃ done rest, sourceOf done ++ sourceOf rest = sourceOf ps ∧ Finished n done rest q.finish := by
  have hOpen : ∀ m, Explains m [] q.unclosed := by
    intro m
    refine .silent fun e he => ?_
    rcases List.mem_append.mp he with he | he
    · obtain ⟨command, -, rfl⟩ := List.mem_map.mp he
      exact ⟨rfl, rfl⟩
    · obtain rfl := List.mem_singleton.mp he
      exact ⟨rfl, rfl⟩
  have hUnclosed : ∃ e ∈ q.inner.finish ++ q.unclosed, ∃ position,
      e = .fault .unclosedSingleQuote position ∨ e = .fault .unclosedDoubleQuote position :=
    ⟨_, by simp [Quoted.unclosed], q.start, Or.inr rfl⟩
  have hQuote : ∀ position,
      .fault .unclosedSingleQuote position ∉ q.inner.finish ++ q.unclosed := by
    intro position hMem
    rcases List.mem_append.mp hMem with hMem | hMem
    · cases hInner : q.inner <;> simp [hInner, Inner.finish, Event.fault] at hMem
    · simp [Quoted.unclosed, Event.fault] at hMem
  -- Where no token completes the pending pieces, all of them are left.
  have hLeft : Explains n [] q.inner.finish → ∃ done rest,
      sourceOf done ++ sourceOf rest = sourceOf ps ∧
        Finished n done rest (q.inner.finish ++ q.unclosed) := by
    intro hInner
    exact ⟨[], ps, rfl, hInner.append (hOpen _), fun _ => hUnclosed,
      fun position hMem => absurd hMem (hQuote position)⟩
  rw [Quoted.finish_eq]
  cases h with
  | text | command | backslash => exact hLeft (.nil n)
  | dollar | parameter => exact hLeft (.fault rfl)
  | @word start commands name =>
    refine ⟨keepAll name, [], by simp, .complete ?_ hQuote⟩
    have h := (explains_wordToken n name).append (hOpen _)
    rwa [List.append_nil] at h

theorem State.Pending.finish {n : Nat} {ps : List Piece} {s : State (List Char)}
    (h : s.Pending n ps) :
    ∃ done rest, sourceOf done ++ sourceOf rest = sourceOf ps ∧ Finished n done rest s.finish := by
  cases h with
  | @plain src p hp =>
    rw [sourceOf_keepAll]
    exact hp.finish
  | quoted hq => exact hq.finish

/-- A whole text as pieces that its events explain, and a rest that an open quote keeps. -/
theorem finished_initial (limit : Option Nat) (cs : List Char) :
    ∃ done rest, sourceOf done ++ sourceOf rest = cs ∧
      Finished 0 done rest (eventsFrom limit (Config.initial : Config (List Char)) cs) := by
  obtain ⟨-, done, rest, hSource, hExplains, hPending⟩ := explainedUpTo_after limit cs
  obtain ⟨more, left, hMore, hFinished⟩ := hPending.finish
  rw [eventsFrom_eq_found_append_finish]
  refine ⟨done ++ more, left, ?_, ?_, ?_, ?_⟩
  · rw [sourceOf_append, List.append_assoc, hMore, hSource]
  · refine hExplains.append ?_
    rw [Nat.zero_add]
    exact hFinished.explains
  · intro hLeft
    obtain ⟨e, he, hOpen⟩ := hFinished.unclosed hLeft
    exact ⟨e, List.mem_append_right _ he, hOpen⟩
  · intro position hMem
    rcases List.mem_append.mp hMem with hMem | hMem
    · have hEarly := found_beforeEnd limit Config.initial cs _ hMem
      cases hEarly
    · rw [sourceOf_append, List.length_append, Nat.zero_add]
      exact hFinished.quote position hMem

/-- The text of explained pieces is the text of the whole up to their end, without what they drop
and take off. -/
theorem textOf_eq_charsAt (ps : List Piece) (left : List Char) :
    textOf ps = charsAt (fun i => i < (sourceOf ps).length ∧ i ∉ droppedFrom 0 ps ∧
      i ∉ strippedFrom 0 ps) (sourceOf ps ++ left) := by
  have hLeft : charsFrom (0 + (sourceOf ps).length) (fun i => i < (sourceOf ps).length ∧
      i ∉ droppedFrom 0 ps ∧ i ∉ strippedFrom 0 ps) left = [] := by
    refine charsFrom_none fun i hi => decide_eq_false ?_
    omega
  rw [charsAt, charsFrom_append, hLeft, List.append_nil, ← charsFrom_sourceOf 0 ps]
  refine charsFrom_congr fun i _ hi => decide_eq_decide.mpr ?_
  rw [Nat.zero_add] at hi
  exact (and_iff_right hi).symm

/-- What pieces take off may be taken off in a text that goes on behind them. -/
theorem strippable_append_of_mem_strippedFrom {ps : List Piece} {i : Nat}
    (hi : i ∈ strippedFrom 0 ps) (left : List Char) : Strippable (sourceOf ps ++ left) i := by
  obtain ⟨j, rfl, hj⟩ := strippable_of_mem_strippedFrom hi
  rw [Nat.zero_add]
  exact hj.append left

end Scan

/-! ## The account -/

/-- The positions of the characters that a scan reported and left out. -/
def Lexed.droppedPositions (lexed : Lexed) : List Nat :=
  (lexed.diagnostics.filter (·.fault.dropsChar)).map Diagnostic.position

theorem droppedPositions_tokenize (text : String) :
    (tokenize text).droppedPositions =
      (events text).filterMap Scan.Event.droppedPosition? := by
  rw [Lexed.droppedPositions, tokenize_diagnostics]
  induction events text with
  | nil => rfl
  | cons e es ih =>
    cases e with
    | token t => exact ih
    | diagnostic d =>
      by_cases hd : d.fault.dropsChar
      · simp [Scan.Event.diagnostic?, Scan.Event.droppedPosition?, hd, ih]
      · simp [Scan.Event.diagnostic?, Scan.Event.droppedPosition?, hd, ih]

theorem toList_reconstruct_tokenize (text : String) :
    (tokenize text).tokens.reconstruct.toList = (events text).flatMap Scan.Event.chars := by
  rw [tokenize_tokens, TokenStream.reconstruct]
  induction events text with
  | nil => rfl
  | cons e es ih =>
    cases e with
    | token t => simp_all [Scan.Event.token?, Scan.Event.chars]
    | diagnostic d => simpa [Scan.Event.token?, Scan.Event.chars, List.filterMap_cons] using ih

theorem mem_diagnostics_tokenize {text : String} {d : Diagnostic} :
    d ∈ (tokenize text).diagnostics ↔ .diagnostic d ∈ events text := by
  rw [tokenize_diagnostics, List.mem_filterMap]
  constructor
  · rintro ⟨e, he, hd⟩
    cases e with
    | token t => cases hd
    | diagnostic d' => exact Option.some.inj hd ▸ he
  · intro hd
    exact ⟨_, hd, rfl⟩

/-- Where no open quote is reported of a text, none is found in it. -/
theorem forall_events_ne_unclosed {text : String}
    (hClosed : ∀ d ∈ (tokenize text).diagnostics,
      d.fault ≠ .unclosedSingleQuote ∧ d.fault ≠ .unclosedDoubleQuote) :
    ∀ position, ∀ e ∈ events text, e ≠ .fault .unclosedSingleQuote position ∧
      e ≠ .fault .unclosedDoubleQuote position := by
  intro position e he
  constructor
  · rintro rfl
    exact (hClosed _ (mem_diagnostics_tokenize.mpr he)).1 rfl
  · rintro rfl
    exact (hClosed _ (mem_diagnostics_tokenize.mpr he)).2 rfl

theorem finished_events (text : String) :
    ∃ done rest, Scan.sourceOf done ++ Scan.sourceOf rest = text.toList ∧
      Scan.Finished 0 done rest (events text) := by
  rw [events_eq]
  exact Scan.finished_initial _ text.toList

section Finished

variable {text : String} {done rest : List Scan.Piece}
variable (hSource : Scan.sourceOf done ++ Scan.sourceOf rest = text.toList)
variable (hFinished : Scan.Finished 0 done rest (events text))
include hSource hFinished

/-- The tokens give back what the explained pieces neither drop nor take off. -/
theorem toList_reconstruct_of_finished :
    (tokenize text).tokens.reconstruct.toList =
      charsAt (fun i => i < (Scan.sourceOf done).length ∧
        i ∉ (tokenize text).droppedPositions ∧ i ∉ Scan.strippedFrom 0 done) text.toList := by
  rw [toList_reconstruct_tokenize, hFinished.explains.text, droppedPositions_tokenize,
    hFinished.explains.dropped, ← hSource]
  exact Scan.textOf_eq_charsAt done _

theorem length_sourceOf_of_finished
    (hClosed : ∀ d ∈ (tokenize text).diagnostics,
      d.fault ≠ .unclosedSingleQuote ∧ d.fault ≠ .unclosedDoubleQuote) :
    (Scan.sourceOf done).length = text.length := by
  have hRest := hFinished.sourceOf_rest_eq_nil (forall_events_ne_unclosed hClosed)
  rw [← String.length_toList, ← hSource, hRest, List.append_nil]

end Finished

/-- A text is given back as it is, if nothing can be taken off, no character of it was reported as
dropped and no quote is open at its end. -/
theorem reconstruct_tokenize_of_kept {text : String} (hNone : ∀ i, ¬ Strippable text.toList i)
    (hKept : ∀ d ∈ (tokenize text).diagnostics, d.fault.dropsChar = false)
    (hClosed : ∀ d ∈ (tokenize text).diagnostics,
      d.fault ≠ .unclosedSingleQuote ∧ d.fault ≠ .unclosedDoubleQuote) :
    (tokenize text).tokens.reconstruct = text := by
  obtain ⟨done, rest, hSource, hFinished⟩ := finished_events text
  have hLength := length_sourceOf_of_finished hSource hFinished hClosed
  have hDropped : (tokenize text).droppedPositions = [] := by
    rw [Lexed.droppedPositions, List.map_eq_nil_iff, List.filter_eq_nil_iff]
    intro d hd
    simp [hKept d hd]
  have hStripped : Scan.strippedFrom 0 done = [] := by
    refine List.eq_nil_iff_forall_not_mem.mpr fun i hi => hNone i ?_
    exact hSource ▸ Scan.strippable_append_of_mem_strippedFrom hi _
  apply String.toList_injective
  rw [toList_reconstruct_of_finished hSource hFinished, hLength, hDropped, hStripped]
  exact charsFrom_all fun i _ hi => by simpa [String.length_toList] using hi

/-- A text without a backslash is given back as it is, if no character of it was reported as dropped
and no quote is open at its end. -/
theorem reconstruct_tokenize_of_not_mem_backslash {text : String}
    (hBackslash : '\\' ∉ text.toList)
    (hKept : ∀ d ∈ (tokenize text).diagnostics, d.fault.dropsChar = false)
    (hClosed : ∀ d ∈ (tokenize text).diagnostics,
      d.fault ≠ .unclosedSingleQuote ∧ d.fault ≠ .unclosedDoubleQuote) :
    (tokenize text).tokens.reconstruct = text :=
  reconstruct_tokenize_of_kept (fun _ h => hBackslash h.mem_backslash) hKept hClosed

/-- **Every character is accounted for.**  The tokens of a text hold its characters up to a cut,
in their order, except for those that were reported as dropped and for backslashes (with the
newlines behind them) that were taken off.  The cut is the end of the text unless a quote is
left open, and an open single quote is the cut itself.  So a text without a report in which no
backslash can be taken off is given back as it is. -/
theorem reconstruct_accounts_for_text (text : String) :
    (∃ (cut : Nat) (stripped : List Nat), cut ≤ text.length ∧
      (tokenize text).tokens.reconstruct.toList =
        charsAt (fun i => i < cut ∧ i ∉ (tokenize text).droppedPositions ∧ i ∉ stripped)
          text.toList ∧
      (∀ i ∈ stripped, Strippable text.toList i) ∧
      ((∀ d ∈ (tokenize text).diagnostics,
        d.fault ≠ .unclosedSingleQuote ∧ d.fault ≠ .unclosedDoubleQuote) → cut = text.length) ∧
      (∀ d ∈ (tokenize text).diagnostics,
        d.fault = .unclosedSingleQuote → cut = d.position)) ∧
    ((tokenize text).diagnostics = [] → (∀ i, ¬ Strippable text.toList i) →
      (tokenize text).tokens.reconstruct = text) := by
  obtain ⟨done, rest, hSource, hFinished⟩ := finished_events text
  have hCut : (Scan.sourceOf done).length ≤ text.length := by
    rw [← String.length_toList, ← hSource, List.length_append]
    exact Nat.le_add_right _ _
  constructor
  · refine ⟨(Scan.sourceOf done).length, Scan.strippedFrom 0 done, hCut,
      toList_reconstruct_of_finished hSource hFinished, ?_,
      length_sourceOf_of_finished hSource hFinished, ?_⟩
    · intro i hi
      exact hSource ▸ Scan.strippable_append_of_mem_strippedFrom hi _
    · rintro ⟨f, position⟩ hd rfl
      have hQuote := hFinished.quote position (mem_diagnostics_tokenize.mp hd)
      rw [Nat.zero_add] at hQuote
      exact hQuote.symm
  · intro hClean hNone
    refine reconstruct_tokenize_of_kept hNone ?_ ?_
    · intro d hd
      simp [hClean] at hd
    · intro d hd
      simp [hClean] at hd

end ShellLexer
