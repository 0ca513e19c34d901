import ShellLexer.Proofs.Reconstruct.Account

/-!
# Token boundaries

A text can be cut between two tokens and scanned in parts.  What a scan knows
of the text behind it, outside quotes, is the token it is in the middle of
(`Plain.Pending`); in front of a boundary (`TokenBoundary`) that token is
complete (`endsBefore_of_boundary`), so the scan goes on as one that starts
there.

* `tokenize_append`: the tokens and the diagnostics of two texts with a
  boundary between them are those of the first and then those of the second.
-/

namespace ShellLexer

/-- No token reaches from the end of the text `as` into the text `bs` after it. -/
def TokenBoundary (as bs : List Char) : Prop :=
  ∀ c d, as.getLast? = some c → bs.head? = some d →
    ¬ (isNameChar c ∧ isNameChar d) ∧ ¬ (isBlank c ∧ isBlank d) ∧
      Punctuation.ofPair? c d = none ∧ ¬ (['<', '<'] <:+ as ∧ d = '-')

/-- Every newline is at a boundary. -/
theorem tokenBoundary_newline (as bs : List Char) : TokenBoundary as ('\n' :: bs) := by
  intro c d _ hd
  obtain rfl : '\n' = d := Option.some.inj hd
  refine ⟨fun h => absurd h.2 (by decide), fun h => absurd h.2 (by decide), ?_,
    fun h => absurd h.2 (by decide)⟩
  by_contra hPair
  obtain ⟨o, ho⟩ := Option.ne_none_iff_exists'.mp hPair
  exact absurd (Punctuation.isSome_ofChar?_of_ofPair? ho).2 (by decide)

namespace Scan

/-! ## The step across a boundary -/

/-- What is pending is complete in front of a boundary. -/
theorem Plain.Pending.endsBefore_of_boundary {n : Nat} {src as bs : List Char} {d : Char}
    {p : Plain (List Char)} (h : p.Pending n src) (hSuffix : src <:+ as)
    (hBoundary : TokenBoundary as (d :: bs)) (hOpen : ∀ start text, p ≠ .singleQuoted start text) :
    p.EndsBefore d := by
  obtain ⟨front, rfl⟩ := hSuffix
  have hLast : ∀ c, src.getLast? = some c → (front ++ src).getLast? = some c := by
    intro c hc
    rw [List.getLast?_append, hc, Option.some_or]
  cases h with
  | nothing => trivial
  | blanks hNe hAll =>
    have hc := hBoundary _ d (hLast _ (List.getLast?_eq_some_getLast hNe)) rfl
    exact fun hd => hc.2.1 ⟨hAll _ (List.getLast_mem hNe), hd⟩
  | word hNe hAll =>
    have hc := hBoundary _ d (hLast _ (List.getLast?_eq_some_getLast hNe)) rfl
    exact fun hd => hc.1 ⟨hAll _ (List.getLast_mem hNe), hd⟩
  | @operator c _ =>
    have hc := hBoundary c d (hLast c rfl) rfl
    exact hc.2.2.1
  | doubleLess =>
    have hc := hBoundary '<' d (hLast '<' rfl) rfl
    exact fun hd => hc.2.2.2 ⟨List.suffix_append _ _, hd⟩
  | singleQuoted _ => exact absurd rfl (hOpen _ _)

/-- From a boundary on, a scan finds what is pending and then what a scan of the rest finds. -/
theorem Plain.Pending.eventsFrom_of_boundary {n : Nat} {src as bs : List Char}
    {p : Plain (List Char)} (h : p.Pending n src) (hSuffix : src <:+ as)
    (hBoundary : TokenBoundary as bs) (hOpen : ∀ start text, p ≠ .singleQuoted start text)
    (limit : Option Nat) (position : Nat) :
    eventsFrom limit ⟨position, .plain p⟩ bs =
      p.finish ++ eventsFrom limit (⟨position, .plain .nothing⟩ : Config (List Char)) bs := by
  cases bs with
  | nil => exact (List.append_nil _).symm
  | cons d bs =>
    have hEnds := h.endsBefore_of_boundary hSuffix hBoundary hOpen
    have hStep := Plain.step_of_endsBefore hEnds position
    simp only [eventsFrom, Config.step, State.step, hStep, Plain.enterAfter, List.append_assoc]
    rfl

/-- **A scan of two texts with a boundary between them**, the first of which leaves no quote
open, finds what a scan of each finds. -/
theorem eventsFrom_append_of_boundary (limit : Option Nat) {as bs : List Char}
    (hClosed : ∀ position, ∀ e ∈ eventsFrom limit (Config.initial : Config (List Char)) as,
      e ≠ .fault .unclosedSingleQuote position ∧ e ≠ .fault .unclosedDoubleQuote position)
    (hBoundary : TokenBoundary as bs) :
    eventsFrom limit (Config.initial : Config (List Char)) (as ++ bs) =
      eventsFrom limit (Config.initial : Config (List Char)) as ++
        (eventsFrom limit (Config.initial : Config (List Char)) bs).map
          (Event.shift as.length) := by
  obtain ⟨hPosition, done, rest, hSource, -, hPending⟩ := explainedUpTo_after limit as
  rw [eventsFrom_append, eventsFrom_eq_found_append_finish limit _ as, List.append_assoc]
  rw [eventsFrom_eq_found_append_finish] at hClosed
  congr 1
  rcases hNow : Config.after limit (Config.initial : Config (List Char)) as with ⟨position, state⟩
  rw [hNow] at hPosition hPending hClosed
  obtain rfl : position = as.length := hPosition
  have hShift := eventsFrom_shift as.length limit (.plain .nothing : State (List Char)) 0 bs
  rw [Nat.zero_add] at hShift
  cases hPending with
  | @plain src p hp =>
    rw [sourceOf_keepAll] at hSource
    have hOpen : ∀ start text, p ≠ .singleQuoted start text := by
      rintro start text rfl
      exact (hClosed start _ (List.mem_append_right _ (List.mem_singleton.mpr rfl))).1 rfl
    rw [hp.eventsFrom_of_boundary ⟨_, hSource⟩ hBoundary hOpen]
    exact congrArg (p.finish ++ ·) hShift
  | @quoted _ q _ =>
    have hMem : Event.fault .unclosedDoubleQuote q.start ∈ q.finish := by
      rw [Quoted.finish_eq]
      simp [Quoted.unclosed]
    exact absurd rfl (hClosed q.start _ (List.mem_append_right _ hMem)).2

end Scan

/-! ## Scanning in parts -/

/-- Two scans as one, the second of a text that starts at `position`. -/
def Lexed.append (lexed : Lexed) (position : Nat) (next : Lexed) : Lexed where
  tokens := lexed.tokens ++ next.tokens
  diagnostics := lexed.diagnostics ++ next.diagnostics.map (Diagnostic.shift position)

theorem filterMap_token?_shift (k : Nat) (es : List Scan.Event) :
    (es.map (Scan.Event.shift k)).filterMap Scan.Event.token? =
      es.filterMap Scan.Event.token? := by
  rw [List.filterMap_map]
  exact List.filterMap_congr fun e _ => by cases e <;> rfl

theorem filterMap_diagnostic?_shift (k : Nat) (es : List Scan.Event) :
    (es.map (Scan.Event.shift k)).filterMap Scan.Event.diagnostic? =
      (es.filterMap Scan.Event.diagnostic?).map (Diagnostic.shift k) := by
  rw [List.filterMap_map, List.map_filterMap]
  exact List.filterMap_congr fun e _ => by cases e <;> rfl

/-- **Texts can be scanned in parts.**  If the first of two texts leaves no quote open and no
token reaches across, which is so in front of every newline, then the tokens and the
diagnostics of both together are those of the first followed by those of the second, the latter
moved by the length of the first. -/
theorem tokenize_append (a b : String)
    (hClosed : ∀ d ∈ (tokenize a).diagnostics,
      d.fault ≠ .unclosedSingleQuote ∧ d.fault ≠ .unclosedDoubleQuote)
    (hBoundary : TokenBoundary a.toList b.toList ∨ b.toList.head? = some '\n') :
    tokenize (a ++ b) = (tokenize a).append a.length (tokenize b) := by
  have hCut : TokenBoundary a.toList b.toList := by
    rcases hBoundary with h | h
    · exact h
    · obtain ⟨bs, hb⟩ := List.head?_eq_some_iff.mp h
      rw [hb]
      exact tokenBoundary_newline _ bs
  have hEvents : events (a ++ b) = events a ++ (events b).map (Scan.Event.shift a.length) := by
    rw [events_eq, events_eq, events_eq, String.toList_append, ← String.length_toList]
    refine Scan.eventsFrom_append_of_boundary _ ?_ hCut
    rw [← events_eq]
    exact forall_events_ne_unclosed hClosed
  have hTokens : (tokenize (a ++ b)).tokens = (tokenize a).tokens ++ (tokenize b).tokens := by
    rw [tokenize_tokens, tokenize_tokens, tokenize_tokens, hEvents, List.filterMap_append,
      filterMap_token?_shift]
  have hDiagnostics : (tokenize (a ++ b)).diagnostics =
      (tokenize a).diagnostics ++ (tokenize b).diagnostics.map (Diagnostic.shift a.length) := by
    rw [tokenize_diagnostics, tokenize_diagnostics, tokenize_diagnostics, hEvents,
      List.filterMap_append, filterMap_diagnostic?_shift]
  exact congrArg₂ Lexed.mk hTokens hDiagnostics

/-- An operator that the next text does not go on with, behind a substitution with a fault. -/
theorem tokenize_append_operator :
    tokenize ("a\"$(b@)\"<" ++ "é-'c'") = (tokenize "a\"$(b@)\"<").append 9 (tokenize "é-'c'") := by
  have hClosed : ∀ d ∈ (tokenize "a\"$(b@)\"<").diagnostics,
      d.fault ≠ .unclosedSingleQuote ∧ d.fault ≠ .unclosedDoubleQuote := by decide +kernel
  have hBoundary : TokenBoundary "a\"$(b@)\"<".toList "é-'c'".toList := by
    intro c d hc hd
    obtain rfl : '<' = c := Option.some.inj hc
    obtain rfl : 'é' = d := Option.some.inj hd
    decide
  exact tokenize_append _ _ hClosed (Or.inl hBoundary)

end ShellLexer
