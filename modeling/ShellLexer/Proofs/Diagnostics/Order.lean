import ShellLexer.Proofs.Scan.EndFaults
import ShellLexer.Proofs.Growth
import ShellLexer.Proofs.Grammar.Derived

/-!
# The order of the diagnostics

While a text is read its reports point further and further behind, and at its
end the constructs left open are reported from the inside out, so those point
further and further in front.  What carries the proof is where the constructs
that are open start (`State.starts`): in front of everything that can still be
reported (`State.bound`), and never where something is reported.

* `State.Steps.advance`: what a step reports, and which construct it opens.
* `Ordered.advance`: steps like that keep the reports and the open constructs in order.
* `tokenize_diagnostics_inOrder`: the shape of the diagnostics of a text.
-/

namespace ShellLexer

/-- The faults of a construct that is left open. -/
def Fault.isUnclosed : Fault → Bool
  | unclosedSingleQuote | unclosedDoubleQuote | unclosedCommand | unclosedParameter => true
  | _ => false

namespace Scan

/-- Where the reports among the events point. -/
def positionsOf (es : List Event) : List Nat :=
  (es.filterMap Event.diagnostic?).map (·.position)

theorem positionsOf_append (es fs : List Event) :
    positionsOf (es ++ fs) = positionsOf es ++ positionsOf fs := by
  rw [positionsOf, List.filterMap_append, List.map_append]
  rfl

/-! ## Constructs that are open -/

section Open

variable {β : Type}

/-- The start of what is pending and may be reported once the next character is read. -/
def State.pending? : State β → Option Nat
  | .plain (.operator start _) => some start
  | .quoted ⟨_, _, _, .dollar start⟩ => some start
  | _ => none

/-- Where the next report points at the earliest. -/
def State.bound (position : Nat) (s : State β) : Nat := s.pending?.getD position

def Inner.starts : Inner β → List Nat
  | parameter p => [p.start]
  | nothing | backslash | dollar _ | word _ => []

/-- Where the constructs that are open start, innermost first. -/
def State.starts : State β → List Nat
  | .plain (.singleQuoted start _) => [start]
  | .plain _ => []
  | .quoted q => q.inner.starts ++ (q.commands.map (·.start) ++ [q.start])

end Open

/-! ## Reports in order -/

/-- The reports so far point one behind the other, the open constructs start one in front of the
other, both in front of `bound`, and nothing is reported where a construct starts. -/
structure Ordered (reports starts : List Nat) (bound : Nat) : Prop where
  increasing : reports.Pairwise (· < ·)
  reports_lt : ∀ n ∈ reports, n < bound
  decreasing : starts.Pairwise (· > ·)
  starts_lt : ∀ n ∈ starts, n < bound
  apart : ∀ n ∈ reports, n ∉ starts

/-- The events report from `bound` on and in front of `bound'`. What is open behind them was open
before, or one construct has opened where nothing is reported. -/
structure Advance (bound : Nat) (starts : List Nat) (es : List Event) (bound' : Nat)
    (starts' : List Nat) : Prop where
  le : bound ≤ bound'
  increasing : (positionsOf es).Pairwise (· < ·)
  within : ∀ n ∈ positionsOf es, bound ≤ n ∧ n < bound'
  starts : starts' <:+ starts ∨
    ∃ n, starts' = n :: starts ∧ bound ≤ n ∧ n < bound' ∧ n ∉ positionsOf es

theorem Ordered.nil : Ordered [] [] 0 := ⟨.nil, nofun, .nil, nofun, nofun⟩

theorem Ordered.advance {reports starts starts' : List Nat} {bound bound' : Nat}
    {es : List Event} (h : Ordered reports starts bound)
    (hStep : Advance bound starts es bound' starts') :
    Ordered (reports ++ positionsOf es) starts' bound' := by
  have hReports : ∀ n ∈ reports, n < bound' := fun n hn =>
    Nat.lt_of_lt_of_le (h.reports_lt n hn) hStep.le
  have hStarts : ∀ n ∈ starts, n < bound' := fun n hn =>
    Nat.lt_of_lt_of_le (h.starts_lt n hn) hStep.le
  have hApart : ∀ n ∈ reports ++ positionsOf es, n ∉ starts := by
    intro n hn hStart
    rcases List.mem_append.mp hn with hn | hn
    · exact h.apart n hn hStart
    · have hLt := h.starts_lt n hStart
      have hLe := (hStep.within n hn).1
      omega
  refine ⟨?_, ?_, ?_, ?_, ?_⟩
  · refine List.pairwise_append.mpr ⟨h.increasing, hStep.increasing, ?_⟩
    intro m hm n hn
    exact Nat.lt_of_lt_of_le (h.reports_lt m hm) (hStep.within n hn).1
  · intro n hn
    rcases List.mem_append.mp hn with hn | hn
    · exact hReports n hn
    · exact (hStep.within n hn).2
  · rcases hStep.starts with hSuffix | ⟨n, rfl, hLe, -, -⟩
    · exact h.decreasing.sublist hSuffix.sublist
    · refine List.pairwise_cons.mpr ⟨?_, h.decreasing⟩
      intro m hm
      exact Nat.lt_of_lt_of_le (h.starts_lt m hm) hLe
  · rcases hStep.starts with hSuffix | ⟨n, rfl, -, hLt, -⟩
    · exact fun n hn => hStarts n (hSuffix.subset hn)
    · exact List.forall_mem_cons.mpr ⟨hLt, hStarts⟩
  · intro n hn
    rcases hStep.starts with hSuffix | ⟨m, rfl, hLe, -, hNew⟩
    · exact fun hStart => hApart n hn (hSuffix.subset hStart)
    · refine List.not_mem_cons_of_ne_of_not_mem ?_ (hApart n hn)
      rintro rfl
      rcases List.mem_append.mp hn with hn | hn
      · have hLt := h.reports_lt n hn
        omega
      · exact hNew hn

namespace Advance

variable {bound bound' middle n : Nat} {starts starts' : List Nat} {es front : List Event}

/-- Nothing is reported. -/
theorem silent (hNone : positionsOf es = []) (hLe : bound ≤ bound') (hStarts : starts' <:+ starts) :
    Advance bound starts es bound' starts' := by
  refine ⟨hLe, ?_, ?_, Or.inl hStarts⟩
  · rw [hNone]
    exact .nil
  · rw [hNone]
    exact nofun

/-- A construct opens at `n`. -/
theorem opens (hNone : positionsOf es = []) (hLe : bound ≤ n) (hLt : n < bound') :
    Advance bound starts es bound' (n :: starts) := by
  have hSilent : Advance bound starts es bound' starts :=
    .silent hNone (by omega) List.suffix_rfl
  refine ⟨hSilent.le, hSilent.increasing, hSilent.within, Or.inr ⟨n, rfl, hLe, hLt, ?_⟩⟩
  rw [hNone]
  exact List.not_mem_nil

/-- There is one report, which points at `n`. -/
theorem report (hOne : positionsOf es = [n]) (hLe : bound ≤ n) (hLt : n < bound')
    (hStarts : starts' <:+ starts) : Advance bound starts es bound' starts' := by
  refine ⟨by omega, ?_, ?_, Or.inl hStarts⟩
  · rw [hOne]
    exact List.pairwise_singleton _ n
  · rw [hOne]
    exact List.forall_mem_singleton.mpr ⟨hLe, hLt⟩

theorem token (t : Token) (h : Advance bound starts es bound' starts') :
    Advance bound starts (.token t :: es) bound' starts' :=
  ⟨h.le, h.increasing, h.within, h.starts⟩

/-- What is reported in front points in front. -/
theorem after (hFront : Advance bound starts front middle starts)
    (h : Advance middle starts es bound' starts') :
    Advance bound starts (front ++ es) bound' starts' := by
  have hLe := hFront.le
  have hLe' := h.le
  refine ⟨by omega, ?_, ?_, ?_⟩
  · rw [positionsOf_append]
    refine List.pairwise_append.mpr ⟨hFront.increasing, h.increasing, ?_⟩
    intro m hm n hn
    exact Nat.lt_of_lt_of_le (hFront.within m hm).2 (h.within n hn).1
  · rw [positionsOf_append]
    intro n hn
    rcases List.mem_append.mp hn with hn | hn
    · have hWithin := hFront.within n hn
      omega
    · have hWithin := h.within n hn
      omega
  · refine h.starts.imp_right ?_
    rintro ⟨n, rfl, hMiddle, hLt, hNew⟩
    refine ⟨n, rfl, by omega, hLt, ?_⟩
    rw [positionsOf_append]
    intro hMem
    rcases List.mem_append.mp hMem with hMem | hMem
    · have hWithin := hFront.within n hMem
      omega
    · exact hNew hMem

end Advance

/-! ## What a step reports -/

section Steps

variable {limit : Option Nat} {position start : Nat} {text : List Char} {commands : List Command}
variable {c : Char} {s s' : State (List Char)} {es : List Event}

/-- What is pending is the character in front. -/
def State.PendingLast (position : Nat) (s : State (List Char)) : Prop :=
  ∀ n ∈ s.pending?, n + 1 = position

theorem Plain.Enters.pendingLast (h : Plain.Enters position c s es) :
    s.PendingLast (position + 1) := by
  cases h with
  | operator =>
    rintro n ⟨⟩
    rfl
  | newline | blank | name | singleQuote | doubleQuote | unexpected => exact nofun

theorem Quoted.Dollars.pendingLast {depth : Nat} {inner : Inner (List Char)}
    (h : Quoted.Dollars limit position depth inner es) :
    State.PendingLast (position + 1) (.quoted ⟨start, text, commands, inner⟩) := by
  cases h with
  | opens =>
    rintro n ⟨⟩
    rfl
  | deep => exact nofun

theorem Quoted.Enters.pendingLast
    (h : Quoted.Enters limit position start text commands c s es) :
    s.PendingLast (position + 1) := by
  cases h with
  | textDollar hDollars => exact hDollars.pendingLast
  | commandDollar hDollars => exact hDollars.pendingLast
  | close | backslash | literal | openParen | closeParen | closeCommand | name | unhandled =>
    exact nofun

theorem State.Steps.pendingLast (h : State.Steps limit position s c s' es) :
    s'.PendingLast (position + 1) := by
  cases h with
  | plain hStep =>
    cases hStep with
    | ended _ hEnters => exact hEnters.pendingLast
    | blank | name | doubleLess | pair | doubleLessDash | quotedChar | closingQuote => exact nofun
  | quoted hStep =>
    cases hStep with
    | enter hEnters => exact hEnters.pendingLast
    | invalid _ _ _ hEnters => exact hEnters.pendingLast
    | nameEnd _ hEnters => exact hEnters.pendingLast
    | escaped | continued | unescaped | openCommand | openParameter | dollarName | name
    | parameter | parameterEnd => exact nofun

/-! ### Outside double quotes -/

theorem Plain.Enters.advance (h : Plain.Enters position c s es) :
    Advance position [] es (s.bound (position + 1)) s.starts := by
  have hNext : position < position + 1 := Nat.lt_succ_self position
  cases h with
  | newline | blank | name => exact .silent rfl (Nat.le_of_lt hNext) List.suffix_rfl
  | singleQuote | doubleQuote => exact .opens rfl (Nat.le_refl position) hNext
  | operator => exact .silent rfl (Nat.le_refl position) List.suffix_rfl
  | unexpected => exact .report rfl (Nat.le_refl position) hNext List.suffix_rfl

theorem positionsOf_singleEvent (start : Nat) (c : Char) :
    positionsOf [singleEvent start c] = [] ∨ positionsOf [singleEvent start c] = [start] := by
  unfold singleEvent
  split
  · exact Or.inl rfl
  · exact Or.inr rfl

theorem Plain.finish_advance {p : Plain (List Char)}
    (hOpen : ∀ start text, p ≠ .singleQuoted start text)
    (hLast : State.PendingLast position (.plain p)) :
    Advance (State.bound position (.plain p)) [] p.finish position [] := by
  cases p with
  | nothing | blanks | word | doubleLess =>
    exact .silent rfl (Nat.le_refl position) List.suffix_rfl
  | operator start first =>
    obtain rfl := hLast start rfl
    rcases positionsOf_singleEvent start first with hNone | hOne
    · exact .silent hNone (Nat.le_succ start) List.suffix_rfl
    · exact .report hOne (Nat.le_refl start) (Nat.lt_succ_self start) List.suffix_rfl
  | singleQuoted => exact absurd rfl (hOpen _ _)

theorem Plain.starts_eq_nil {p : Plain (List Char)}
    (hOpen : ∀ start text, p ≠ .singleQuoted start text) : State.starts (.plain p) = [] := by
  cases p with
  | nothing | blanks | word | operator | doubleLess => rfl
  | singleQuoted => exact absurd rfl (hOpen _ _)

theorem Plain.Steps.advance {p : Plain (List Char)} (h : Plain.Steps position p c s es)
    (hLast : State.PendingLast position (.plain p)) :
    Advance (State.bound position (.plain p)) (State.starts (.plain p)) es
      (s.bound (position + 1)) s.starts := by
  have hNext := Nat.le_succ position
  cases h with
  | ended hEnds hEnters =>
    have hFinish := Plain.finish_advance hEnds.not_singleQuoted hLast
    rw [Plain.starts_eq_nil hEnds.not_singleQuoted]
    exact hFinish.after hEnters.advance
  | blank | name | doubleLessDash | quotedChar => exact .silent rfl hNext List.suffix_rfl
  | @doubleLess start | @pair start =>
    obtain rfl := hLast start rfl
    exact .silent rfl (by simp only [State.bound, State.pending?, Option.getD]; omega)
      List.suffix_rfl
  | closingQuote => exact .silent rfl hNext List.nil_suffix

/-! ### Inside a parameter expansion -/

theorem Parameter.positionsOf_nameEvent (text : List Char) (position : Nat) (o : Punctuation) :
    positionsOf [nameEvent text position, .punctuation o] = [] ∨
      positionsOf [nameEvent text position, .punctuation o] = [position] := by
  unfold nameEvent
  split
  · exact Or.inr rfl
  · exact Or.inl rfl

theorem Parameter.Reads.positionsOf_eq {p : Parameter (List Char)}
    {next : Option (Parameter (List Char))} (h : Parameter.Reads position p c next es) :
    positionsOf es = [] ∨ positionsOf es = [position] := by
  cases h with
  | close | backslash | collect => exact Or.inl rfl
  | colon | choice => exact Parameter.positionsOf_nameEvent p.text position _
  | trim =>
    refine Or.inl ?_
    unfold optionalName
    split
    · rfl
    · rfl

theorem Parameter.Steps.positionsOf_eq {p : Parameter (List Char)}
    {next : Option (Parameter (List Char))} (h : Parameter.Steps position p c next es) :
    positionsOf es = [] ∨ positionsOf es = [position] := by
  cases h with
  | read hReads => exact hReads.positionsOf_eq
  | escaped | afterColon | twice => exact Or.inl rfl

theorem Parameter.Steps.start_eq {p p' : Parameter (List Char)}
    (h : Parameter.Steps position p c (some p') es) : p'.start = p.start := by
  have hSettled : p.settled.start = p.start := by
    unfold settled
    split <;> rfl
  cases h with
  | read hReads =>
    cases hReads with
    | backslash | collect | colon | choice | trim => exact hSettled
  | escaped | afterColon | twice => rfl

/-- A step inside an expansion reports the character at most. -/
theorem Parameter.Steps.advance {p : Parameter (List Char)}
    {next : Option (Parameter (List Char))} {starts starts' : List Nat}
    (h : Parameter.Steps position p c next es) (hStarts : starts' <:+ starts) :
    Advance position starts es (position + 1) starts' := by
  rcases h.positionsOf_eq with hNone | hOne
  · exact .silent hNone (Nat.le_succ position) hStarts
  · exact .report hOne (Nat.le_refl position) (Nat.lt_succ_self position) hStarts

/-! ### Inside double quotes -/

theorem Quoted.Dollars.advance {depth : Nat} {inner : Inner (List Char)} {text' : List Char}
    (h : Quoted.Dollars limit position depth inner es) :
    Advance position (State.starts (.quoted ⟨start, text, commands, .nothing⟩)) es
      (State.bound (position + 1) (.quoted ⟨start, text', commands, inner⟩))
      (State.starts (.quoted ⟨start, text', commands, inner⟩)) := by
  cases h with
  | opens => exact .silent rfl (Nat.le_refl position) List.suffix_rfl
  | deep => exact .report rfl (Nat.le_refl position) (Nat.lt_succ_self position) List.suffix_rfl

theorem Quoted.Enters.advance (h : Quoted.Enters limit position start text commands c s es) :
    Advance position (State.starts (.quoted ⟨start, text, commands, .nothing⟩)) es
      (s.bound (position + 1)) s.starts := by
  have hNext := Nat.le_succ position
  cases h with
  | close =>
    refine .silent ?_ hNext List.nil_suffix
    unfold lastSegment
    split
    · rfl
    · rfl
  | textDollar hDollars => exact .token _ hDollars.advance
  | commandDollar hDollars => exact hDollars.advance
  | backslash | literal | openParen | closeParen | name =>
    exact .silent rfl hNext List.suffix_rfl
  | closeCommand => exact .silent rfl hNext (List.suffix_cons _ _)
  | unhandled =>
    exact .report rfl (Nat.le_refl position) (Nat.lt_succ_self position) List.suffix_rfl

theorem Quoted.Steps.advance {inner : Inner (List Char)}
    (h : Quoted.Steps limit position start text commands inner c s es)
    (hLast : State.PendingLast position (.quoted ⟨start, text, commands, inner⟩)) :
    Advance (State.bound position (.quoted ⟨start, text, commands, inner⟩))
      (State.starts (.quoted ⟨start, text, commands, inner⟩)) es
      (s.bound (position + 1)) s.starts := by
  have hNext := Nat.le_succ position
  cases h with
  | enter hEnters => exact hEnters.advance
  | escaped | continued | unescaped | name => exact .silent rfl hNext List.suffix_rfl
  | @openCommand dollarStart | @openParameter dollarStart =>
    obtain rfl := hLast dollarStart rfl
    exact .opens rfl (Nat.le_succ dollarStart) (Nat.lt_succ_self _)
  | @dollarName dollarStart =>
    obtain rfl := hLast dollarStart rfl
    exact .silent rfl (Nat.le_trans (Nat.le_succ dollarStart) hNext) List.suffix_rfl
  | @invalid dollarStart _ _ _ _ _ _ hEnters =>
    obtain rfl := hLast dollarStart rfl
    have hReport : Advance dollarStart
        (State.starts (.quoted ⟨start, text, commands, .nothing⟩))
        [.fault (.invalidExpansion c) dollarStart] (dollarStart + 1)
        (State.starts (.quoted ⟨start, text, commands, .nothing⟩)) :=
      .report rfl (Nat.le_refl dollarStart) (Nat.lt_succ_self dollarStart) List.suffix_rfl
    exact hReport.after hEnters.advance
  | nameEnd _ hEnters => exact .token _ hEnters.advance
  | parameter hSteps =>
    refine hSteps.advance ?_
    simp only [State.starts, Inner.starts, hSteps.start_eq]
    exact List.suffix_rfl
  | parameterEnd hSteps => exact hSteps.advance (List.suffix_cons _ _)

/-- **What a step reports** points at what was pending or at the character it reads, and a
construct that opens there is not reported. -/
theorem State.Steps.advance (h : State.Steps limit position s c s' es)
    (hLast : s.PendingLast position) :
    Advance (s.bound position) s.starts es (s'.bound (position + 1)) s'.starts := by
  cases h with
  | plain hStep => exact hStep.advance hLast
  | quoted hStep => exact hStep.advance hLast

end Steps

/-- Behind the characters read so far the reports and the open constructs are in order, and
expansions nest at most `n` levels deep. -/
structure ReadInOrder (n : Nat) (now : Config (List Char)) (es : List Event) : Prop where
  ordered : Ordered (positionsOf es) now.state.starts (now.state.bound now.position)
  pendingLast : now.state.PendingLast now.position
  nested : now.state.Nested n

theorem ReadInOrder.initial (n : Nat) : ReadInOrder n Config.initial [] := ⟨.nil, nofun, trivial⟩

theorem ReadInOrder.step {n : Nat} {now : Config (List Char)} {es : List Event}
    (h : ReadInOrder n now es) (c : Char) :
    ReadInOrder n (now.step (some n) c).1 (es ++ (now.step (some n) c).2) := by
  obtain ⟨position, s⟩ := now
  have hStep := s.steps (some n) position c
  refine ⟨?_, hStep.pendingLast, h.nested.step hStep⟩
  rw [positionsOf_append]
  exact h.ordered.advance (hStep.advance h.pendingLast)

/-- **A text is read in order**, however far. -/
theorem readInOrder_found (n : Nat) (cs : List Char) :
    ReadInOrder n (Config.after (some n) (Config.initial : Config (List Char)) cs)
      (Config.found (some n) (Config.initial : Config (List Char)) cs) :=
  Config.after_found_induction (P := fun _ now es => ReadInOrder n now es) (.initial n)
    (fun c h => h.step c) cs

/-! ## What the end of the text reports -/

/-- The faults of the constructs that a text can leave open, innermost first: single quotes, or
double quotes with command substitutions in them and perhaps a parameter expansion in those. -/
inductive UnclosedFaults : List Fault → Prop
  | nothing : UnclosedFaults []
  | singleQuote : UnclosedFaults [.unclosedSingleQuote]
  | doubleQuote {n : Nat} (depth : n ≤ maxExpansionDepth) :
      UnclosedFaults (List.replicate n .unclosedCommand ++ [.unclosedDoubleQuote])
  | parameter {n : Nat} (depth : n ≤ maxExpansionDepth) :
      UnclosedFaults
        (.unclosedParameter :: (List.replicate n .unclosedCommand ++ [.unclosedDoubleQuote]))

/-- The end of the text reports `last` about what is pending and `unclosed` about what is open. -/
structure State.Closing (position : Nat) (s : State (List Char)) (last unclosed : List Diagnostic) :
    Prop where
  finish : s.finish.filterMap Event.diagnostic? = last ++ unclosed
  last_position : last = [] ∨ ∃ f, last = [⟨f, s.bound position⟩] ∧ f.isUnclosed = false
  positions : unclosed.map (·.position) = s.starts
  faults : UnclosedFaults (unclosed.map (·.fault))
  double : ∀ d ∈ last, d.fault = .endAfterDollar →
    ∃ n, unclosed.map (·.fault) = List.replicate n .unclosedCommand ++ [.unclosedDoubleQuote]

theorem Plain.exists_closing (position : Nat) (p : Plain (List Char)) :
    ∃ last unclosed, State.Closing position (.plain p) last unclosed := by
  cases p with
  | nothing | blanks | word | doubleLess =>
    exact ⟨[], [], rfl, Or.inl rfl, rfl, .nothing, nofun⟩
  | operator start first =>
    cases hOp : Punctuation.ofChar? first with
    | some o =>
      refine ⟨[], [], ?_, Or.inl rfl, rfl, .nothing, nofun⟩
      simp only [State.finish, Plain.finish, singleEvent, hOp]
      rfl
    | none =>
      refine ⟨[⟨.unhandledPunctuation first, start⟩], [], ?_, Or.inr ⟨_, rfl, rfl⟩, rfl, .nothing,
        ?_⟩
      · simp only [State.finish, Plain.finish, singleEvent, hOp]
        rfl
      · rintro d hd hFault
        obtain rfl := List.mem_singleton.mp hd
        cases hFault
  | singleQuoted start text =>
    exact ⟨[], [⟨.unclosedSingleQuote, start⟩], rfl, Or.inl rfl, rfl, .singleQuote, nofun⟩

/-- The reports about command substitutions left open, and about the double quotes around them. -/
def Quoted.unclosedReports (q : Quoted (List Char)) : List Diagnostic :=
  q.commands.map (fun command => ⟨.unclosedCommand, command.start⟩) ++
    [⟨.unclosedDoubleQuote, q.start⟩]

theorem Quoted.unclosed_reports (q : Quoted (List Char)) :
    q.unclosed.filterMap Event.diagnostic? = q.unclosedReports := by
  rw [Quoted.unclosed, List.filterMap_append, List.filterMap_map]
  exact congrArg (· ++ _) (congrFun List.filterMap_eq_map' q.commands)

theorem Quoted.unclosedReports_positions (q : Quoted (List Char)) :
    q.unclosedReports.map (·.position) = q.commands.map (·.start) ++ [q.start] := by
  simp [Quoted.unclosedReports, Function.comp_def]

theorem Quoted.unclosedReports_faults (q : Quoted (List Char)) :
    q.unclosedReports.map (·.fault) =
      List.replicate q.commands.length .unclosedCommand ++ [.unclosedDoubleQuote] := by
  simp [Quoted.unclosedReports, Function.comp_def, List.map_const']

theorem State.Nested.length_commands_le {n : Nat} {q : Quoted (List Char)}
    (h : State.Nested n (.quoted q)) : q.commands.length ≤ n := by
  obtain ⟨start, text, commands, inner⟩ := q
  cases inner with
  | nothing | backslash | word => exact h
  | dollar => exact Nat.le_of_lt h
  | parameter => exact h.1

theorem Quoted.exists_closing (position : Nat) {q : Quoted (List Char)}
    (hNested : State.Nested maxExpansionDepth (.quoted q)) :
    ∃ last unclosed, State.Closing position (.quoted q) last unclosed := by
  have hDepth := hNested.length_commands_le
  have hPositions := q.unclosedReports_positions
  have hFaults := q.unclosedReports_faults
  have hFinish : (State.quoted q).finish.filterMap Event.diagnostic? =
      q.inner.finish.filterMap Event.diagnostic? ++ q.unclosedReports := by
    rw [← q.unclosed_reports, ← List.filterMap_append, ← q.finish_eq]
    rfl
  have hOpen : UnclosedFaults (q.unclosedReports.map (·.fault)) := by
    rw [hFaults]
    exact .doubleQuote hDepth
  obtain ⟨start, text, commands, inner⟩ := q
  cases inner with
  | nothing | backslash | word =>
    exact ⟨[], _, hFinish, Or.inl rfl, hPositions, hOpen, nofun⟩
  | dollar dollarStart =>
    exact ⟨[⟨.endAfterDollar, dollarStart⟩], _, hFinish, Or.inr ⟨_, rfl, rfl⟩, hPositions, hOpen,
      fun _ _ _ => ⟨_, hFaults⟩⟩
  | parameter p =>
    refine ⟨[], ⟨.unclosedParameter, p.start⟩ ::
      Quoted.unclosedReports ⟨start, text, commands, .parameter p⟩, hFinish, Or.inl rfl, ?_, ?_,
      nofun⟩
    · exact congrArg (p.start :: ·) hPositions
    · rw [List.map_cons, hFaults]
      exact .parameter hDepth

theorem State.exists_closing (position : Nat) {s : State (List Char)}
    (hNested : s.Nested maxExpansionDepth) : ∃ last unclosed, s.Closing position last unclosed := by
  cases s with
  | plain p => exact p.exists_closing position
  | quoted q => exact Quoted.exists_closing position hNested

end Scan

open Scan

/-- The shape of the diagnostics of a text: what is reported while it is read, and what it leaves
open at its end. -/
structure InOrder (reports unclosed : List Diagnostic) : Prop where
  not_unclosed : ∀ d ∈ reports, d.fault.isUnclosed = false
  increasing : reports.Pairwise (·.position < ·.position)
  faults : UnclosedFaults (unclosed.map (·.fault))
  decreasing : unclosed.Pairwise (·.position > ·.position)
  /-- A dollar at the end of the text is reported last. -/
  dollar_last : ∀ d ∈ reports.dropLast, d.fault ≠ .endAfterDollar
  /-- It is in double quotes and in no parameter expansion. -/
  dollar_open : ∀ d ∈ reports, d.fault = .endAfterDollar →
    (unclosed.map (·.fault)).getLast? = some .unclosedDoubleQuote ∧
      .unclosedParameter ∉ unclosed.map (·.fault)
  apart : ((reports ++ unclosed).map (·.position)).Nodup

section InOrder

variable {position : Nat} {s : State (List Char)} {found : List Event}
variable {last unclosed : List Diagnostic}

theorem atEnd_of_mem_diagnostics (hEarly : BeforeEnd found) {d : Diagnostic}
    (hd : d ∈ found.filterMap Event.diagnostic?) : d.fault.atEnd = false := by
  obtain ⟨e, he, hEvent⟩ := List.mem_filterMap.mp hd
  have hNotEnd := hEarly e he
  cases e with
  | token => cases hEvent
  | diagnostic =>
    obtain rfl := Option.some.inj hEvent
    exact hNotEnd

theorem isUnclosed_of_not_atEnd {f : Fault} (h : f.atEnd = false) : f.isUnclosed = false := by
  cases f with
  | unclosedSingleQuote | unclosedDoubleQuote | unclosedCommand | unclosedParameter => cases h
  | _ => rfl

/-- The report about what is pending at the end points behind the others. -/
theorem Scan.State.Closing.exists_ordered (h : s.Closing position last unclosed)
    (hOrdered : Ordered (positionsOf found) s.starts (s.bound position)) :
    ∃ bound, Ordered ((found.filterMap Event.diagnostic? ++ last).map (·.position)) s.starts
      bound := by
  rw [List.map_append]
  rcases h.last_position with rfl | ⟨f, rfl, -⟩
  · rw [List.map_nil, List.append_nil]
    exact ⟨_, hOrdered⟩
  · have hReport : Advance (s.bound position) s.starts [.fault f (s.bound position)]
        (s.bound position + 1) s.starts :=
      .report rfl (Nat.le_refl _) (Nat.lt_succ_self _) List.suffix_rfl
    exact ⟨_, hOrdered.advance hReport⟩

theorem Scan.State.Closing.inOrder (h : s.Closing position last unclosed)
    (hOrdered : Ordered (positionsOf found) s.starts (s.bound position))
    (hEarly : BeforeEnd found) :
    InOrder (found.filterMap Event.diagnostic? ++ last) unclosed := by
  obtain ⟨bound, hReports⟩ := h.exists_ordered hOrdered
  have hDecreasing := hReports.decreasing
  rw [← h.positions] at hDecreasing
  refine ⟨?_, List.pairwise_map.mp hReports.increasing, h.faults,
    List.pairwise_map.mp hDecreasing, ?_, ?_, ?_⟩
  · intro d hd
    rcases List.mem_append.mp hd with hd | hd
    · exact isUnclosed_of_not_atEnd (atEnd_of_mem_diagnostics hEarly hd)
    · rcases h.last_position with rfl | ⟨f, rfl, hf⟩
      · exact absurd hd List.not_mem_nil
      · obtain rfl := List.mem_singleton.mp hd
        exact hf
  · intro d hd hFault
    have hFound : d ∈ found.filterMap Event.diagnostic? := by
      rcases h.last_position with rfl | ⟨f, rfl, -⟩
      · rw [List.append_nil] at hd
        exact List.dropLast_subset _ hd
      · rwa [List.dropLast_concat] at hd
    have hNotEnd := atEnd_of_mem_diagnostics hEarly hFound
    rw [hFault] at hNotEnd
    cases hNotEnd
  · intro d hd hFault
    rcases List.mem_append.mp hd with hd | hd
    · have hNotEnd := atEnd_of_mem_diagnostics hEarly hd
      rw [hFault] at hNotEnd
      cases hNotEnd
    · obtain ⟨n, hFaults⟩ := h.double d hd hFault
      rw [hFaults]
      refine ⟨List.getLast?_concat, ?_⟩
      intro hMem
      rcases List.mem_append.mp hMem with hMem | hMem
      · cases (List.mem_replicate.mp hMem).2
      · cases List.mem_singleton.mp hMem
  · rw [List.map_append, h.positions]
    refine List.nodup_append.mpr ⟨?_, ?_, ?_⟩
    · exact hReports.increasing.imp fun hLt => Nat.ne_of_lt hLt
    · exact hReports.decreasing.imp fun hLt => Nat.ne_of_gt hLt
    · rintro m hm n hn rfl
      exact hReports.apart m hm hn

end InOrder

/-- **The diagnostics of a text are in order.**  First come those about the text that is read,
from its start to its end, and then those about the constructs it leaves open, from the inside
out; no two of them point at the same place. -/
theorem tokenize_diagnostics_inOrder (text : String) :
    ∃ reports unclosed, (tokenize text).diagnostics = reports ++ unclosed ∧
      InOrder reports unclosed := by
  have hRead := readInOrder_found maxExpansionDepth text.toList
  have hEarly := found_beforeEnd (some maxExpansionDepth) (Config.initial : Config (List Char))
    text.toList
  obtain ⟨last, unclosed, hClosing⟩ := State.exists_closing _ hRead.nested
  refine ⟨_, unclosed, ?_, hClosing.inOrder hRead.ordered hEarly⟩
  rw [tokenize_diagnostics, events_eq, eventsFrom_eq_found_append_finish, List.filterMap_append,
    hClosing.finish, List.append_assoc]

end ShellLexer
