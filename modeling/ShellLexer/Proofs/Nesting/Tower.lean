import ShellLexer.Proofs.Template.Parameter

/-!
# Towers of command substitutions

`tower n m` opens double quotes, then `n` command substitutions one inside the
other, and closes `m` of them.  Up to the limit each `$(` opens a substitution
of its own.  Past it a `$` opens nothing, so the innermost substitution counts
the parentheses that follow, and takes as many closing ones before it ends.

What is open depends on the number of open parentheses alone, not on the limit
having been passed and left again (`towerStack`): closing a parenthesis undoes
opening it.

* `eventsFrom_opening`, `eventsFrom_closing`: one `$(` and one `)`.
* `tokenize_tower`: the tokens and the diagnostics of a tower.
-/

namespace ShellLexer

/-- Double quotes with `n` command substitutions opened in them and `m` of these closed again. -/
def tower (n m : Nat) : String :=
  String.ofList ('"' :: ((List.replicate n ['$', '(']).flatten ++ List.replicate m ')'))

namespace Scan

/-- One more parenthesis is open in the innermost command substitution. -/
def deepen : List Command → List Command
  | [] => []
  | ⟨start, nested⟩ :: outer => ⟨start, nested + 1⟩ :: outer

/-- The command substitutions of a tower with so many parentheses open in it. -/
def towerStack (limit : Nat) : Nat → List Command
  | 0 => []
  | depth + 1 =>
    if depth < limit then ⟨2 + 2 * depth, 0⟩ :: towerStack limit depth
    else deepen (towerStack limit depth)

/-- Where a scan of a tower stands with so many parentheses open. -/
def towerState (limit depth : Nat) : State (List Char) :=
  .quoted ⟨0, [], towerStack limit depth, .nothing⟩

/-- What is found of the `$(` inside so many others. -/
def openingEvents (limit depth : Nat) : List Event :=
  (if depth = 0 then [.segment ""] else []) ++ .punctuation .dollar ::
    ((if depth < limit then [] else [.fault .nestedTooDeeply (1 + 2 * depth)]) ++
      [.punctuation .leftParen])

variable {limit depth position : Nat} {rest : List Char}

/-! ## What is open in a tower -/

theorem starts_deepen (commands : List Command) :
    (deepen commands).map (·.start) = commands.map (·.start) := by
  cases commands <;> rfl

theorem starts_towerStack (limit depth : Nat) :
    (towerStack limit depth).map (·.start) =
      (List.range (min limit depth)).reverse.map fun i => 2 + 2 * i := by
  induction depth with
  | zero =>
    rw [Nat.min_zero]
    rfl
  | succ depth ih =>
    unfold towerStack
    by_cases hLimit : depth < limit
    · have hMin : min limit depth = depth := by omega
      have hMinSucc : min limit (depth + 1) = depth + 1 := by omega
      rw [hMin] at ih
      rw [if_pos hLimit, hMinSucc, List.range_succ, List.reverse_concat, List.map_cons, ih,
        List.map_cons]
    · have hMin : min limit (depth + 1) = min limit depth := by omega
      rw [if_neg hLimit, starts_deepen, ih, hMin]

theorem length_towerStack (limit depth : Nat) :
    (towerStack limit depth).length = min limit depth := by
  have hStarts := congrArg List.length (starts_towerStack limit depth)
  simpa using hStarts

/-- Past the limit the innermost substitution counts. -/
theorem exists_towerStack_of_le (hPos : 0 < limit) (h : limit ≤ depth) :
    ∃ start nested outer, towerStack limit depth = ⟨start, nested⟩ :: outer ∧
      towerStack limit (depth + 1) = ⟨start, nested + 1⟩ :: outer ∧ outer.length + 1 = limit := by
  have hLength := length_towerStack limit depth
  rw [Nat.min_eq_left h] at hLength
  have hNext : towerStack limit (depth + 1) = deepen (towerStack limit depth) := by
    rw [towerStack, if_neg (by omega)]
  cases hStack : towerStack limit depth with
  | nil =>
    rw [hStack, List.length_nil] at hLength
    omega
  | cons command outer =>
    rw [hStack] at hLength hNext
    exact ⟨command.start, command.nested, outer, rfl, hNext, hLength⟩

/-! ## Opening and closing -/

/-- A `$` past the limit. -/
theorem eventsFrom_deepDollar {start : Nat} {text : List Char} {command : Command}
    {outer : List Command} (h : limit ≤ outer.length + 1) :
    eventsFrom (some limit) ⟨position, .quoted ⟨start, text, command :: outer, .nothing⟩⟩
        ('$' :: rest) =
      .punctuation .dollar :: .fault .nestedTooDeeply position :: eventsFrom (some limit)
        ⟨position + 1, .quoted ⟨start, text, command :: outer, .nothing⟩⟩ rest := by
  have hDeep : Quoted.tooDeep (some limit) (outer.length + 1) := by
    simpa [Quoted.tooDeep] using h
  simp only [eventsFrom, Config.step, State.step, Quoted.step, Quoted.enter, Quoted.readCommand,
    Quoted.dollar, List.length_cons]
  rw [if_pos (by rfl), if_pos hDeep]
  rfl

theorem eventsFrom_opening (hPos : 0 < limit) :
    eventsFrom (some limit) ⟨1 + 2 * depth, towerState limit depth⟩ ('$' :: '(' :: rest) =
      openingEvents limit depth ++
        eventsFrom (some limit) ⟨1 + 2 * (depth + 1), towerState limit (depth + 1)⟩ rest := by
  have hPosition : 1 + 2 * depth + 1 = 2 + 2 * depth := by omega
  have hNext : 2 + 2 * depth + 1 = 1 + 2 * (depth + 1) := by omega
  unfold openingEvents towerState
  by_cases hLimit : depth < limit
  · have hStack : towerStack limit (depth + 1) = ⟨2 + 2 * depth, 0⟩ :: towerStack limit depth := by
      rw [towerStack, if_pos hLimit]
    rw [hStack, if_pos hLimit]
    cases depth with
    | zero =>
      rw [towerStack, eventsFrom_textDollar hPos, eventsFrom_dollarParen]
      rfl
    | succ depth =>
      have hBelow : towerStack limit (depth + 1) =
          ⟨2 + 2 * depth, 0⟩ :: towerStack limit depth := by
        rw [towerStack, if_pos (by omega)]
      have hLength := length_towerStack limit depth
      rw [hBelow, eventsFrom_bodyDollar (by omega), eventsFrom_dollarParen, hPosition, hNext,
        if_neg (Nat.succ_ne_zero depth)]
      rfl
  · obtain ⟨start, nested, outer, hStack, hDeeper, hLength⟩ :=
      exists_towerStack_of_le hPos (Nat.le_of_not_lt hLimit)
    rw [hStack, hDeeper, eventsFrom_deepDollar (by omega), eventsFrom_openParen, hPosition, hNext,
      if_neg hLimit, if_neg (by omega)]
    rfl

theorem eventsFrom_closing (hPos : 0 < limit) :
    eventsFrom (some limit) ⟨position, towerState limit (depth + 1)⟩ (')' :: rest) =
      .punctuation .rightParen ::
        eventsFrom (some limit) ⟨position + 1, towerState limit depth⟩ rest := by
  unfold towerState
  by_cases hLimit : depth < limit
  · rw [towerStack, if_pos hLimit]
    exact eventsFrom_closeCommand
  · obtain ⟨start, nested, outer, hStack, hDeeper, -⟩ :=
      exists_towerStack_of_le hPos (Nat.le_of_not_lt hLimit)
    rw [hStack, hDeeper]
    exact eventsFrom_closeParen

theorem eventsFrom_openings (hPos : 0 < limit) (depth n : Nat) (rest : List Char) :
    eventsFrom (some limit) ⟨1 + 2 * depth, towerState limit depth⟩
        ((List.replicate n ['$', '(']).flatten ++ rest) =
      (List.range' depth n).flatMap (openingEvents limit) ++
        eventsFrom (some limit) ⟨1 + 2 * (depth + n), towerState limit (depth + n)⟩ rest := by
  induction n generalizing depth with
  | zero => rfl
  | succ n ih =>
    have hText : (List.replicate (n + 1) ['$', '(']).flatten ++ rest =
        '$' :: '(' :: ((List.replicate n ['$', '(']).flatten ++ rest) := rfl
    have hDepth : depth + (n + 1) = depth + 1 + n := by omega
    rw [hText, eventsFrom_opening hPos, ih, hDepth, List.range'_succ, List.flatMap_cons,
      List.append_assoc]

theorem eventsFrom_closings (hPos : 0 < limit) (position depth m : Nat) (rest : List Char) :
    eventsFrom (some limit) ⟨position, towerState limit (depth + m)⟩
        (List.replicate m ')' ++ rest) =
      (List.replicate m (.punctuation .rightParen)).map .token ++
        eventsFrom (some limit) ⟨position + m, towerState limit depth⟩ rest := by
  induction m generalizing position with
  | zero => rfl
  | succ m ih =>
    have hPosition : position + (m + 1) = position + 1 + m := by omega
    rw [List.replicate_succ, List.cons_append, ← Nat.add_assoc, eventsFrom_closing hPos, ih,
      hPosition]
    rfl

/-! ## What is found -/

theorem filterMap_token?_opening (limit depth : Nat) :
    (openingEvents limit depth).filterMap Event.token? =
      (if depth = 0 then [⟨.segment, ""⟩] else []) ++
        [.punctuation .dollar, .punctuation .leftParen] := by
  unfold openingEvents
  by_cases hFirst : depth = 0
  · rw [if_pos hFirst, if_pos hFirst]
    split <;> rfl
  · rw [if_neg hFirst, if_neg hFirst]
    split <;> rfl

/-- Only the first opening ends literal text of the quotes. -/
theorem filterMap_token?_openings (limit n : Nat) :
    ((List.range' 0 n).flatMap (openingEvents limit)).filterMap Event.token? =
      (if n = 0 then [] else [⟨.segment, ""⟩]) ++
        (List.replicate n [Token.punctuation .dollar, .punctuation .leftParen]).flatten := by
  induction n with
  | zero => rfl
  | succ n ih =>
    rw [List.range'_1_concat, List.flatMap_append, List.filterMap_append, ih,
      List.flatMap_singleton, filterMap_token?_opening, Nat.zero_add, if_neg (Nat.succ_ne_zero n),
      List.replicate_succ', List.flatten_concat]
    by_cases hFirst : n = 0
    · subst hFirst
      rfl
    · rw [if_neg hFirst, if_neg hFirst, List.nil_append, List.append_assoc]

theorem filterMap_diagnostic?_opening (limit depth : Nat) :
    (openingEvents limit depth).filterMap Event.diagnostic? =
      if depth < limit then [] else [⟨.nestedTooDeeply, 1 + 2 * depth⟩] := by
  unfold openingEvents
  split <;> split <;> rfl

/-- The openings past the limit are reported. -/
theorem filterMap_diagnostic?_openings (limit n : Nat) :
    ((List.range' 0 n).flatMap (openingEvents limit)).filterMap Event.diagnostic? =
      (List.range' limit (n - limit)).map fun i => ⟨.nestedTooDeeply, 1 + 2 * i⟩ := by
  induction n with
  | zero =>
    rw [Nat.zero_sub]
    rfl
  | succ n ih =>
    rw [List.range'_1_concat, List.flatMap_append, List.filterMap_append, ih,
      List.flatMap_singleton, filterMap_diagnostic?_opening, Nat.zero_add]
    by_cases hLimit : n < limit
    · have hNone : n + 1 - limit = n - limit := by omega
      rw [if_pos hLimit, hNone, List.append_nil]
    · have hOne : n + 1 - limit = n - limit + 1 := by omega
      have hLast : limit + (n - limit) = n := by omega
      rw [if_neg hLimit, hOne, List.range'_1_concat, List.map_append, hLast]
      rfl

/-- The reports about what a tower leaves open, from the inside out. -/
def openReports (limit depth : Nat) : List Diagnostic :=
  ((List.range (min limit depth)).reverse.map fun i => ⟨.unclosedCommand, 2 + 2 * i⟩) ++
    [⟨.unclosedDoubleQuote, 0⟩]

theorem finish_towerState (limit depth : Nat) :
    (towerState limit depth).finish = (openReports limit depth).map .diagnostic := by
  have hUnclosed : (towerStack limit depth).map
      (fun command => Event.fault .unclosedCommand command.start) =
        (List.range (min limit depth)).reverse.map
          fun i => Event.fault .unclosedCommand (2 + 2 * i) := by
    have hStarts := congrArg (List.map (Event.fault .unclosedCommand))
      (starts_towerStack limit depth)
    rwa [List.map_map, List.map_map] at hStarts
  rw [towerState, State.finish, Quoted.finish, hUnclosed, openReports, List.map_append,
    List.map_map]
  rfl

theorem eventsFrom_tower (hPos : 0 < limit) {n m : Nat} (h : m ≤ n) :
    eventsFrom (some limit) (Config.initial : Config (List Char)) (tower n m).toList =
      .punctuation .doubleQuote :: ((List.range' 0 n).flatMap (openingEvents limit) ++
        ((List.replicate m (.punctuation .rightParen)).map .token ++
          (openReports limit (n - m)).map .diagnostic)) := by
  have hOpenings := eventsFrom_openings hPos 0 n (List.replicate m ')')
  have hClosings := eventsFrom_closings hPos (1 + 2 * n) (n - m) m []
  rw [Nat.sub_add_cancel h, List.append_nil, eventsFrom, finish_towerState] at hClosings
  rw [Nat.zero_add, hClosings] at hOpenings
  rw [tower, String.toList_ofList]
  exact congrArg (.punctuation .doubleQuote :: ·) hOpenings

end Scan

/-- **A tower of command substitutions, across the limit.**  Every opening and every closing is a
token, however deep.  Reported are the `$` past the limit, from the outside in, then the
substitutions that are left open, from the inside out, and the double quotes. -/
theorem tokenize_tower (n m : Nat) (h : m ≤ n) :
    tokenize (tower n m) =
      ⟨.punctuation .doubleQuote :: ((if n = 0 then [] else [⟨.segment, ""⟩]) ++
          (List.replicate n [.punctuation .dollar, .punctuation .leftParen]).flatten ++
          List.replicate m (.punctuation .rightParen)),
        ((List.range' Scan.maxExpansionDepth (n - Scan.maxExpansionDepth)).map
            fun i => ⟨.nestedTooDeeply, 1 + 2 * i⟩) ++
          ((List.range (min Scan.maxExpansionDepth (n - m))).reverse.map
            fun i => ⟨.unclosedCommand, 2 + 2 * i⟩) ++
          [⟨.unclosedDoubleQuote, 0⟩]⟩ := by
  have hMax : 0 < Scan.maxExpansionDepth := by decide
  have hEvents := Scan.eventsFrom_tower hMax h
  rw [← events_eq] at hEvents
  have hTokens : (tokenize (tower n m)).tokens = .punctuation .doubleQuote ::
      ((if n = 0 then [] else [⟨.segment, ""⟩]) ++
        (List.replicate n [.punctuation .dollar, .punctuation .leftParen]).flatten ++
        List.replicate m (.punctuation .rightParen)) := by
    rw [tokenize_tokens, hEvents, List.filterMap_cons, List.filterMap_append,
      List.filterMap_append, Scan.filterMap_token?_openings, Scan.filterMap_token?_tokens,
      Scan.filterMap_token?_diagnostics, List.append_nil]
    rfl
  have hDiagnostics : (tokenize (tower n m)).diagnostics =
      ((List.range' Scan.maxExpansionDepth (n - Scan.maxExpansionDepth)).map
        fun i => ⟨.nestedTooDeeply, 1 + 2 * i⟩) ++
        ((List.range (min Scan.maxExpansionDepth (n - m))).reverse.map
          fun i => ⟨.unclosedCommand, 2 + 2 * i⟩) ++ [⟨.unclosedDoubleQuote, 0⟩] := by
    rw [List.append_assoc, tokenize_diagnostics, hEvents, List.filterMap_cons,
      List.filterMap_append, List.filterMap_append, Scan.filterMap_diagnostic?_openings,
      Scan.filterMap_diagnostic?_tokens, Scan.filterMap_diagnostic?_diagnostics, List.nil_append]
    rfl
  rw [← hTokens, ← hDiagnostics]

/-- Two openings past the limit, and one closing more than they take. -/
theorem tokenize_tower_beyond :
    3 ≤ 202 ∧ tokenize (tower 202 3) =
      ⟨.punctuation .doubleQuote :: ⟨.segment, ""⟩ ::
          ((List.replicate 202 [.punctuation .dollar, .punctuation .leftParen]).flatten ++
            List.replicate 3 (.punctuation .rightParen)),
        ⟨.nestedTooDeeply, 401⟩ :: ⟨.nestedTooDeeply, 403⟩ ::
          (((List.range 199).reverse.map fun i => ⟨.unclosedCommand, 2 + 2 * i⟩) ++
            [⟨.unclosedDoubleQuote, 0⟩])⟩ :=
  ⟨by decide, tokenize_tower 202 3 (by decide)⟩

end ShellLexer
