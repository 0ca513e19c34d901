import ShellLexer.Proofs.Scan.Reading
import ShellLexer.Proofs.Scan.EndFaults

/-!
# Counting instead of nesting

A `$` past the limit opens nothing, and the parentheses behind it are counted
by the innermost command substitution.  So the state of a scan with a limit is
that of a scan without one, with the substitutions past the limit put into the
count of the one that stands at it (`State.flatten`).

* `State.step_flatten`: a step keeps this, except where a `$` past the limit
  has an opening brace behind it.
* `State.finish_flatten`: the end of a text finds the same in both states, but
  for faults about nesting.
-/

namespace ShellLexer

/-- The faults that hang on how deep expansions may nest: past the limit a `$` opens nothing, so
nothing can be wrong with what it opens. -/
def Fault.aboutNesting : Fault → Bool
  | nestedTooDeeply | invalidExpansion _ | endAfterDollar | unclosedCommand => true
  | _ => false

namespace Scan

/-! ## Events that agree -/

/-- The events `flat` of a scan with a limit agree with the events `deep` of a scan without one:
a `$` past the limit is reported in `flat` alone, and other faults about nesting may be reported
in `deep` alone. -/
inductive Flattens : List Event → List Event → Prop
  | nil : Flattens [] []
  | both (e : Event) {flat deep : List Event} : Flattens flat deep →
      Flattens (e :: flat) (e :: deep)
  | tooDeep (position : Nat) {flat deep : List Event} : Flattens flat deep →
      Flattens (.fault .nestedTooDeeply position :: flat) deep
  | missed {f : Fault} (position : Nat) {flat deep : List Event} (about : f.aboutNesting) :
      Flattens flat deep → Flattens flat (.fault f position :: deep)

namespace Flattens

theorem refl (es : List Event) : Flattens es es := by
  induction es with
  | nil => exact .nil
  | cons e es ih => exact .both e ih

theorem append {flat deep flat' deep' : List Event} (h : Flattens flat deep)
    (g : Flattens flat' deep') : Flattens (flat ++ flat') (deep ++ deep') := by
  induction h with
  | nil => exact g
  | both e _ ih => exact .both e ih
  | tooDeep position _ ih => exact .tooDeep position ih
  | missed position hAbout _ ih => exact .missed position hAbout ih

/-- Both hold the same tokens. -/
theorem tokens {flat deep : List Event} (h : Flattens flat deep) :
    flat.filterMap Event.token? = deep.filterMap Event.token? := by
  induction h with
  | nil => rfl
  | both e _ ih => rw [List.filterMap_cons, List.filterMap_cons, ih]
  | tooDeep _ _ ih => exact ih
  | missed _ _ _ ih => exact ih

/-- Both hold the same reports that are not about nesting. -/
theorem diagnostics {flat deep : List Event} (h : Flattens flat deep) :
    (flat.filterMap Event.diagnostic?).filter (fun d => !d.fault.aboutNesting) =
      (deep.filterMap Event.diagnostic?).filter (fun d => !d.fault.aboutNesting) := by
  induction h with
  | nil => rfl
  | both e _ ih =>
    cases e with
    | token => exact ih
    | diagnostic d =>
      show List.filter _ (d :: _) = List.filter _ (d :: _)
      rw [List.filter_cons, List.filter_cons, ih]
  | tooDeep _ _ ih => exact ih
  | @missed f position flat deep hAbout _ ih =>
    show _ = List.filter _ ((⟨f, position⟩ : Diagnostic) :: _)
    rw [ih, List.filter_cons_of_neg (by simp [hAbout])]

/-- What is reported with a limit, and not because of it, is reported without one. -/
theorem mem {flat deep : List Event} (h : Flattens flat deep) {d : Diagnostic}
    (hd : .diagnostic d ∈ flat) : d.fault = .nestedTooDeeply ∨ .diagnostic d ∈ deep := by
  induction h with
  | nil => cases hd
  | both e _ ih =>
    rcases List.mem_cons.mp hd with rfl | hd
    · exact Or.inr List.mem_cons_self
    · exact (ih hd).imp_right (List.mem_cons_of_mem e)
  | tooDeep position _ ih =>
    rcases List.mem_cons.mp hd with hd | hd
    · exact Or.inl (congrArg Diagnostic.fault (Event.diagnostic.inj hd))
    · exact ih hd
  | missed position _ _ ih => exact (ih hd).imp_right (List.mem_cons_of_mem _)

end Flattens

/-! ## States -/

/-- The command substitutions with those past the `n`th put into the count of the `n`th: each
adds its own parenthesis and those that are open in it. -/
def flattenCommands (n : Nat) : List Command → List Command
  | [] => []
  | command :: outer =>
    if outer.length < n then command :: outer
    else match flattenCommands n outer with
      | [] => []
      | ⟨start, nested⟩ :: rest => ⟨start, nested + 1 + command.nested⟩ :: rest

/-- What is pending, where a `$` that stands past the limit opens nothing. -/
def Inner.flatten (past : Bool) : Inner (List Char) → Inner (List Char)
  | dollar start => if past then nothing else dollar start
  | inner => inner

def Quoted.flatten (n : Nat) (q : Quoted (List Char)) : Quoted (List Char) :=
  ⟨q.start, q.text, flattenCommands n q.commands, q.inner.flatten (n ≤ q.commands.length)⟩

/-- Where a scan with the limit `n` stands when one without a limit is in the given state. -/
def State.flatten (n : Nat) : State (List Char) → State (List Char)
  | plain p => plain p
  | quoted q => quoted (q.flatten n)

def Config.flatten (n : Nat) (config : Config (List Char)) : Config (List Char) :=
  ⟨config.position, config.state.flatten n⟩

/-- Behind a `$` that would open an expansion past the limit. -/
inductive DollarPast (n : Nat) : State (List Char) → Prop
  | quoted {start dollarStart : Nat} {text : List Char} {commands : List Command}
      (past : n ≤ commands.length) :
      DollarPast n (.quoted ⟨start, text, commands, .dollar dollarStart⟩)

section Commands

variable {n : Nat}

theorem flattenCommands_of_length_le {commands : List Command} (h : commands.length ≤ n) :
    flattenCommands n commands = commands := by
  cases commands with
  | nil => rfl
  | cons command outer =>
    rw [List.length_cons] at h
    rw [flattenCommands, if_pos (by omega)]

/-- The innermost substitution as it is with and without those past the limit. Its count is
`base` and the parentheses that are open in it; once it closes, `base` tells whether the one that
counts for it is closed as well. -/
theorem exists_flattenCommands_cons (hn : 1 ≤ n) (start : Nat) (outer : List Command) :
    ∃ flatStart base rest,
      (∀ nested, flattenCommands n (⟨start, nested⟩ :: outer) =
        ⟨flatStart, base + nested⟩ :: rest) ∧
      (n ≤ outer.length → ∃ count, base = count + 1 ∧
        flattenCommands n outer = ⟨flatStart, count⟩ :: rest) ∧
      (outer.length < n → base = 0 ∧ flattenCommands n outer = rest) := by
  induction outer generalizing start with
  | nil =>
    refine ⟨start, 0, [], ?_, ?_, ?_⟩
    · intro nested
      rw [flattenCommands_of_length_le hn, Nat.zero_add]
    · intro h
      exact absurd (Nat.le_trans hn h) (by decide)
    · intro _
      exact ⟨rfl, rfl⟩
  | cons command outer ih =>
    by_cases hLength : (command :: outer).length < n
    · refine ⟨start, 0, command :: outer, ?_, ?_, ?_⟩
      · intro nested
        rw [flattenCommands, if_pos hLength, Nat.zero_add]
      · intro h
        omega
      · intro _
        exact ⟨rfl, flattenCommands_of_length_le (Nat.le_of_lt hLength)⟩
    · obtain ⟨flatStart, base, rest, hCons, -⟩ := ih command.start
      have hOuter := hCons command.nested
      refine ⟨flatStart, base + command.nested + 1, rest, ?_, ?_, ?_⟩
      · intro nested
        rw [flattenCommands, if_neg hLength, hOuter]
      · intro _
        exact ⟨base + command.nested, rfl, hOuter⟩
      · intro h
        exact absurd h hLength

theorem length_flattenCommands (hn : 1 ≤ n) (commands : List Command) :
    (flattenCommands n commands).length = min n commands.length := by
  induction commands with
  | nil => rw [flattenCommands, List.length_nil, Nat.min_zero]
  | cons command outer ih =>
    obtain ⟨flatStart, base, rest, hCons, hPast, hShallow⟩ :=
      exists_flattenCommands_cons hn command.start outer
    have hCommand := hCons command.nested
    rw [hCommand, List.length_cons, List.length_cons]
    rcases Nat.lt_or_ge outer.length n with hLength | hLength
    · rw [(hShallow hLength).2, Nat.min_eq_right (Nat.le_of_lt hLength)] at ih
      rw [ih, Nat.min_eq_right hLength]
    · obtain ⟨count, -, hOuter⟩ := hPast hLength
      rw [hOuter, List.length_cons, Nat.min_eq_left hLength] at ih
      rw [ih, Nat.min_eq_left (Nat.le_succ_of_le hLength)]

theorem tooDeep_flattenCommands (hn : 1 ≤ n) (commands : List Command) :
    Quoted.tooDeep (some n) (flattenCommands n commands).length = decide (n ≤ commands.length) := by
  rw [length_flattenCommands hn]
  exact decide_eq_decide.mpr (by omega)

end Commands

/-! ## Steps -/

/-- What a step of a scan with a limit has to do: stand where the other one does, and find what it
finds. It reports every `$` that goes past the limit. -/
structure FlattensTo (n position : Nat) (c : Char) (flat deep : State (List Char) × List Event) :
    Prop where
  state : flat.1 = deep.1.flatten n
  events : Flattens flat.2 deep.2
  dollar : DollarPast n deep.1 → c = '$' ∧ .fault .nestedTooDeeply position ∈ flat.2

namespace FlattensTo

variable {n position : Nat} {c : Char}

/-- Both do the same outside quotes. -/
theorem plain (p : Plain (List Char)) (es : List Event) :
    FlattensTo n position c (.plain p, es) (.plain p, es) :=
  ⟨rfl, .refl es, nofun⟩

/-- Both do the same, and nothing hangs on the limit. -/
theorem quoted {start : Nat} {text : List Char} {flat commands : List Command}
    {inner : Inner (List Char)} (es : List Event) (hInner : ∀ past, inner.flatten past = inner)
    (hCommands : flat = flattenCommands n commands) :
    FlattensTo n position c (.quoted ⟨start, text, flat, inner⟩, es)
      (.quoted ⟨start, text, commands, inner⟩, es) where
  state := by
    show State.quoted _ = State.quoted _
    rw [Quoted.flatten, hInner, hCommands]
  events := .refl es
  dollar h := by
    cases h with
    | quoted past => cases hInner true

/-- Events that agree come first. -/
theorem after {flat deep : State (List Char) × List Event} (h : FlattensTo n position c flat deep)
    {es fs : List Event} (hEvents : Flattens es fs) :
    FlattensTo n position c (flat.1, es ++ flat.2) (deep.1, fs ++ deep.2) where
  state := h.state
  events := hEvents.append h.events
  dollar hPast := ⟨(h.dollar hPast).1, List.mem_append_right _ (h.dollar hPast).2⟩

end FlattensTo

theorem Plain.Enters.flatten {n position : Nat} {c : Char} {s : State (List Char)}
    {es : List Event} (h : Plain.Enters position c s es) (before : List Event) :
    FlattensTo n position c (s, before ++ es) (s, before ++ es) := by
  cases h with
  | doubleQuote => exact .quoted _ (fun _ => rfl) rfl
  | newline | blank | name | singleQuote | operator | unexpected => exact .plain _ _

theorem Plain.Steps.flatten {n position : Nat} {p : Plain (List Char)} {c : Char}
    {s : State (List Char)} {es : List Event} (h : Plain.Steps position p c s es) :
    FlattensTo n position c (s, es) (s, es) := by
  cases h with
  | ended _ hEnters => exact hEnters.flatten p.finish
  | blank | name | doubleLess | pair | doubleLessDash | quotedChar | closingQuote =>
    exact .plain _ _

namespace Quoted

variable {n : Nat} (hn : 1 ≤ n) (position start : Nat) (text : List Char) (c : Char)
include hn

/-- A `$`, whatever its depth. -/
theorem dollar_flatten (commands : List Command) :
    FlattensTo n position '$'
      (.quoted (dollar (some n) position ⟨start, text, flattenCommands n commands, .nothing⟩).1,
        (dollar (some n) position ⟨start, text, flattenCommands n commands, .nothing⟩).2)
      (.quoted ⟨start, text, commands, .dollar position⟩, [.punctuation .dollar]) := by
  unfold dollar
  rw [tooDeep_flattenCommands hn]
  by_cases hPast : n ≤ commands.length
  · rw [if_pos (decide_eq_true hPast)]
    refine ⟨?_, .both _ (.tooDeep position .nil), ?_⟩
    · simp [State.flatten, flatten, setInner, Inner.flatten, hPast]
    · intro _
      exact ⟨rfl, List.mem_cons_of_mem _ List.mem_cons_self⟩
  · rw [if_neg (by simp [hPast])]
    refine ⟨?_, .refl _, ?_⟩
    · simp [State.flatten, flatten, setInner, Inner.flatten, hPast]
    · intro h
      cases h with
      | quoted past => exact absurd past hPast

/-- A character of the literal text. -/
theorem readText_flatten :
    FlattensTo n position c (readText (some n) position c ⟨start, text, [], .nothing⟩)
      (readText none position c ⟨start, text, [], .nothing⟩) := by
  unfold readText
  by_cases hQuote : c == '"'
  · rw [if_pos hQuote, if_pos hQuote]
    exact .plain _ _
  rw [if_neg hQuote, if_neg hQuote]
  by_cases hBackslash : c == '\\'
  · rw [if_pos hBackslash, if_pos hBackslash]
    exact .quoted [] (fun _ => rfl) rfl
  rw [if_neg hBackslash, if_neg hBackslash]
  by_cases hDollar : c == '$'
  · obtain rfl := beq_iff_eq.mp hDollar
    have h := dollar_flatten hn position start (TextBuffer.clear text) []
    exact h.after (.refl [.segment (TextBuffer.text text)])
  · rw [if_neg hDollar, if_neg hDollar]
    exact .quoted [] (fun _ => rfl) rfl

/-- A character inside a command substitution. Its closing parenthesis closes the substitution in
one scan and is counted in the other, if that is past the limit. -/
theorem enter_command_flatten (command : Command) (outer : List Command) :
    FlattensTo n position c
      (enter (some n) position c ⟨start, text, flattenCommands n (command :: outer), .nothing⟩)
      (enter none position c ⟨start, text, command :: outer, .nothing⟩) := by
  obtain ⟨commandStart, nested⟩ := command
  have hDollars := dollar_flatten hn position start text (⟨commandStart, nested⟩ :: outer)
  obtain ⟨flatStart, base, rest, hCons, hPast, hShallow⟩ :=
    exists_flattenCommands_cons hn commandStart outer
  rw [hCons nested] at hDollars ⊢
  simp only [enter, readCommand]
  by_cases hDollar : c == '$'
  · obtain rfl := beq_iff_eq.mp hDollar
    exact hDollars
  rw [if_neg hDollar, if_neg hDollar]
  by_cases hOpen : c == '('
  · rw [if_pos hOpen, if_pos hOpen]
    exact .quoted _ (fun _ => rfl) (hCons (nested + 1)).symm
  rw [if_neg hOpen, if_neg hOpen]
  by_cases hClose : c == ')'
  · rw [if_pos hClose, if_pos hClose]
    refine .quoted _ (fun _ => rfl) ?_
    cases nested with
    | succ nested => exact (hCons nested).symm
    | zero =>
      rcases Nat.lt_or_ge outer.length n with hLength | hLength
      · obtain ⟨rfl, hOuter⟩ := hShallow hLength
        exact hOuter.symm
      · obtain ⟨count, rfl, hOuter⟩ := hPast hLength
        exact hOuter.symm
  rw [if_neg hClose, if_neg hClose]
  by_cases hName : isNameChar c
  · rw [if_pos hName, if_pos hName]
    exact .quoted _ (fun _ => rfl) (hCons nested).symm
  · rw [if_neg hName, if_neg hName]
    exact .quoted _ (fun _ => rfl) (hCons nested).symm

theorem enter_flatten (commands : List Command) :
    FlattensTo n position c
      (enter (some n) position c ⟨start, text, flattenCommands n commands, .nothing⟩)
      (enter none position c ⟨start, text, commands, .nothing⟩) := by
  cases commands with
  | nil => exact readText_flatten hn position start text c
  | cons command outer => exact enter_command_flatten hn position start text c command outer

/-- The character after a `$` past the limit, which opens nothing: it is read as any other in a
command substitution. -/
theorem enter_afterDollar_flatten {commands : List Command} (dollarStart : Nat)
    (hPast : n ≤ commands.length) (hBrace : c ≠ '{') :
    FlattensTo n position c
      (enter (some n) position c ⟨start, text, flattenCommands n commands, .nothing⟩)
      (afterDollar none position c dollarStart ⟨start, text, commands, .nothing⟩) := by
  have hEnter := enter_flatten hn position start text c commands
  obtain ⟨flatStart, base, rest, hCons, hOuter, -⟩ :=
    exists_flattenCommands_cons hn position commands
  obtain ⟨count, rfl, hCommands⟩ := hOuter hPast
  unfold afterDollar
  by_cases hParen : c == '('
  · obtain rfl := beq_iff_eq.mp hParen
    rw [hCommands]
    exact .quoted _ (fun _ => rfl) (hCons 0).symm
  rw [if_neg hParen, if_neg (mt beq_iff_eq.mp hBrace)]
  by_cases hName : isNameStart c
  · have hChar := isNameChar_of_isNameStart hName
    have hOther : ∀ x : Char, isNameChar x = false → ¬ (c == x) := by
      intro x hx hcx
      rw [beq_iff_eq.mp hcx, hx] at hChar
      contradiction
    rw [if_pos hName, hCommands]
    simp only [enter, readCommand]
    rw [if_neg (hOther '$' rfl), if_neg (hOther '(' rfl), if_neg (hOther ')' rfl), if_pos hChar]
    exact .quoted _ (fun _ => rfl) hCommands.symm
  · rw [if_neg hName]
    exact hEnter.after (.missed dollarStart rfl .nil)

/-- The character after a `$` within the limit. -/
theorem afterDollar_flatten {commands : List Command} (dollarStart : Nat)
    (hShallow : commands.length < n) :
    FlattensTo n position c
      (afterDollar (some n) position c dollarStart
        ⟨start, text, flattenCommands n commands, .nothing⟩)
      (afterDollar none position c dollarStart ⟨start, text, commands, .nothing⟩) := by
  have hEnter := enter_flatten hn position start text c commands
  unfold afterDollar
  by_cases hParen : c == '('
  · rw [if_pos hParen, if_pos hParen]
    refine .quoted _ (fun _ => rfl) ?_
    rw [flattenCommands_of_length_le (Nat.le_of_lt hShallow), flattenCommands_of_length_le hShallow]
  rw [if_neg hParen, if_neg hParen]
  by_cases hBrace : c == '{'
  · rw [if_pos hBrace, if_pos hBrace]
    exact .quoted _ (fun _ => rfl) rfl
  rw [if_neg hBrace, if_neg hBrace]
  by_cases hName : isNameStart c
  · rw [if_pos hName, if_pos hName]
    exact .quoted _ (fun _ => rfl) rfl
  · rw [if_neg hName, if_neg hName]
    exact hEnter.after (.refl [.fault (.invalidExpansion c) dollarStart])

theorem step_flatten (q : Quoted (List Char)) (hBrace : DollarPast n (.quoted q) → c ≠ '{') :
    FlattensTo n position c ((q.flatten n).step (some n) position c) (q.step none position c) := by
  obtain ⟨start, text, commands, inner⟩ := q
  have hEnter := enter_flatten hn position start text c commands
  cases inner with
  | nothing => exact hEnter
  | backslash =>
    simp only [flatten, Inner.flatten, step, afterBackslash]
    split
    · exact .quoted _ (fun _ => rfl) rfl
    · split
      · exact .quoted _ (fun _ => rfl) rfl
      · exact .quoted _ (fun _ => rfl) rfl
  | dollar dollarStart =>
    rcases Nat.lt_or_ge commands.length n with hShallow | hPast
    · have h := afterDollar_flatten hn position start text c dollarStart hShallow
      simpa [flatten, Inner.flatten, step, Nat.not_le.mpr hShallow] using h
    · have h := enter_afterDollar_flatten hn position start text c dollarStart hPast
        (hBrace (.quoted hPast))
      simpa [flatten, Inner.flatten, step, hPast] using h
  | word name =>
    simp only [flatten, Inner.flatten, step]
    split
    · exact .quoted _ (fun _ => rfl) rfl
    · exact hEnter.after (.refl [.token (wordToken name)])
  | parameter p =>
    simp only [flatten, Inner.flatten, step]
    rcases p.step position c with ⟨_ | p', es⟩
    · exact .quoted _ (fun _ => rfl) rfl
    · exact .quoted _ (fun _ => rfl) rfl

end Quoted

/-- **A step with a limit does what a step without one does.**  The one exception is an opening
brace behind a `$` past the limit. -/
theorem State.step_flatten {n : Nat} (hn : 1 ≤ n) (s : State (List Char)) (position : Nat)
    (c : Char) (hBrace : DollarPast n s → c ≠ '{') :
    FlattensTo n position c ((s.flatten n).step (some n) position c) (s.step none position c) := by
  obtain p | q := s
  · exact (p.steps position c).flatten
  · exact q.step_flatten hn position c hBrace

/-! ## The end of a text -/

theorem flattens_unclosedCommands (n : Nat) (commands : List Command) :
    Flattens
      ((flattenCommands n commands).map fun command => .fault .unclosedCommand command.start)
      (commands.map fun command => .fault .unclosedCommand command.start) := by
  induction commands with
  | nil => exact .nil
  | cons command outer ih =>
    rw [flattenCommands]
    split
    · exact .refl _
    · refine .missed command.start rfl ?_
      generalize flattenCommands n outer = flat at ih ⊢
      cases flat with
      | nil => exact ih
      | cons inner rest => exact ih

theorem State.finish_flatten (n : Nat) (s : State (List Char)) :
    Flattens (s.flatten n).finish s.finish := by
  obtain p | ⟨start, text, commands, inner⟩ := s
  · exact .refl p.finish
  · have hUnclosed := (flattens_unclosedCommands n commands).append
      (.refl [.fault .unclosedDoubleQuote start])
    simp only [State.flatten, State.finish, Quoted.finish_eq]
    refine Flattens.append ?_ hUnclosed
    cases inner with
    | nothing | backslash | word | parameter => exact .refl _
    | dollar dollarStart =>
      simp only [Quoted.flatten, Inner.flatten]
      split
      · exact .missed dollarStart rfl .nil
      · exact .refl _

end Scan

end ShellLexer
