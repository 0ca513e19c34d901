import ShellLexer.Proofs.Grammar.Derivation
import ShellLexer.Proofs.Scan.Clean
import ShellLexer.Proofs.Scan.Reading

/-!
# Derived texts are read without a report

`Passes limit P Q cs` says that a scan in a state with `P` reports nothing among
the characters `cs` and is in a state with `Q` behind them.  Each production of
the grammar is one such step after the other, and what a nonterminal derives
leads back to where it began (`reads_of_derives`).

Inside double quotes the states are told apart by `depths`: for each command
substitution that is open, innermost first, how many parentheses are open in it.
-/

namespace ShellLexer.Scan

/-! ## Where a scan stands -/

/-- Between the parts of a script: what is pending is a token, however the text goes on. -/
inductive Plain.Idle : Plain (List Char) → Prop
  | nothing : Idle .nothing
  | blanks {text : List Char} : Idle (.blanks text)
  | word {text : List Char} : Idle (.word text)
  | operator {start : Nat} {c : Char} : (Punctuation.ofChar? c).isSome → Idle (.operator start c)
  | doubleLess : Idle .doubleLess

/-- Outside all quotes. -/
inductive Outside : State (List Char) → Prop
  | plain {p : Plain (List Char)} : p.Idle → Outside (.plain p)

/-- Inside single quotes. -/
inductive InSingleQuotes : State (List Char) → Prop
  | plain {start : Nat} {text : List Char} : InSingleQuotes (.plain (.singleQuoted start text))

/-- How many parentheses are open in each command substitution. -/
def depthsOf (commands : List Command) : List Nat := commands.map Command.nested

/-- Inside double quotes, between the parts of the text or of a body. -/
inductive Within (depths : List Nat) : State (List Char) → Prop
  | nothing {start : Nat} {text : List Char} {commands : List Command} :
      depthsOf commands = depths → Within depths (.quoted ⟨start, text, commands, .nothing⟩)
  | word {start : Nat} {text name : List Char} {commands : List Command} :
      depthsOf commands = depths → Within depths (.quoted ⟨start, text, commands, .word name⟩)

/-- Behind a backslash in the text of double quotes. -/
inductive AfterBackslash : State (List Char) → Prop
  | quoted {start : Nat} {text : List Char} :
      AfterBackslash (.quoted ⟨start, text, [], .backslash⟩)

/-- Behind a `$` that opens an expansion. -/
inductive AfterDollar (depths : List Nat) : State (List Char) → Prop
  | quoted {start dollarStart : Nat} {text : List Char} {commands : List Command} :
      depthsOf commands = depths →
        AfterDollar depths (.quoted ⟨start, text, commands, .dollar dollarStart⟩)

/-- Inside a parameter expansion with `P`. -/
inductive InParameter (depths : List Nat) (P : Parameter (List Char) → Prop) :
    State (List Char) → Prop
  | quoted {start : Nat} {text : List Char} {commands : List Command}
      {p : Parameter (List Char)} : depthsOf commands = depths → P p →
        InParameter depths P (.quoted ⟨start, text, commands, .parameter p⟩)

/-! ## Passing over characters -/

/-- From a state with `P` a scan reports nothing among the characters `cs`, and stands in a state
with `Q` behind them. -/
def Passes (limit : Option Nat) (P Q : State (List Char) → Prop) (cs : List Char) : Prop :=
  ∀ config : Config (List Char), P config.state →
    Clean (config.found limit cs) ∧ Q (config.after limit cs).state

variable {limit : Option Nat} {P Q R : State (List Char) → Prop}

theorem Passes.nil : Passes limit P P [] := fun _ h => ⟨.nil, h⟩

theorem Passes.append {cs ds : List Char} (h : Passes limit P Q cs) (g : Passes limit Q R ds) :
    Passes limit P R (cs ++ ds) := by
  intro config hP
  obtain ⟨hFound, hQ⟩ := h config hP
  rw [Config.found_append, Config.after_append, clean_append]
  obtain ⟨gFound, hR⟩ := g _ hQ
  exact ⟨⟨hFound, gFound⟩, hR⟩

theorem Passes.cons {c : Char} {cs : List Char} (h : Passes limit P Q [c])
    (g : Passes limit Q R cs) : Passes limit P R (c :: cs) := h.append g

theorem Passes.one {c : Char}
    (h : ∀ position s, P s → Clean (s.step limit position c).2 ∧ Q (s.step limit position c).1) :
    Passes limit P Q [c] := by
  rintro ⟨position, s⟩ hP
  obtain ⟨hClean, hQ⟩ := h position s hP
  exact ⟨clean_append.mpr ⟨hClean, .nil⟩, hQ⟩

theorem Passes.all {cs : List Char} (h : ∀ c ∈ cs, Passes limit P P [c]) : Passes limit P P cs := by
  induction cs with
  | nil => exact .nil
  | cons c cs ih =>
    exact .cons (h c List.mem_cons_self) (ih fun d hd => h d (List.mem_cons_of_mem c hd))

/-! ### Outside double quotes -/

theorem isShellPunctuation_of_isSome_ofChar? {c : Char} (h : (Punctuation.ofChar? c).isSome) :
    isShellPunctuation c := by
  have hAll : Punctuation.singles.all (fun o => o.chars.all isShellPunctuation) := by decide
  obtain ⟨o, ho⟩ := Option.isSome_iff_exists.mp h
  have hChars := List.all_eq_true.mp hAll o (List.mem_of_find?_eq_some ho)
  rw [Punctuation.chars_of_ofChar? ho] at hChars
  exact List.all_eq_true.mp hChars c List.mem_cons_self

theorem Plain.Idle.clean_finish {p : Plain (List Char)} (h : p.Idle) : Clean p.finish := by
  cases h with
  | nothing => exact .nil
  | blanks | word | doubleLess => exact .one rfl
  | @operator start c hc =>
    obtain ⟨o, ho⟩ := Option.isSome_iff_exists.mp hc
    simp only [Plain.finish, singleEvent, ho]
    exact .one rfl

/-- A quote goes on with nothing that is pending outside quotes. -/
theorem Plain.Idle.endsBefore_quote {p : Plain (List Char)} {c : Char} (h : p.Idle)
    (hc : c ∈ ['\'', '"']) : p.EndsBefore c := by
  have hNone : isBlank c = false ∧ isNameChar c = false ∧ (Punctuation.ofChar? c).isSome = false ∧
      c ≠ '-' := by
    simp only [List.mem_cons, List.not_mem_nil, or_false] at hc
    obtain rfl | rfl := hc
    all_goals decide
  obtain ⟨hBlank, hName, hOperator, hDash⟩ := hNone
  cases h with
  | nothing => trivial
  | blanks => exact Bool.eq_false_iff.mp hBlank
  | word => exact Bool.eq_false_iff.mp hName
  | @operator start first hFirst =>
    cases hPair : Punctuation.ofPair? first c with
    | none => exact hPair
    | some o =>
      have hSome := (Punctuation.isSome_ofChar?_of_ofPair? hPair).2
      rw [hOperator] at hSome
      contradiction
  | doubleLess => exact hDash

/-- A character that may stand between the parts of a script. -/
theorem passes_script_char {c : Char}
    (h : isWhitespace c ∨ isNameChar c ∨ (Punctuation.ofChar? c).isSome) :
    Passes limit Outside Outside [c] := by
  have hEnters : ∀ {position s es}, Plain.Enters position c s es → Clean es ∧ Outside s := by
    intro position s es hEnters
    cases hEnters with
    | newline => exact ⟨.one rfl, .plain .nothing⟩
    | blank => exact ⟨.nil, .plain .blanks⟩
    | name => exact ⟨.nil, .plain .word⟩
    | singleQuote | doubleQuote => exact absurd h (by decide)
    | operator hWhite hName =>
      have hOperator := (h.resolve_left hWhite).resolve_left hName
      exact ⟨.nil, .plain (.operator hOperator)⟩
    | unexpected hWhite hName hPunctuation =>
      have hOperator := (h.resolve_left hWhite).resolve_left hName
      exact absurd (isShellPunctuation_of_isSome_ofChar? hOperator) hPunctuation
  refine .one fun position s hs => ?_
  obtain @⟨p, hp⟩ := hs
  have hStep := p.steps position c
  rw [State.step]
  generalize p.step position c = result at hStep ⊢
  obtain ⟨s', es⟩ := result
  cases hStep with
  | ended _ hEnter =>
    obtain ⟨hClean, hOutside⟩ := hEnters hEnter
    exact ⟨clean_append.mpr ⟨hp.clean_finish, hClean⟩, hOutside⟩
  | blank => exact ⟨.nil, .plain .blanks⟩
  | name => exact ⟨.nil, .plain .word⟩
  | doubleLess => exact ⟨.nil, .plain .doubleLess⟩
  | pair | doubleLessDash => exact ⟨.one rfl, .plain .nothing⟩
  | quotedChar | closingQuote => cases hp

theorem passes_singleQuote : Passes limit Outside InSingleQuotes ['\''] := by
  refine .one fun position s hs => ?_
  obtain @⟨p, hp⟩ := hs
  rw [State.step, Plain.step_of_endsBefore (hp.endsBefore_quote (by decide))]
  exact ⟨clean_append.mpr ⟨hp.clean_finish, .nil⟩, .plain⟩

theorem passes_inSingleQuotes {c : Char} (hc : c ≠ '\'') :
    Passes limit InSingleQuotes InSingleQuotes [c] := by
  refine .one fun position s hs => ?_
  obtain @⟨start, text⟩ := hs
  simp only [State.step, Plain.step]
  rw [if_neg (beq_iff_eq.not.mpr hc)]
  exact ⟨.nil, .plain⟩

theorem passes_closingSingleQuote : Passes limit InSingleQuotes Outside ['\''] := by
  refine .one fun position s hs => ?_
  obtain @⟨start, text⟩ := hs
  exact ⟨.one rfl, .plain .nothing⟩

theorem passes_doubleQuote : Passes limit Outside (Within []) ['"'] := by
  refine .one fun position s hs => ?_
  obtain @⟨p, hp⟩ := hs
  rw [State.step, Plain.step_of_endsBefore (hp.endsBefore_quote (by decide))]
  exact ⟨clean_append.mpr ⟨hp.clean_finish, .one rfl⟩, .nothing rfl⟩

/-! ### Inside double quotes -/

/-- Between the parts of a text or a body, a character is part of the name in front or is read
with nothing pending. -/
theorem passes_within {depths : List Nat} {c : Char}
    (hName : isNameChar c → ∀ s, Within depths s → Q s)
    (hEnter : ∀ position start text commands, depthsOf commands = depths →
      Clean (Quoted.enter limit position c ⟨start, text, commands, .nothing⟩).2 ∧
        Q (Quoted.enter limit position c ⟨start, text, commands, .nothing⟩).1) :
    Passes limit (Within depths) Q [c] := by
  refine .one fun position s hs => ?_
  cases hs with
  | @nothing start text commands hDepths => exact hEnter position start text commands hDepths
  | @word start text name commands hDepths =>
    simp only [State.step, Quoted.step]
    by_cases hc : isNameChar c
    · rw [if_pos hc]
      exact ⟨.nil, hName hc _ (.word hDepths)⟩
    · rw [if_neg hc]
      obtain ⟨hClean, hQ⟩ := hEnter position start text commands hDepths
      exact ⟨clean_append.mpr ⟨.one rfl, hClean⟩, hQ⟩

theorem depthsOf_eq_nil {commands : List Command} (h : depthsOf commands = []) :
    commands = [] := List.map_eq_nil_iff.mp h

theorem depthsOf_eq_cons {commands : List Command} {d : Nat} {ds : List Nat}
    (h : depthsOf commands = d :: ds) :
    ∃ command outer, commands = command :: outer ∧ command.nested = d ∧ depthsOf outer = ds := by
  obtain ⟨command, outer, rfl, hd, hds⟩ := List.map_eq_cons_iff.mp h
  exact ⟨command, outer, rfl, hd, hds⟩

theorem passes_closingQuote : Passes limit (Within []) Outside ['"'] := by
  refine passes_within (fun h => absurd h (by decide)) fun position start text commands h => ?_
  obtain rfl := depthsOf_eq_nil h
  refine ⟨?_, .plain .nothing⟩
  show Clean ((if TextBuffer.isEmpty text then [] else [.segment (TextBuffer.text text)]) ++ _)
  split
  · exact .one rfl
  · exact .cons rfl (.one rfl)

theorem passes_backslash : Passes limit (Within []) AfterBackslash ['\\'] := by
  refine passes_within (fun h => absurd h (by decide)) fun position start text commands h => ?_
  obtain rfl := depthsOf_eq_nil h
  exact ⟨.nil, .quoted⟩

theorem passes_escaped (c : Char) : Passes limit AfterBackslash (Within []) [c] := by
  refine .one fun position s hs => ?_
  obtain @⟨start, text⟩ := hs
  refine ⟨.nil, ?_⟩
  simp only [State.step, Quoted.step, Quoted.afterBackslash]
  split
  · exact .nothing rfl
  · split
    · exact .nothing rfl
    · exact .nothing rfl

theorem passes_literal {c : Char} (hc : c ∉ ['"', '\\', '$']) :
    Passes limit (Within []) (Within []) [c] := by
  simp only [List.mem_cons, List.not_mem_nil, or_false, not_or] at hc
  refine passes_within (fun _ _ hs => hs) fun position start text commands h => ?_
  obtain rfl := depthsOf_eq_nil h
  simp only [Quoted.enter, Quoted.readText]
  rw [if_neg (beq_iff_eq.not.mpr hc.1), if_neg (beq_iff_eq.not.mpr hc.2.1),
    if_neg (beq_iff_eq.not.mpr hc.2.2)]
  exact ⟨.nil, .nothing rfl⟩

theorem passes_bodyName {d : Nat} {ds : List Nat} {c : Char} (hc : isNameChar c) :
    Passes limit (Within (d :: ds)) (Within (d :: ds)) [c] := by
  refine passes_within (fun _ _ hs => hs) fun position start text commands h => ?_
  obtain ⟨command, outer, rfl, -, -⟩ := depthsOf_eq_cons h
  have hOther : ∀ x : Char, isNameChar x = false → ¬ (c == x) := by
    rintro x hx hcx
    rw [beq_iff_eq.mp hcx, hx] at hc
    exact absurd hc (by decide)
  simp only [Quoted.enter, Quoted.readCommand]
  rw [if_neg (hOther '$' rfl), if_neg (hOther '(' rfl), if_neg (hOther ')' rfl), if_pos hc]
  exact ⟨.nil, .word h⟩

theorem passes_openParen {d : Nat} {ds : List Nat} :
    Passes limit (Within (d :: ds)) (Within ((d + 1) :: ds)) ['('] := by
  refine passes_within (fun h => absurd h (by decide)) fun position start text commands h => ?_
  obtain ⟨command, outer, rfl, rfl, rfl⟩ := depthsOf_eq_cons h
  exact ⟨.one rfl, .nothing rfl⟩

theorem passes_closeParen {d : Nat} {ds : List Nat} :
    Passes limit (Within ((d + 1) :: ds)) (Within (d :: ds)) [')'] := by
  refine passes_within (fun h => absurd h (by decide)) fun position start text commands h => ?_
  obtain ⟨⟨commandStart, nested⟩, outer, rfl, rfl, rfl⟩ := depthsOf_eq_cons h
  exact ⟨.one rfl, .nothing rfl⟩

theorem passes_closeCommand {ds : List Nat} :
    Passes limit (Within (0 :: ds)) (Within ds) [')'] := by
  refine passes_within (fun h => absurd h (by decide)) fun position start text commands h => ?_
  obtain ⟨⟨commandStart, nested⟩, outer, rfl, rfl, rfl⟩ := depthsOf_eq_cons h
  exact ⟨.one rfl, .nothing rfl⟩

/-! ### Expansions -/

/-- A `$` opens an expansion where they may nest one level further. -/
theorem passes_dollar {n : Nat} {depths : List Nat} (hDepth : depths.length < n) :
    Passes (some n) (Within depths) (AfterDollar depths) ['$'] := by
  refine passes_within (fun h => absurd h (by decide)) fun position start text commands h => ?_
  have hLength : depths.length = commands.length := by
    rw [← h]
    exact List.length_map _
  have hOpen : ¬ Quoted.tooDeep (some n) commands.length := by
    simp [Quoted.tooDeep]
    omega
  cases commands with
  | nil =>
    simp only [Quoted.enter, Quoted.readText, Quoted.dollar, hOpen]
    exact ⟨.cons rfl (.one rfl), .quoted h⟩
  | cons command outer =>
    simp only [Quoted.enter, Quoted.readCommand, Quoted.dollar, hOpen]
    exact ⟨.one rfl, .quoted h⟩

theorem passes_afterDollar {depths : List Nat} {c : Char}
    (h : ∀ position dollarStart start text commands, depthsOf commands = depths →
      Clean (Quoted.afterDollar limit position c dollarStart ⟨start, text, commands, .nothing⟩).2 ∧
        Q (Quoted.afterDollar limit position c dollarStart ⟨start, text, commands, .nothing⟩).1) :
    Passes limit (AfterDollar depths) Q [c] := by
  refine .one fun position s hs => ?_
  obtain @⟨start, dollarStart, text, commands, hDepths⟩ := hs
  exact h position dollarStart start text commands hDepths

theorem passes_dollarName {depths : List Nat} {c : Char} (hc : isNameStart c) :
    Passes limit (AfterDollar depths) (Within depths) [c] := by
  refine passes_afterDollar fun position dollarStart start text commands h => ?_
  have hParen : ¬ (c == '(') := by
    intro hcx
    rw [beq_iff_eq.mp hcx] at hc
    exact absurd hc (by decide)
  have hBrace : ¬ (c == '{') := by
    intro hcx
    rw [beq_iff_eq.mp hcx] at hc
    exact absurd hc (by decide)
  unfold Quoted.afterDollar
  rw [if_neg hParen, if_neg hBrace, if_pos hc]
  exact ⟨.nil, .word h⟩

theorem passes_dollarParen {depths : List Nat} :
    Passes limit (AfterDollar depths) (Within (0 :: depths)) ['('] := by
  refine passes_afterDollar fun position dollarStart start text commands h => ?_
  exact ⟨.one rfl, .nothing (congrArg (0 :: ·) h)⟩

/-! ### Parameter expansions -/

theorem passes_dollarBrace {depths : List Nat} :
    Passes limit (AfterDollar depths) (InParameter depths Parameter.Fresh) ['{'] := by
  refine passes_afterDollar fun position dollarStart start text commands h => ?_
  exact ⟨.one rfl, .quoted h ⟨rfl, rfl, rfl⟩⟩

theorem passes_parameter {depths : List Nat} {M N : Parameter (List Char) → Prop} {c : Char}
    (hNe : c ≠ '}') (h : ∀ {position p p' es}, M p → Parameter.Steps position p c (some p') es →
      Clean es ∧ N p') : Passes limit (InParameter depths M) (InParameter depths N) [c] := by
  refine .one fun position s hs => ?_
  obtain @⟨start, text, commands, p, hDepths, hp⟩ := hs
  have hStep := p.steps position c
  simp only [State.step, Quoted.step]
  rcases hResult : p.step position c with ⟨_ | p', es⟩
  · rw [hResult] at hStep
    exact absurd hStep.eq_brace hNe
  · rw [hResult] at hStep
    obtain ⟨hClean, hN⟩ := h hp hStep
    exact ⟨hClean, .quoted hDepths hN⟩

theorem passes_closingBrace {depths : List Nat} {M : Parameter (List Char) → Prop} :
    Passes limit (InParameter depths M) (Within depths) ['}'] := by
  refine .one fun position s hs => ?_
  obtain @⟨start, text, commands, p, hDepths, -⟩ := hs
  have hStep := p.steps position '}'
  simp only [State.step, Quoted.step]
  rcases hResult : p.step position '}' with ⟨_ | p', es⟩
  · rw [hResult] at hStep
    exact ⟨hStep.clean (Or.inr (by decide)), .nothing hDepths⟩
  · rw [hResult] at hStep
    exact absurd rfl hStep.ne_brace

/-- The inside of a parameter expansion with its closing brace. -/
theorem passes_parameterText {depths : List Nat} {cs : List Char} (h : Grammar.ParameterText cs) :
    Passes limit (InParameter depths Parameter.Fresh) (Within depths) (cs ++ ['}']) := by
  cases cs with
  | nil => exact passes_closingBrace
  | cons c cs =>
    have hNe : ∀ d ∈ c :: cs, d ≠ '}' := by
      rintro d hd rfl
      exact h.closed hd
    have hFirst : Passes limit (InParameter depths Parameter.Fresh)
        (InParameter depths Parameter.Named) [c] := by
      refine passes_parameter (hNe c List.mem_cons_self) fun hp hStep => ?_
      exact ⟨hStep.clean (Or.inr (h.named c rfl)), hStep.named (Or.inl hp)⟩
    have hLater : Passes limit (InParameter depths Parameter.Named)
        (InParameter depths Parameter.Named) cs := by
      refine .all fun d hd => ?_
      refine passes_parameter (hNe d (List.mem_cons_of_mem c hd)) fun hp hStep => ?_
      exact ⟨hStep.clean (Or.inl hp), hStep.named (Or.inr hp)⟩
    exact hFirst.cons (hLater.append passes_closingBrace)

/-! ## Derivations -/

/-- What a derived text does to a scan that starts it where its nonterminal may stand: an expansion
or a body with `n` levels to spare leads back to the depth it starts at. -/
def Reads (limit : Nat) : Grammar.Nonterminal → List Char → Prop
  | .script n, cs => n = limit → Passes (some limit) Outside Outside cs
  | .items n, cs => n = limit → Passes (some limit) (Within []) (Within []) cs
  | .expansion n, cs => ∀ depths : List Nat, depths.length + n = limit →
      Passes (some limit) (Within depths) (Within depths) cs
  | .body n, cs => ∀ (d : Nat) (ds : List Nat), (d :: ds).length + n = limit →
      Passes (some limit) (Within (d :: ds)) (Within (d :: ds)) cs

theorem reads_of_derives {limit : Nat} {symbol : Grammar.Nonterminal} {cs : List Char}
    (h : Grammar.Derives symbol cs) : Reads limit symbol cs := by
  induction h with
  | scriptEnd => exact fun _ => .nil
  | whitespace hc _ ih => exact fun hn => (passes_script_char (Or.inl hc)).cons (ih hn)
  | scriptName hc _ ih => exact fun hn => (passes_script_char (Or.inr (Or.inl hc))).cons (ih hn)
  | operator hc _ ih => exact fun hn => (passes_script_char (Or.inr (Or.inr hc))).cons (ih hn)
  | @singleQuoted n text cs hText _ ih =>
    intro hn
    have hInside : Passes (some limit) InSingleQuotes InSingleQuotes text :=
      .all fun c hc => passes_inSingleQuotes fun hEq => hText (hEq ▸ hc)
    exact passes_singleQuote.cons (hInside.append (passes_closingSingleQuote.cons (ih hn)))
  | doubleQuoted _ _ ihItems ih =>
    exact fun hn => passes_doubleQuote.cons ((ihItems hn).append (passes_closingQuote.cons (ih hn)))
  | itemsEnd => exact fun _ => .nil
  | escape _ ih => exact fun hn => passes_backslash.cons ((passes_escaped _).cons (ih hn))
  | literal hc _ ih => exact fun hn => (passes_literal hc).cons (ih hn)
  | itemsExpansion _ _ ihExpansion ih =>
    exact fun hn => (ihExpansion [] (by simpa using hn)).append (ih hn)
  | name hc =>
    intro depths hn
    exact (passes_dollar (by omega)).cons (passes_dollarName hc)
  | command _ ih =>
    intro depths hn
    have hBody := ih 0 depths (by simp only [List.length_cons]; omega)
    exact (passes_dollar (by omega)).cons (passes_dollarParen.cons
      (hBody.append passes_closeCommand))
  | parameter hText =>
    intro depths hn
    exact (passes_dollar (by omega)).cons (passes_dollarBrace.cons (passes_parameterText hText))
  | bodyEnd => exact fun _ _ _ => .nil
  | bodyName hc _ ih => exact fun d ds hn => (passes_bodyName hc).cons (ih d ds hn)
  | group _ _ ihInner ih =>
    intro d ds hn
    have hInner := ihInner (d + 1) ds hn
    exact passes_openParen.cons (hInner.append (passes_closeParen.cons (ih d ds hn)))
  | bodyExpansion _ _ ihExpansion ih =>
    exact fun d ds hn => (ihExpansion (d :: ds) hn).append (ih d ds hn)

/-- Nothing is reported of a text that the grammar derives. -/
theorem clean_of_derives {limit : Nat} {cs : List Char}
    (h : Grammar.Derives (.script limit) cs) :
    Clean (eventsFrom (some limit) (Config.initial : Config (List Char)) cs) := by
  obtain ⟨hFound, hOutside⟩ := @reads_of_derives limit _ _ h rfl Config.initial
    (.plain .nothing)
  rw [eventsFrom_eq_found_append_finish, clean_append]
  refine ⟨hFound, ?_⟩
  generalize ((Config.initial : Config (List Char)).after (some limit) cs).state = s at hOutside ⊢
  obtain @⟨p, hp⟩ := hOutside
  exact hp.clean_finish

end ShellLexer.Scan
