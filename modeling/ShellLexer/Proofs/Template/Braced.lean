import ShellLexer.Proofs.Scan.Clean

/-!
# The tokens of a parameter expansion

What stands between the braces of `${ }` is split at its first operator.
`Braced.tokens` says so without a scan: the name in front of the operator, the
operator with the characters that belong to it, and the word behind it.

* `eventsFrom_braced`: a scan finds these tokens, with one report if the
  operator misses its name.
-/

namespace ShellLexer.Braced

/-- The characters that end the name. -/
def operators : List Char := [':', '+', '-', '=', '?', '#', '%']

/-- The text that is meant: a backslash in front of an opening brace is dropped. -/
def unescape : List Char → List Char
  | '\\' :: '{' :: cs => '{' :: unescape cs
  | c :: cs => c :: unescape cs
  | [] => []

/-- The operator that a text starts with, and the word behind it. -/
def operator : List Char → List Punctuation × List Char
  | ':' :: '+' :: w => ([.colon, .plus], w)
  | ':' :: '-' :: w => ([.colon, .dash], w)
  | ':' :: '=' :: w => ([.colon, .equals], w)
  | ':' :: '?' :: w => ([.colon, .question], w)
  | ':' :: w => ([.colon], w)
  | '+' :: w => ([.plus], w)
  | '-' :: w => ([.dash], w)
  | '=' :: w => ([.equals], w)
  | '?' :: w => ([.question], w)
  | '#' :: '#' :: w => ([.hash, .hash], w)
  | '#' :: w => ([.hash], w)
  | '%' :: '%' :: w => ([.percent, .percent], w)
  | '%' :: w => ([.percent], w)
  | w => ([], w)

def segment (cs : List Char) : Token := ⟨.segment, String.ofList (unescape cs)⟩

/-- The name in front of an operator, if there is one. -/
def nameTokens (name : List Char) : List Token := if name = [] then [] else [segment name]

/-- The tokens of the text between the braces. -/
def tokens (cs : List Char) : List Token :=
  match cs.dropWhile (· ∉ operators) with
  | [] => [segment cs]
  | c :: w =>
    nameTokens (cs.takeWhile (· ∉ operators)) ++
      ((operator (c :: w)).1.map .punctuation ++ [segment (operator (c :: w)).2])

end ShellLexer.Braced

namespace ShellLexer.Scan

open Braced

variable {limit : Option Nat} {start position : Nat} {text : List Char} {commands : List Command}

section Steps

variable {p p' : Parameter (List Char)} {c : Char}

theorem eventsFrom_parameter {es : List Event} (h : p.step position c = (some p', es))
    (cs : List Char) :
    eventsFrom limit ⟨position, .quoted ⟨start, text, commands, .parameter p⟩⟩ (c :: cs) =
      es ++ eventsFrom limit
        ⟨position + 1, .quoted ⟨start, text, commands, .parameter p'⟩⟩ cs := by
  simp only [eventsFrom, Config.step, State.step, Quoted.step, h, Quoted.setInner]

/-- Two expansions that read the next character alike go on alike. -/
theorem eventsFrom_parameter_congr (h : p.step position c = p'.step position c)
    (cs : List Char) :
    eventsFrom limit ⟨position, .quoted ⟨start, text, commands, .parameter p⟩⟩ (c :: cs) =
      eventsFrom limit ⟨position, .quoted ⟨start, text, commands, .parameter p'⟩⟩ (c :: cs) := by
  simp only [eventsFrom, Config.step, State.step, Quoted.step, h]

theorem Parameter.choiceOperator?_eq_none (h : c ∉ operators) : choiceOperator? c = none := by
  simp only [operators, List.mem_cons, List.not_mem_nil, or_false, not_or] at h
  simp [choiceOperator?, h]

theorem Parameter.trimOperator?_eq_none (h : c ∉ operators) : trimOperator? c = none := by
  simp only [operators, List.mem_cons, List.not_mem_nil, or_false, not_or] at h
  simp [trimOperator?, h]

end Steps

/-! ### Text without operators -/

section Text

variable {brace : Nat} {read : List Char} {hasOperator : Bool}

/-- A character that is collected. -/
theorem Parameter.step_plain {c : Char} (hBrace : c ≠ '}') (hBackslash : c ≠ '\\')
    (hOperator : hasOperator = true ∨ c ∉ operators) :
    Parameter.step position c ⟨brace, read, hasOperator, .text⟩ =
      (some ⟨brace, read ++ [c], hasOperator, .text⟩, []) := by
  show Parameter.read position c ⟨brace, read, hasOperator, .text⟩ = _
  unfold Parameter.read
  rw [if_neg (mt beq_iff_eq.mp hBrace), if_neg (mt beq_iff_eq.mp hBackslash)]
  rcases hOperator with rfl | hc
  · rfl
  · cases hasOperator with
    | true => rfl
    | false =>
      have hColon : c ≠ ':' := by
        rintro rfl
        exact hc (by decide)
      rw [if_neg Bool.false_ne_true, if_neg (mt beq_iff_eq.mp hColon), choiceOperator?_eq_none hc,
        trimOperator?_eq_none hc]
      rfl

/-- A backslash is collected late, once the next character turns out to be no opening brace. -/
theorem Parameter.step_backslash {d : Char} (hd : d ≠ '{') :
    Parameter.step position d ⟨brace, read, hasOperator, .backslash⟩ =
      Parameter.step position d ⟨brace, read ++ ['\\'], hasOperator, .text⟩ := by
  simp only [Parameter.step]
  rw [if_neg (mt beq_iff_eq.mp hd)]
  rfl

/-- Text is collected up to the first operator, or up to the brace behind the operator. -/
theorem eventsFrom_collected {cs : List Char} {d : Char} (hd : d ≠ '{')
    (h : ∀ c ∈ cs, c ≠ '}' ∧ (hasOperator = true ∨ c ∉ operators)) (rest : List Char) :
    eventsFrom limit
        ⟨position, .quoted ⟨start, text, commands, .parameter ⟨brace, read, hasOperator, .text⟩⟩⟩
        (cs ++ d :: rest) =
      eventsFrom limit
        ⟨position + cs.length, .quoted ⟨start, text, commands,
          .parameter ⟨brace, read ++ unescape cs, hasOperator, .text⟩⟩⟩ (d :: rest) := by
  induction cs using unescape.induct generalizing position read with
  | case1 cs ih =>
    have hTail : ∀ c ∈ cs, c ≠ '}' ∧ (hasOperator = true ∨ c ∉ operators) := by
      intro c hc
      exact h c (List.mem_cons_of_mem _ (List.mem_cons_of_mem _ hc))
    have hPosition : position + ('\\' :: '{' :: cs).length = position + 1 + 1 + cs.length := by
      simp only [List.length_cons]
      omega
    have hRead : read ++ unescape ('\\' :: '{' :: cs) = read ++ ['{'] ++ unescape cs := by
      rw [unescape, List.append_assoc, List.singleton_append]
    rw [hPosition, hRead, ← ih hTail]
    rfl
  | case2 c cs hNoPair ih =>
    have hTail : ∀ c ∈ cs, c ≠ '}' ∧ (hasOperator = true ∨ c ∉ operators) := by
      intro c hc
      exact h c (List.mem_cons_of_mem _ hc)
    have hPosition : position + (c :: cs).length = position + 1 + cs.length := by
      simp only [List.length_cons]
      omega
    have hRead : read ++ unescape (c :: cs) = read ++ [c] ++ unescape cs := by
      rw [unescape, List.append_assoc, List.singleton_append]
      exact hNoPair
    rw [hPosition, hRead, ← ih hTail]
    obtain ⟨hBrace, hOperator⟩ := h c List.mem_cons_self
    by_cases hBackslash : c = '\\'
    · subst hBackslash
      -- The backslash is collected with the character behind it.
      obtain ⟨e, es, hCons, he⟩ : ∃ e es, cs ++ d :: rest = e :: es ∧ e ≠ '{' := by
        cases cs with
        | nil => exact ⟨d, rest, rfl, hd⟩
        | cons e es => exact ⟨e, es ++ d :: rest, rfl, fun hEq => hNoPair es rfl (by rw [hEq])⟩
      rw [List.cons_append, hCons, eventsFrom_parameter rfl]
      exact eventsFrom_parameter_congr (Parameter.step_backslash he) es
    · exact eventsFrom_parameter (Parameter.step_plain hBrace hBackslash hOperator) _
  | case3 =>
    rw [unescape, List.append_nil]
    rfl

/-- The last segment is there even if it is empty. -/
theorem eventsFrom_lastSegment {cs : List Char}
    (h : ∀ c ∈ cs, c ≠ '}' ∧ (hasOperator = true ∨ c ∉ operators)) (rest : List Char) :
    eventsFrom limit
        ⟨position, .quoted ⟨start, text, commands, .parameter ⟨brace, [], hasOperator, .text⟩⟩⟩
        (cs ++ '}' :: rest) =
      .token (segment cs) :: .punctuation .rightBrace ::
        eventsFrom limit ⟨position + cs.length + 1, .quoted ⟨start, text, commands, .nothing⟩⟩
          rest := by
  rw [eventsFrom_collected (by decide) h]
  rfl

end Text

/-! ### The operator -/

section Operator

variable {brace : Nat} {read w : List Char} {c : Char}

/-- What is found in front of the operator `c`: the name, or a report that it is missing. -/
def nameEvents (position : Nat) (read : List Char) (c : Char) : List Event :=
  if c ∈ Grammar.namedOperators then [Parameter.nameEvent read position]
  else Parameter.optionalName read

theorem operator_colon (h : ∀ d ∈ w.head?, Parameter.choiceOperator? d = none) :
    operator (':' :: w) = ([.colon], w) := by
  cases w with
  | nil => rfl
  | cons d w =>
    have hd := h d rfl
    unfold operator
    split <;> simp_all [Parameter.choiceOperator?]

theorem operator_trim {o : Punctuation} (hTrim : Parameter.trimOperator? c = some o)
    (h : w.head? ≠ some c) : operator (c :: w) = ([o], w) := by
  obtain ⟨rfl, rfl⟩ | ⟨rfl, rfl⟩ := Parameter.eq_of_trimOperator? hTrim
  all_goals
    cases w with
    | nil => rfl
    | cons d w =>
      unfold operator
      split <;> simp_all

theorem Parameter.step_colon {d : Char} (h : choiceOperator? d = none) :
    Parameter.step position d ⟨brace, read, true, .colon⟩ =
      Parameter.step position d ⟨brace, read, true, .text⟩ := by
  simp only [Parameter.step, h]

theorem Parameter.step_trim {d : Char} {o : Punctuation} (h : trimOperator? d ≠ some o) :
    Parameter.step position d ⟨brace, read, true, .trim o⟩ =
      Parameter.step position d ⟨brace, read, true, .text⟩ := by
  simp only [Parameter.step, if_neg h]

theorem exists_head_append (w : List Char) (d : Char) (rest : List Char) :
    ∃ e es, w ++ d :: rest = e :: es ∧ (w.head? = none ∧ e = d ∨ w.head? = some e) := by
  cases w with
  | nil => exact ⟨d, rest, rfl, Or.inl ⟨rfl, rfl⟩⟩
  | cons e es => exact ⟨e, es ++ d :: rest, rfl, Or.inr rfl⟩

/-- Behind a colon a choice operator belongs to it, and anything else to the word. -/
theorem eventsFrom_colon (rest : List Char) :
    .punctuation .colon :: eventsFrom limit
        ⟨position + 1, .quoted ⟨start, text, commands, .parameter ⟨brace, [], true, .colon⟩⟩⟩
        (w ++ '}' :: rest) =
      (operator (':' :: w)).1.map .punctuation ++ eventsFrom limit
        ⟨position + (operator (':' :: w)).1.length,
          .quoted ⟨start, text, commands, .parameter ⟨brace, [], true, .text⟩⟩⟩
        ((operator (':' :: w)).2 ++ '}' :: rest) := by
  by_cases hPlain : ∀ d ∈ w.head?, Parameter.choiceOperator? d = none
  · rw [operator_colon hPlain]
    obtain ⟨e, es, hCons, he⟩ := exists_head_append w '}' rest
    have hNone : Parameter.choiceOperator? e = none := by
      rcases he with ⟨-, rfl⟩ | hHead
      · rfl
      · exact hPlain e hHead
    rw [hCons, eventsFrom_parameter_congr (Parameter.step_colon hNone)]
    rfl
  · obtain ⟨d, hHead, hSome⟩ : ∃ d, w.head? = some d ∧ Parameter.choiceOperator? d ≠ none := by
      simpa using hPlain
    obtain ⟨w, rfl⟩ := List.head?_eq_some_iff.mp hHead
    obtain ⟨o, ho⟩ := Option.ne_none_iff_exists'.mp hSome
    have hChoice := Parameter.mem_of_choiceOperator? ho
    simp only [List.mem_cons, List.not_mem_nil, or_false] at hChoice
    obtain rfl | rfl | rfl | rfl := hChoice
    all_goals rfl

/-- A trimming operator takes a second one like it. -/
theorem eventsFrom_trim {o : Punctuation} (hTrim : Parameter.trimOperator? c = some o)
    (rest : List Char) :
    .punctuation o :: eventsFrom limit
        ⟨position + 1, .quoted ⟨start, text, commands, .parameter ⟨brace, [], true, .trim o⟩⟩⟩
        (w ++ '}' :: rest) =
      (operator (c :: w)).1.map .punctuation ++ eventsFrom limit
        ⟨position + (operator (c :: w)).1.length,
          .quoted ⟨start, text, commands, .parameter ⟨brace, [], true, .text⟩⟩⟩
        ((operator (c :: w)).2 ++ '}' :: rest) := by
  by_cases hTwice : w.head? = some c
  · obtain ⟨w, rfl⟩ := List.head?_eq_some_iff.mp hTwice
    obtain ⟨rfl, rfl⟩ | ⟨rfl, rfl⟩ := Parameter.eq_of_trimOperator? hTrim
    all_goals rfl
  · rw [operator_trim hTrim hTwice]
    obtain ⟨e, es, hCons, he⟩ := exists_head_append w '}' rest
    have hOther : Parameter.trimOperator? e ≠ some o := by
      intro hSame
      rcases he with ⟨-, rfl⟩ | hHead
      · cases hSame
      · have hEq : e = c := by
          rcases Parameter.eq_of_trimOperator? hTrim with ⟨rfl, rfl⟩ | ⟨rfl, rfl⟩
          all_goals rcases Parameter.eq_of_trimOperator? hSame with ⟨rfl, hO⟩ | ⟨rfl, hO⟩
          all_goals first | rfl | cases hO
        exact hTwice (hEq ▸ hHead)
    rw [hCons, eventsFrom_parameter_congr (Parameter.step_trim hOther)]
    rfl

theorem eventsFrom_operator (hc : c ∈ operators) (rest : List Char) :
    eventsFrom limit
        ⟨position, .quoted ⟨start, text, commands, .parameter ⟨brace, read, false, .text⟩⟩⟩
        (c :: (w ++ '}' :: rest)) =
      nameEvents position read c ++ ((operator (c :: w)).1.map .punctuation ++ eventsFrom limit
        ⟨position + (operator (c :: w)).1.length,
          .quoted ⟨start, text, commands, .parameter ⟨brace, [], true, .text⟩⟩⟩
        ((operator (c :: w)).2 ++ '}' :: rest)) := by
  simp only [operators, List.mem_cons, List.not_mem_nil, or_false] at hc
  obtain rfl | rfl | rfl | rfl | rfl | rfl | rfl := hc
  · rw [eventsFrom_parameter rfl, ← eventsFrom_colon]
    rfl
  · rfl
  · rfl
  · rfl
  · rfl
  · rw [eventsFrom_parameter rfl, ← eventsFrom_trim rfl, List.append_assoc]
    rfl
  · rw [eventsFrom_parameter rfl, ← eventsFrom_trim rfl, List.append_assoc]
    rfl

/-- An operator is as many tokens as characters. -/
theorem exists_append_operator (cs : List Char) :
    ∃ used, cs = used ++ (operator cs).2 ∧ used.length = (operator cs).1.length := by
  unfold operator
  split
  case h_1 w => exact ⟨[':', '+'], rfl, rfl⟩
  case h_2 w => exact ⟨[':', '-'], rfl, rfl⟩
  case h_3 w => exact ⟨[':', '='], rfl, rfl⟩
  case h_4 w => exact ⟨[':', '?'], rfl, rfl⟩
  case h_9 w => exact ⟨['?'], rfl, rfl⟩
  case h_10 w => exact ⟨['#', '#'], rfl, rfl⟩
  case h_12 w => exact ⟨['%', '%'], rfl, rfl⟩
  case h_14 w => exact ⟨[], rfl, rfl⟩
  all_goals exact ⟨[_], rfl, rfl⟩

end Operator

/-- The report that an operator misses its name. -/
def missingName (position : Nat) : List Char → List Event
  | c :: _ => if c ∈ Grammar.namedOperators then [.fault .missingParameter position] else []
  | [] => []

theorem mem_operators_of_mem_namedOperators {c : Char} (h : c ∈ Grammar.namedOperators) :
    c ∈ operators := List.mem_append_left ['#', '%'] h

theorem missingName_eq_nil {cs : List Char} (h : ∀ c ∈ cs.head?, c ∉ Grammar.namedOperators) :
    missingName position cs = [] := by
  cases cs with
  | nil => rfl
  | cons c cs => exact if_neg (h c rfl)

theorem unescape_ne_nil {cs : List Char} (h : cs ≠ []) : unescape cs ≠ [] := by
  cases cs using unescape.induct with
  | case1 cs => simp [unescape]
  | case2 c cs hNoPair =>
    rw [unescape]
    · exact List.cons_ne_nil _ _
    · exact hNoPair
  | case3 => exact absurd rfl h

/-- In front of the first operator stands the name, or nothing and a report. -/
theorem nameEvents_eq {name w : List Char} {c : Char} (hName : ∀ d ∈ name, d ∉ operators) :
    nameEvents (position + name.length) (unescape name) c =
      missingName position (name ++ c :: w) ++ (nameTokens name).map .token := by
  cases name with
  | nil =>
    unfold nameEvents missingName
    by_cases hc : c ∈ Grammar.namedOperators
    · simp only [List.nil_append]
      rw [if_pos hc, if_pos hc]
      rfl
    · simp only [List.nil_append]
      rw [if_neg hc, if_neg hc]
      rfl
  | cons d name =>
    have hMissing : missingName position (d :: name ++ c :: w) = [] := by
      refine missingName_eq_nil fun e he hNamed => ?_
      obtain rfl : d = e := by simpa using he
      exact hName d List.mem_cons_self (mem_operators_of_mem_namedOperators hNamed)
    have hEmpty : TextBuffer.isEmpty (unescape (d :: name)) = false := by
      simpa [TextBuffer.isEmpty] using unescape_ne_nil (List.cons_ne_nil d name)
    rw [hMissing]
    unfold nameEvents Parameter.nameEvent Parameter.optionalName
    rw [hEmpty]
    split
    · rfl
    · rfl

/-- **A parameter expansion is split at its first operator.**  Between the braces
a scan finds the tokens of the text, and reports an operator that the text
starts with and that must have a name in front. -/
theorem eventsFrom_braced {brace : Nat} {cs : List Char} (h : '}' ∉ cs) (rest : List Char) :
    eventsFrom limit
        ⟨position, .quoted ⟨start, text, commands, .parameter (Parameter.opened brace [])⟩⟩
        (cs ++ '}' :: rest) =
      missingName position cs ++ ((tokens cs).map .token ++ .punctuation .rightBrace ::
        eventsFrom limit ⟨position + cs.length + 1, .quoted ⟨start, text, commands, .nothing⟩⟩
          rest) := by
  have hNe : ∀ c ∈ cs, c ≠ '}' := by
    rintro c hc rfl
    exact h hc
  have hName : ∀ c ∈ cs.takeWhile (· ∉ operators), c ∉ operators := by
    intro c hc
    have hAll := List.all_eq_true.mp List.all_takeWhile c hc
    simpa using hAll
  have hSplit := List.takeWhile_append_dropWhile (p := (· ∉ operators)) (l := cs)
  unfold tokens
  cases hDrop : cs.dropWhile (· ∉ operators) with
  | nil =>
    -- No operator: the whole text is one segment.
    rw [hDrop, List.append_nil] at hSplit
    rw [hSplit] at hName
    have hMissing : missingName position cs = [] := missingName_eq_nil fun c hc hNamed =>
      hName c (List.mem_of_mem_head? hc) (mem_operators_of_mem_namedOperators hNamed)
    rw [hMissing]
    exact eventsFrom_lastSegment (fun c hc => ⟨hNe c hc, Or.inr (hName c hc)⟩) rest
  | cons c w =>
    rw [hDrop] at hSplit
    generalize cs.takeWhile (· ∉ operators) = name at hName hSplit
    subst hSplit
    have hc : c ∈ operators := by
      have hHead := List.head?_dropWhile_not (· ∉ operators) (name ++ c :: w)
      rw [hDrop] at hHead
      simpa using hHead
    obtain ⟨used, hUsed, hLength⟩ := exists_append_operator (c :: w)
    have hWord : ∀ d ∈ (operator (c :: w)).2, d ≠ '}' ∧ (true = true ∨ d ∉ operators) := by
      intro d hd
      refine ⟨hNe d ?_, Or.inl rfl⟩
      rw [hUsed]
      exact List.mem_append_right name (List.mem_append_right used hd)
    have hBrace : c ≠ '{' := by
      rintro rfl
      exact absurd hc (by decide)
    have hCollected : ∀ d ∈ name, d ≠ '}' ∧ (false = true ∨ d ∉ operators) := fun d hd =>
      ⟨hNe d (List.mem_append_left _ hd), Or.inr (hName d hd)⟩
    have hPosition : position + name.length + (operator (c :: w)).1.length +
        (operator (c :: w)).2.length = position + (name ++ c :: w).length := by
      have hTotal := congrArg List.length hUsed
      rw [List.length_append] at hTotal
      rw [List.length_append, hTotal]
      omega
    have hRead : eventsFrom limit
        ⟨position, .quoted ⟨start, text, commands, .parameter (Parameter.opened brace [])⟩⟩
        (name ++ c :: (w ++ '}' :: rest)) = _ := eventsFrom_collected hBrace hCollected _
    rw [List.append_assoc, List.cons_append, hRead, eventsFrom_operator hc,
      eventsFrom_lastSegment hWord, hPosition, List.nil_append, nameEvents_eq hName]
    simp only [List.map_append, List.map_map, List.append_assoc]
    rfl

end ShellLexer.Scan
