import ShellLexer.Proofs.Grammar.Reading
import ShellLexer.Proofs.Buffer.Encoded

/-!
# Texts without a report are derived

`Closes n depths cs` describes what may follow inside double quotes: the rest of
the innermost body up to its parenthesis, then the rest of each body around it,
then the rest of the string up to its quote, then a script.  Every character that
a scan passes without a report can be put in front of what may follow behind it
(`Closes.name`, `Closes.openParen` and so on), so what follows a state without a
report is what may follow it (`follows_of_clean`).

* `tokenize_diagnostics_eq_nil_iff`: a text has no diagnostics if and only if the grammar
  derives it.
-/

namespace ShellLexer.Scan

open Grammar

/-! ## What may follow inside double quotes -/

/-- The rest of every construct that is open in double quotes, innermost first, and the rest of
the script.  `n` is how deep expansions nest at most. -/
inductive Closes (n : Nat) : List Nat → List Char → Prop
  | string {items rest : List Char} : Derives (.items n) items → Derives (.script n) rest →
      Closes n [] (items ++ '"' :: rest)
  | group {m d : Nat} {ds : List Nat} {body rest : List Char} : m + (ds.length + 1) = n →
      Derives (.body m) body → Closes n (d :: ds) rest →
        Closes n ((d + 1) :: ds) (body ++ ')' :: rest)
  | command {m : Nat} {ds : List Nat} {body rest : List Char} : m + (ds.length + 1) = n →
      Derives (.body m) body → Closes n ds rest → Closes n (0 :: ds) (body ++ ')' :: rest)

namespace Closes

variable {n d : Nat} {ds depths : List Nat} {cs : List Char}

/-- Inside a command substitution, the rest starts with a body, and any other body may stand there
as well. -/
theorem exists_body (h : Closes n (d :: ds) cs) :
    ∃ m body rest, m + (ds.length + 1) = n ∧ Derives (.body m) body ∧ cs = body ++ ')' :: rest ∧
      ∀ other, Derives (.body m) other → Closes n (d :: ds) (other ++ ')' :: rest) := by
  cases h with
  | group hDepth hBody hRest =>
    exact ⟨_, _, _, hDepth, hBody, rfl, fun _ hOther => .group hDepth hOther hRest⟩
  | command hDepth hBody hRest =>
    exact ⟨_, _, _, hDepth, hBody, rfl, fun _ hOther => .command hDepth hOther hRest⟩

theorem literal {c : Char} (hc : c ∉ ['"', '\\', '$']) (h : Closes n [] cs) :
    Closes n [] (c :: cs) := by
  cases h with
  | string hItems hRest => exact .string (.literal hc hItems) hRest

theorem escape {c : Char} (h : Closes n [] cs) : Closes n [] ('\\' :: c :: cs) := by
  cases h with
  | string hItems hRest => exact .string (.escape hItems) hRest

theorem name {c : Char} (hc : isNameChar c) (h : Closes n (d :: ds) cs) :
    Closes n (d :: ds) (c :: cs) := by
  obtain ⟨m, body, rest, -, hBody, rfl, hOther⟩ := h.exists_body
  exact hOther (c :: body) (.bodyName hc hBody)

/-- A name character may stand behind any other, in a text as in a body. -/
theorem word {c : Char} (hc : isNameChar c) (h : Closes n depths cs) :
    Closes n depths (c :: cs) := by
  cases depths with
  | nil =>
    refine h.literal ?_
    intro hMem
    simp only [List.mem_cons, List.not_mem_nil, or_false] at hMem
    obtain rfl | rfl | rfl := hMem
    all_goals exact absurd hc (by decide)
  | cons d ds => exact h.name hc

theorem openParen (h : Closes n ((d + 1) :: ds) cs) : Closes n (d :: ds) ('(' :: cs) := by
  cases h with
  | @group m _ _ inner rest hDepth hInner hRest =>
    obtain ⟨m', body, rest, hDepth', hBody, rfl, hOther⟩ := hRest.exists_body
    obtain rfl : m = m' := by omega
    have hGroup := hOther _ (.group hInner hBody)
    simpa only [List.cons_append, List.append_assoc] using hGroup

theorem closeParen (h : Closes n (d :: ds) cs) : Closes n ((d + 1) :: ds) (')' :: cs) := by
  obtain ⟨m, -, -, hDepth, -⟩ := h.exists_body
  exact .group hDepth .bodyEnd h

theorem closeCommand (hDepth : ds.length < n) (h : Closes n ds cs) :
    Closes n (0 :: ds) (')' :: cs) := by
  have hSpare : n - (ds.length + 1) + (ds.length + 1) = n := by omega
  exact .command hSpare .bodyEnd h

/-- An expansion may stand between any two parts. -/
theorem expansion {m : Nat} {es : List Char} (hDepth : m + depths.length = n)
    (hExpansion : Derives (.expansion m) es) (h : Closes n depths cs) :
    Closes n depths (es ++ cs) := by
  cases depths with
  | nil =>
    obtain rfl : m = n := hDepth
    cases h with
    | string hItems hRest =>
      rw [← List.append_assoc]
      exact .string (.itemsExpansion hExpansion hItems) hRest
  | cons d ds =>
    obtain ⟨m', body, rest, hDepth', hBody, rfl, hOther⟩ := h.exists_body
    rw [List.length_cons] at hDepth
    obtain rfl : m = m' := by omega
    rw [← List.append_assoc]
    exact hOther _ (.bodyExpansion hExpansion hBody)

theorem dollarName {c : Char} (hDepth : depths.length < n) (hc : isNameStart c)
    (h : Closes n depths cs) : Closes n depths ('$' :: c :: cs) := by
  have hSpare : n - (depths.length + 1) + 1 + depths.length = n := by omega
  exact h.expansion hSpare (.name hc)

theorem dollarParen (h : Closes n (0 :: depths) cs) :
    Closes n depths ('$' :: '(' :: cs) := by
  cases h with
  | @command m _ body rest hDepth hBody hRest =>
    have hSpare : m + 1 + depths.length = n := by omega
    have hExpansion := hRest.expansion hSpare (.command hBody)
    simpa only [List.cons_append, List.append_assoc, List.nil_append] using hExpansion

theorem dollarBrace {text : List Char} (hDepth : depths.length < n) (hText : ParameterText text)
    (h : Closes n depths cs) : Closes n depths ('$' :: '{' :: (text ++ '}' :: cs)) := by
  have hSpare : n - (depths.length + 1) + 1 + depths.length = n := by omega
  have hExpansion := h.expansion hSpare (.parameter hText)
  simpa only [List.cons_append, List.append_assoc, List.nil_append] using hExpansion

end Closes

/-! ## What may follow a state -/

/-- What may follow inside a parameter expansion with `depths` around it. -/
def FollowsParameter (n : Nat) (depths : List Nat) (p : Parameter (List Char))
    (cs : List Char) : Prop :=
  ∃ text rest, cs = text ++ '}' :: rest ∧ '}' ∉ text ∧
    (p.Fresh → ∀ c ∈ text.head?, c ∉ namedOperators) ∧ Closes n depths rest

/-- What may follow where a scan stands, if nothing is to be reported. -/
def Follows (n : Nat) : State (List Char) → List Char → Prop
  | .plain (.operator _ first), cs => (Punctuation.ofChar? first).isSome ∧ Derives (.script n) cs
  | .plain (.singleQuoted _ _), cs =>
    ∃ text rest, cs = text ++ '\'' :: rest ∧ '\'' ∉ text ∧ Derives (.script n) rest
  | .plain _, cs => Derives (.script n) cs
  | .quoted ⟨_, _, commands, .backslash⟩, cs =>
    ∃ c rest, cs = c :: rest ∧ Closes n (depthsOf commands) rest
  | .quoted ⟨_, _, commands, .dollar _⟩, cs => Closes n (depthsOf commands) ('$' :: cs)
  | .quoted ⟨_, _, commands, .parameter p⟩, cs => FollowsParameter n (depthsOf commands) p cs
  | .quoted ⟨_, _, commands, _⟩, cs => Closes n (depthsOf commands) cs

/-- Expansions nest at most `n` levels deep around the next character, and at a `$` one level less.
Inside a parameter expansion, an operator can only miss a name at the start. -/
def State.Nested (n : Nat) : State (List Char) → Prop
  | .plain _ => True
  | .quoted ⟨_, _, commands, .dollar _⟩ => commands.length < n
  | .quoted ⟨_, _, commands, .parameter p⟩ => commands.length ≤ n ∧ (p.Fresh ∨ p.Named)
  | .quoted ⟨_, _, commands, _⟩ => commands.length ≤ n

section Steps

variable {n position start : Nat} {c : Char} {cs text : List Char} {commands : List Command}
variable {s : State (List Char)} {es : List Event}

theorem Plain.Enters.nested (h : Plain.Enters position c s es) : s.Nested n := by
  cases h with
  | doubleQuote => exact Nat.zero_le n
  | newline | blank | name | singleQuote | operator | unexpected => trivial

theorem Plain.Steps.nested {p : Plain (List Char)} (h : Plain.Steps position p c s es) :
    s.Nested n := by
  cases h with
  | ended _ hEnters => exact hEnters.nested
  | blank | name | doubleLess | pair | doubleLessDash | quotedChar | closingQuote => trivial

theorem Quoted.Dollars.nested {depth : Nat} {inner : Inner (List Char)}
    (h : Quoted.Dollars (some n) position depth inner es) (hLength : commands.length = depth)
    (hDepth : depth ≤ n) : State.Nested n (.quoted ⟨start, text, commands, inner⟩) := by
  subst hLength
  cases h with
  | deep => exact hDepth
  | opens hShallow =>
    have hOpen : ¬ n ≤ commands.length := by simpa [tooDeep] using hShallow
    exact Nat.lt_of_not_le hOpen

theorem Quoted.Enters.nested (h : Quoted.Enters (some n) position start text commands c s es)
    (hDepth : commands.length ≤ n) : s.Nested n := by
  cases h with
  | close => trivial
  | textDollar hDollars => exact hDollars.nested rfl hDepth
  | commandDollar hDollars => exact hDollars.nested rfl hDepth
  | closeCommand => exact Nat.le_of_succ_le hDepth
  | backslash | literal | openParen | closeParen | name | unhandled => exact hDepth

theorem State.Nested.step {s' : State (List Char)} (h : s.Nested n)
    (hStep : State.Steps (some n) position s c s' es) : s'.Nested n := by
  cases hStep with
  | plain hStep => exact hStep.nested
  | @quoted _ _ commands _ _ _ _ hStep =>
    cases hStep with
    | enter hEnters => exact hEnters.nested h
    | escaped | continued | unescaped | name => exact h
    | openCommand => exact h
    | openParameter => exact ⟨Nat.le_of_lt h, Or.inl ⟨rfl, rfl, rfl⟩⟩
    | dollarName => exact Nat.le_of_lt h
    | invalid _ _ _ hEnters => exact hEnters.nested (Nat.le_of_lt h)
    | nameEnd _ hEnters => exact hEnters.nested h
    | parameter hSteps => exact ⟨h.1, Or.inr (hSteps.named h.2)⟩
    | parameterEnd => exact h.1

/-! ## One character in front of what follows -/

theorem Plain.Enters.follows (h : Plain.Enters position c s es) (hClean : Clean es)
    (hFollows : Follows n s cs) : Derives (.script n) (c :: cs) := by
  cases h with
  | newline => exact .whitespace (by decide) hFollows
  | blank hBlank => exact .whitespace (by simp [isWhitespace, hBlank]) hFollows
  | name hName => exact .scriptName hName hFollows
  | singleQuote =>
    obtain ⟨text, rest, rfl, hText, hRest⟩ := hFollows
    exact .singleQuoted hText hRest
  | doubleQuote =>
    have hCloses : Closes n [] cs := hFollows
    cases hCloses with
    | string hItems hRest => exact .doubleQuoted hItems hRest
  | operator => exact .operator hFollows.1 hFollows.2
  | unexpected => exact absurd hClean not_clean_cons_fault

theorem isSome_ofChar?_of_clean (h : Clean [singleEvent start c]) :
    (Punctuation.ofChar? c).isSome := by
  cases hc : Punctuation.ofChar? c with
  | some o => rfl
  | none =>
    rw [singleEvent, hc] at h
    exact absurd h not_clean_cons_fault

/-- What is complete has no say in what follows it. -/
theorem Plain.EndsBefore.follows {p : Plain (List Char)} (h : p.EndsBefore c)
    (hClean : Clean p.finish) (hDerives : Derives (.script n) (c :: cs)) :
    Follows n (.plain p) (c :: cs) := by
  cases p with
  | nothing | blanks | word | doubleLess => exact hDerives
  | operator start first => exact ⟨isSome_ofChar?_of_clean hClean, hDerives⟩
  | singleQuoted => exact h.elim

theorem Plain.Steps.follows {p : Plain (List Char)} (h : Plain.Steps position p c s es)
    (hClean : Clean es) (hFollows : Follows n s cs) : Follows n (.plain p) (c :: cs) := by
  cases h with
  | ended hEnds hEnters =>
    obtain ⟨hNow, hLater⟩ := clean_append.mp hClean
    exact hEnds.follows hNow (hEnters.follows hLater hFollows)
  | blank hBlank => exact .whitespace (by simp [isWhitespace, hBlank]) hFollows
  | name hName => exact .scriptName hName hFollows
  | doubleLess => exact ⟨by decide, .operator (by decide) hFollows⟩
  | pair hPair =>
    obtain ⟨hFirst, hc⟩ := Punctuation.isSome_ofChar?_of_ofPair? hPair
    exact ⟨hFirst, .operator hc hFollows⟩
  | doubleLessDash => exact .operator (by decide) hFollows
  | quotedChar hOther =>
    obtain ⟨text, rest, rfl, hText, hRest⟩ := hFollows
    exact ⟨c :: text, rest, rfl, List.not_mem_cons_of_ne_of_not_mem hOther.symm hText, hRest⟩
  | closingQuote => exact ⟨[], cs, rfl, List.not_mem_nil, hFollows⟩

theorem Quoted.Dollars.follows {depth : Nat} {inner : Inner (List Char)}
    (h : Quoted.Dollars (some n) position depth inner es) (hClean : Clean es)
    (hFollows : Follows n (.quoted ⟨start, text, commands, inner⟩) cs) :
    Closes n (depthsOf commands) ('$' :: cs) := by
  cases h with
  | opens => exact hFollows
  | deep => exact absurd hClean.tail not_clean_cons_fault

theorem length_depthsOf (commands : List Command) : (depthsOf commands).length = commands.length :=
  List.length_map _

theorem Quoted.Enters.follows (h : Quoted.Enters (some n) position start text commands c s es)
    (hDepth : commands.length ≤ n) (hClean : Clean es) (hFollows : Follows n s cs) :
    Closes n (depthsOf commands) (c :: cs) := by
  cases h with
  | close => exact .string .itemsEnd hFollows
  | backslash =>
    obtain ⟨d, rest, rfl, hRest⟩ := hFollows
    exact Closes.escape hRest
  | textDollar hDollars => exact hDollars.follows hClean.tail hFollows
  | literal hQuote hBackslash hDollar =>
    exact Closes.literal (by simp [hQuote, hBackslash, hDollar]) hFollows
  | commandDollar hDollars => exact hDollars.follows hClean hFollows
  | openParen => exact Closes.openParen hFollows
  | closeParen => exact Closes.closeParen hFollows
  | @closeCommand _ outer =>
    have hOuter : (depthsOf outer).length < n := by
      rw [length_depthsOf]
      exact hDepth
    exact Closes.closeCommand hOuter hFollows
  | name hName => exact Closes.name hName hFollows
  | unhandled => exact absurd hClean not_clean_cons_fault

theorem Parameter.Steps.follows {depths : List Nat} {p p' : Parameter (List Char)}
    (h : Parameter.Steps position p c (some p') es) (hClean : Clean es)
    (hFollows : FollowsParameter n depths p' cs) : FollowsParameter n depths p (c :: cs) := by
  obtain ⟨text, rest, rfl, hClosed, -, hRest⟩ := hFollows
  refine ⟨c :: text, rest, rfl, List.not_mem_cons_of_ne_of_not_mem h.ne_brace.symm hClosed, ?_,
    hRest⟩
  intro hFresh d hd
  obtain rfl : c = d := by simpa using hd
  exact h.not_mem_namedOperators hFresh hClean

theorem Quoted.Steps.follows {inner : Inner (List Char)}
    (h : Quoted.Steps (some n) position start text commands inner c s es)
    (hNested : State.Nested n (.quoted ⟨start, text, commands, inner⟩)) (hClean : Clean es)
    (hFollows : Follows n s cs) : Follows n (.quoted ⟨start, text, commands, inner⟩) (c :: cs) := by
  have hLength := length_depthsOf commands
  cases h with
  | enter hEnters => exact hEnters.follows hNested hClean hFollows
  | escaped | continued | unescaped => exact ⟨_, cs, rfl, hFollows⟩
  | openCommand => exact Closes.dollarParen hFollows
  | openParameter =>
    obtain ⟨inside, rest, rfl, hClosed, hNamed, hRest⟩ := hFollows
    exact hRest.dollarBrace (hLength ▸ hNested) ⟨hClosed, hNamed ⟨rfl, rfl, rfl⟩⟩
  | dollarName hName => exact Closes.dollarName (hLength ▸ hNested) hName hFollows
  | invalid => exact absurd hClean not_clean_cons_fault
  | name hName => exact Closes.word hName hFollows
  | nameEnd _ hEnters => exact hEnters.follows hNested hClean.tail hFollows
  | parameter hSteps => exact hSteps.follows hClean hFollows
  | parameterEnd hSteps =>
    obtain rfl := hSteps.eq_brace
    have hNone : ∀ d ∈ ([] : List Char).head?, d ∉ namedOperators := by simp
    exact ⟨[], cs, rfl, List.not_mem_nil, fun _ => hNone, hFollows⟩

/-- **What a scan passes without a report may follow where it starts.** -/
theorem follows_of_clean (hNested : s.Nested n)
    (h : Clean (eventsFrom (some n) ⟨position, s⟩ cs)) : Follows n s cs := by
  induction cs generalizing s position with
  | nil =>
    rw [eventsFrom] at h
    obtain p | q := s
    · cases p with
      | nothing | blanks | word | doubleLess => exact .scriptEnd
      | operator start c => exact ⟨isSome_ofChar?_of_clean h, .scriptEnd⟩
      | singleQuoted start text => exact absurd h not_clean_cons_fault
    · have hUnclosed := (clean_append.mp h).2
      exact absurd hUnclosed not_clean_cons_fault
  | cons c cs ih =>
    rw [eventsFrom, clean_append] at h
    obtain ⟨hNow, hLater⟩ := h
    have hStep := s.steps (some n) position c
    have hFollows := ih (hNested.step hStep) hLater
    cases hStep with
    | plain hStep => exact hStep.follows hNow hFollows
    | quoted hStep => exact hStep.follows hNested hNow hFollows

end Steps

theorem clean_iff_derives {n : Nat} {cs : List Char} :
    Clean (eventsFrom (some n) (Config.initial : Config (List Char)) cs) ↔
      Derives (.script n) cs := by
  constructor
  · exact fun h => follows_of_clean (s := .plain .nothing) trivial h
  · exact clean_of_derives

end ShellLexer.Scan

namespace ShellLexer

/-- **The scanner accepts exactly its grammar.**  A text is scanned without a
diagnostic if and only if the grammar derives it, with expansions nested at most
`Scan.maxExpansionDepth` levels deep. -/
theorem tokenize_diagnostics_eq_nil_iff (text : String) :
    (tokenize text).diagnostics = [] ↔
      Grammar.Derives (.script Scan.maxExpansionDepth) text.toList := by
  rw [tokenize_diagnostics, List.filterMap_eq_nil_iff, ← Scan.clean_iff_derives, ← events_eq]
  have hToken : ∀ e : Scan.Event, e.diagnostic? = none ↔ e.isToken = true := by
    intro e
    cases e with
    | token t => exact ⟨fun _ => rfl, fun _ => rfl⟩
    | diagnostic d => exact ⟨fun h => (nomatch h), fun h => (nomatch h)⟩
  exact forall₂_congr fun e _ => hToken e

end ShellLexer
