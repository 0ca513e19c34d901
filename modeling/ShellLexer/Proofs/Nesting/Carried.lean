import ShellLexer.Proofs.Nesting.Limit
import ShellLexer.Proofs.Reconstruct.Account

/-!
# Text past the limit

A `$` past the limit is a token, and what stands behind it is read by the
substitution around it.  That reads names, parentheses and `$`, so a name or a
substitution past the limit is carried by the tokens all the same.  It does not
read braces: the braces of a parameter expansion past the limit are reported and
dropped.

* `exists_of_tooDeep_mem`: where a `$` is reported, the scan stands in a command
  substitution with nothing pending.
* `tokenize_carried_iff`: a text that has no fault but its depth is carried as
  it is if and only if it has no `${` past the limit.
* `not_carried_deepParameter`: a text with such a `${`.
-/

namespace ShellLexer

namespace Scan

/-! ## Where a `$` is past the limit -/

/-- Inside a command substitution with nothing pending. -/
inductive InCommand : State (List Char) → Prop
  | quoted {start : Nat} {text : List Char} {command : Command} {outer : List Command} :
      InCommand (.quoted ⟨start, text, command :: outer, .nothing⟩)

section Steps

variable {n position start p : Nat} {text : List Char} {commands : List Command} {c : Char}
variable {s : State (List Char)} {es : List Event}

theorem Plain.Enters.tooDeep_not_mem (h : Plain.Enters position c s es) :
    .fault .nestedTooDeeply p ∉ es := by
  cases h <;> simp [Event.fault, Event.punctuation]

theorem Plain.tooDeep_not_mem_finish (q : Plain (List Char)) :
    .fault .nestedTooDeeply p ∉ q.finish := by
  cases q with
  | operator start first =>
    simp only [Plain.finish, singleEvent]
    split <;> simp [Event.fault, Event.punctuation]
  | _ => simp [Plain.finish, Event.fault, Event.punctuation]

theorem Plain.Steps.tooDeep_not_mem {q : Plain (List Char)} (h : Plain.Steps position q c s es) :
    .fault .nestedTooDeeply p ∉ es := by
  cases h with
  | ended _ hEnters =>
    exact List.not_mem_append q.tooDeep_not_mem_finish hEnters.tooDeep_not_mem
  | _ => simp [Event.fault, Event.punctuation]

theorem Parameter.Reads.tooDeep_not_mem {q : Parameter (List Char)}
    {next : Option (Parameter (List Char))} (h : Parameter.Reads position q c next es) :
    .fault .nestedTooDeeply p ∉ es := by
  cases h <;> simp [Event.fault, Event.punctuation, Event.segment, nameEvent, optionalName] <;>
    split <;> simp

theorem Parameter.Steps.tooDeep_not_mem {q : Parameter (List Char)}
    {next : Option (Parameter (List Char))} (h : Parameter.Steps position q c next es) :
    .fault .nestedTooDeeply p ∉ es := by
  cases h with
  | read hReads => exact hReads.tooDeep_not_mem
  | _ => simp [Event.fault, Event.punctuation]

theorem Quoted.Dollars.of_tooDeep_mem {depth : Nat} {inner : Inner (List Char)}
    (h : Quoted.Dollars (some n) position depth inner es)
    (hMem : .fault .nestedTooDeeply p ∈ es) : p = position ∧ inner = .nothing ∧ n ≤ depth := by
  cases h with
  | opens => simp [Event.fault, Event.punctuation] at hMem
  | deep hDeep =>
    have hPast : n ≤ depth := by simpa [Quoted.tooDeep] using hDeep
    have hPosition : p = position := by simpa [Event.fault, Event.punctuation] using hMem
    exact ⟨hPosition, rfl, hPast⟩

/-- The literal text of a string is within every limit, so a `$` past it is in a substitution. -/
theorem Quoted.Enters.of_tooDeep_mem (hn : 1 ≤ n)
    (h : Quoted.Enters (some n) position start text commands c s es)
    (hMem : .fault .nestedTooDeeply p ∈ es) : p = position ∧ InCommand s := by
  cases h with
  | close =>
    simp only [lastSegment] at hMem
    split at hMem <;> simp [Event.fault, Event.punctuation, Event.segment] at hMem
  | textDollar hDollars =>
    rcases List.mem_cons.mp hMem with hMem | hMem
    · cases hMem
    · obtain ⟨-, -, hDepth⟩ := hDollars.of_tooDeep_mem hMem
      omega
  | commandDollar hDollars =>
    obtain ⟨rfl, rfl, -⟩ := hDollars.of_tooDeep_mem hMem
    exact ⟨rfl, .quoted⟩
  | _ => simp [Event.fault, Event.punctuation] at hMem

theorem Quoted.Steps.of_tooDeep_mem (hn : 1 ≤ n) {inner : Inner (List Char)}
    (h : Quoted.Steps (some n) position start text commands inner c s es)
    (hMem : .fault .nestedTooDeeply p ∈ es) : p = position ∧ InCommand s := by
  cases h with
  | enter hEnters => exact hEnters.of_tooDeep_mem hn hMem
  | invalid _ _ _ hEnters | nameEnd _ hEnters =>
    rcases List.mem_cons.mp hMem with hMem | hMem
    · cases hMem
    · exact hEnters.of_tooDeep_mem hn hMem
  | parameter hSteps | parameterEnd hSteps => exact absurd hMem hSteps.tooDeep_not_mem
  | _ => simp [Event.fault, Event.punctuation] at hMem

theorem State.Steps.of_tooDeep_mem (hn : 1 ≤ n) {s' : State (List Char)}
    (h : State.Steps (some n) position s c s' es) (hMem : .fault .nestedTooDeeply p ∈ es) :
    p = position ∧ InCommand s' := by
  cases h with
  | plain hSteps => exact absurd hMem hSteps.tooDeep_not_mem
  | quoted hSteps => exact hSteps.of_tooDeep_mem hn hMem

/-- The end of a text is not past the limit. -/
theorem State.tooDeep_not_mem_finish (s : State (List Char)) :
    .fault .nestedTooDeeply p ∉ s.finish := by
  obtain q | ⟨start, text, commands, inner⟩ := s
  · exact q.tooDeep_not_mem_finish
  · simp only [State.finish, Quoted.finish_eq, Quoted.unclosed]
    cases inner <;> simp [Inner.finish, Event.fault]

end Steps

/-- Where a `$` is reported as nested too deeply, the scan is in a command substitution behind it,
with nothing pending. -/
theorem exists_of_tooDeep_mem {n : Nat} (hn : 1 ≤ n) {config : Config (List Char)}
    {cs : List Char} {p : Nat}
    (hMem : .fault .nestedTooDeeply p ∈ eventsFrom (some n) config cs) :
    ∃ front c back, cs = front ++ c :: back ∧ p = config.position + front.length ∧
      InCommand (config.after (some n) (front ++ [c])).state := by
  induction cs generalizing config with
  | nil => exact absurd hMem config.state.tooDeep_not_mem_finish
  | cons c cs ih =>
    rw [eventsFrom] at hMem
    rcases List.mem_append.mp hMem with hMem | hMem
    · obtain ⟨hPosition, hIn⟩ :=
        (config.state.steps (some n) config.position c).of_tooDeep_mem hn hMem
      exact ⟨[], c, cs, rfl, hPosition, hIn⟩
    · obtain ⟨front, d, back, rfl, rfl, hIn⟩ := ih hMem
      refine ⟨c :: front, d, back, rfl, ?_, hIn⟩
      rw [Config.step_position, List.length_cons]
      omega

/-- A brace in a command substitution is reported and dropped. -/
theorem unhandled_brace_mem {n : Nat} {config : Config (List Char)} (h : InCommand config.state)
    (cs : List Char) :
    .fault (.unhandledInCommand '{') config.position ∈ eventsFrom (some n) config ('{' :: cs) := by
  obtain ⟨position, s⟩ := config
  cases h with
  | quoted => exact List.mem_append_left _ (List.mem_singleton.mpr rfl)

/-- The brace of a `${` past the limit is reported and dropped. -/
theorem unhandled_brace_mem_of_tooDeep {n : Nat} (hn : 1 ≤ n) {front back : List Char}
    (hMem : .fault .nestedTooDeeply front.length ∈
      eventsFrom (some n) (Config.initial : Config (List Char)) (front ++ '$' :: '{' :: back)) :
    .fault (.unhandledInCommand '{') (front.length + 1) ∈
      eventsFrom (some n) (Config.initial : Config (List Char)) (front ++ '$' :: '{' :: back) := by
  obtain ⟨front', c, back', hText, hLength, hIn⟩ := exists_of_tooDeep_mem hn hMem
  obtain ⟨rfl, hRest⟩ := List.append_inj hText (hLength.trans (Nat.zero_add _))
  obtain ⟨rfl, rfl⟩ := List.cons.inj hRest
  have hSplit : front ++ '$' :: '{' :: back = (front ++ ['$']) ++ '{' :: back := by simp
  have hPosition : ((Config.initial : Config (List Char)).after (some n)
      (front ++ ['$'])).position = 0 + (front ++ ['$']).length := Config.after_position _ _
  have hBrace := unhandled_brace_mem (n := n) hIn back
  rw [hPosition, List.length_append] at hBrace
  rw [hSplit, eventsFrom_append]
  refine List.mem_append_right _ ?_
  simpa [Config.initial] using hBrace

end Scan

/-! ## What is carried -/

/-- Without a limit on the depth nothing is wrong with the text. -/
theorem fault_of_mem_tokenize {text : String} (hClean : (tokenizeWithin none text).diagnostics = [])
    (hBraces : Scan.BracesWithin Scan.maxExpansionDepth text.toList) {d : Diagnostic}
    (hd : d ∈ (tokenize text).diagnostics) : d.fault = .nestedTooDeeply := by
  have hFlattens := Scan.flattens_eventsFrom (by decide) hBraces
  rw [mem_diagnostics_tokenize, events_eq] at hd
  rcases hFlattens.mem hd with hFault | hDeep
  · exact hFault
  · rw [tokenizeWithin_eq] at hClean
    have hNone := List.filterMap_eq_nil_iff.mp hClean _ hDeep
    contradiction

/-- Nothing but its depth is reported of the text, and its tokens give it back as it is. -/
def Carried (text : String) : Prop :=
  (∀ d ∈ (tokenize text).diagnostics, d.fault = .nestedTooDeeply) ∧
    (tokenize text).tokens.reconstruct = text

/-- **Text past the limit is carried, braces apart.**  A text without a backslash in which nothing
would be wrong if expansions could nest without limit is carried exactly if no `$` that is reported
as nested too deeply has an opening brace behind it. -/
theorem tokenize_carried_iff (text : String) (hBackslash : '\\' ∉ text.toList)
    (hClean : (tokenizeWithin none text).diagnostics = []) :
    Carried text ↔ ∀ front back, text.toList = front ++ '$' :: '{' :: back →
      ⟨.nestedTooDeeply, front.length⟩ ∉ (tokenize text).diagnostics := by
  constructor
  · rintro ⟨hFaults, -⟩ front back hText hDeep
    rw [mem_diagnostics_tokenize, events_eq, hText] at hDeep
    have hBrace := Scan.unhandled_brace_mem_of_tooDeep (by decide) hDeep
    rw [← hText, ← events_eq] at hBrace
    have hFault := hFaults _ (mem_diagnostics_tokenize.mpr hBrace)
    contradiction
  · intro hShallow
    have hBraces : Scan.BracesWithin Scan.maxExpansionDepth text.toList := by
      intro front back hText
      have hNot := hShallow front back hText
      rwa [mem_diagnostics_tokenize, events_eq] at hNot
    have hFaults : ∀ d ∈ (tokenize text).diagnostics, d.fault = .nestedTooDeeply :=
      fun d hd => fault_of_mem_tokenize hClean hBraces hd
    refine ⟨hFaults, reconstruct_tokenize_of_not_mem_backslash hBackslash ?_ ?_⟩
    · intro d hd
      rw [hFaults d hd]
      rfl
    · intro d hd
      rw [hFaults d hd]
      decide

/-- `inner` inside as many command substitutions as may nest. -/
def atLimit (inner : List Char) : List Char :=
  '"' :: ((List.replicate Scan.maxExpansionDepth ['$', '(']).flatten ++ inner ++
    List.replicate Scan.maxExpansionDepth ')' ++ ['"'])

/-- A substitution with a name past the limit. -/
def deepName : String := String.ofList (atLimit ['$', '(', '$', 'x', '(', 'y', ')', ')'])

/-- A parameter expansion past the limit. -/
def deepParameter : String := String.ofList (atLimit ['$', '{', 'x', '}'])

theorem carried_deepName :
    '\\' ∉ deepName.toList ∧ (tokenizeWithin none deepName).diagnostics = [] ∧
      Carried deepName := by
  have hBackslash : '\\' ∉ deepName.toList := by
    rw [deepName, String.toList_ofList]
    decide +kernel
  have hClean : (tokenizeWithin none deepName).diagnostics = [] := by
    rw [tokenizeWithin_eq, deepName, String.toList_ofList]
    decide +kernel
  have hBrace : '{' ∉ deepName.toList := by
    rw [deepName, String.toList_ofList]
    decide +kernel
  refine ⟨hBackslash, hClean, (tokenize_carried_iff deepName hBackslash hClean).mpr ?_⟩
  intro front back hText
  exact absurd (by simp [hText]) hBrace

/-- The braces past the limit are reported and dropped, although nothing but its depth is wrong with
the text. -/
theorem not_carried_deepParameter :
    '\\' ∉ deepParameter.toList ∧ (tokenizeWithin none deepParameter).diagnostics = [] ∧
      (¬ ∀ d ∈ (tokenize deepParameter).diagnostics, d.fault = .nestedTooDeeply) ∧
      (tokenize deepParameter).tokens.reconstruct ≠ deepParameter := by
  refine ⟨?_, ?_, ?_, ?_⟩
  · rw [deepParameter, String.toList_ofList]
    decide +kernel
  · rw [tokenizeWithin_eq, deepParameter, String.toList_ofList]
    decide +kernel
  · intro hFaults
    have hBrace : ⟨.unhandledInCommand '{', 402⟩ ∈ (tokenize deepParameter).diagnostics := by
      rw [tokenize_diagnostics, events_eq, deepParameter, String.toList_ofList]
      decide +kernel
    exact absurd (hFaults _ hBrace) (by decide)
  · intro hSame
    have hDropped : '{' ∉ (tokenize deepParameter).tokens.reconstruct.toList := by
      rw [toList_reconstruct_tokenize, events_eq, deepParameter, String.toList_ofList]
      decide +kernel
    rw [hSame, deepParameter, String.toList_ofList] at hDropped
    exact hDropped (by decide +kernel)

end ShellLexer
