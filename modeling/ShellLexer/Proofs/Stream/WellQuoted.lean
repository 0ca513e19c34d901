import ShellLexer.Proofs.Growth
import ShellLexer.Proofs.Reconstruct.Account
import ShellLexer.Proofs.Stream.Place

/-!
# Every scan is well quoted

Outside double quotes a scan is at the place outside.  Inside them the brackets
that are open are known from its state (`Quoted.opened`): the brace of the
parameter expansion that is being read, and for each command substitution its
own parenthesis and those counted inside it.  `State.At` relates the two, and
the tokens of every step lead from the place the scan is at to the place it is
at behind the step.

* `State.Steps.leads`: one step.
* `leads_found`: a run.
* `State.At.exists_path_finish`: the end of the text.
* `tokenize_wellQuoted`: the tokens of every text have the shape.
-/

namespace ShellLexer

namespace Scan

/-! ## Brackets that are open -/

variable {β : Type}

/-- The parentheses that are open in command substitutions. -/
def openedIn (commands : List Command) : List Bracket :=
  commands.flatMap fun command => List.replicate (command.nested + 1) .paren

def Inner.opened : Inner β → List Bracket
  | parameter _ => [.brace]
  | nothing | backslash | dollar _ | word _ => []

/-- The brackets that are open around the next character, innermost first. -/
def Quoted.opened (q : Quoted β) : List Bracket := q.inner.opened ++ openedIn q.commands

theorem openedIn_command (start : Nat) (outer : List Command) :
    openedIn (⟨start, 0⟩ :: outer) = .paren :: openedIn outer := rfl

theorem openedIn_nested (start nested : Nat) (outer : List Command) :
    openedIn (⟨start, nested + 1⟩ :: outer) = .paren :: openedIn (⟨start, nested⟩ :: outer) := rfl

/-- The places where a scan stands in a state. -/
inductive State.At : State β → Place → Prop
  | plain (p : Plain β) : At (.plain p) .outside
  | quoted {q : Quoted β} {last : Token} (settled : last ≠ .emptySegment) :
      At (.quoted q) (.inside q.opened last)

/-! ## Tokens that lead on -/

/-- The tokens among the events lead from the place `p` to one where a scan stands in `s`. -/
def Leads (p : Place) (es : List Event) (s : State (List Char)) : Prop :=
  ∃ q, p.Path (tokensOf es) q ∧ s.At q

section Leads

variable {p q : Place} {es fs : List Event} {s : State (List Char)} {t : Token}

theorem Leads.nil (h : s.At p) : Leads p [] s := ⟨p, .nil p, h⟩

theorem Leads.token (hNext : p.Next t q) (h : Leads q es s) : Leads p (.token t :: es) s := by
  obtain ⟨r, hPath, hAt⟩ := h
  exact ⟨r, .cons hNext hPath, hAt⟩

theorem Leads.fault {f : Fault} {position : Nat} (h : Leads p es s) :
    Leads p (.fault f position :: es) s := h

theorem Leads.append (hPath : p.Path (tokensOf es) q) (h : Leads q fs s) :
    Leads p (es ++ fs) s := by
  obtain ⟨r, hRest, hAt⟩ := h
  rw [Leads, tokensOf_append]
  exact ⟨r, hPath.append hRest, hAt⟩

end Leads

/-! ## Outside double quotes -/

/-- The tokens among the events are of kinds that stand outside double quotes. -/
def Outer (es : List Event) : Prop := ∀ t ∈ tokensOf es, t.kind.isOfQuotes = false

theorem Outer.path {es : List Event} (h : Outer es) :
    Place.outside.Path (tokensOf es) .outside := by
  unfold Outer at h
  generalize tokensOf es = ts at h ⊢
  induction ts with
  | nil => exact .nil _
  | cons t ts ih =>
    obtain ⟨hFirst, hRest⟩ := List.forall_mem_cons.mp h
    exact .cons (.outer hFirst) (ih hRest)

theorem Outer.nil : Outer [] := fun _ h => absurd h List.not_mem_nil

theorem Outer.one {t : Token} (h : t.kind.isOfQuotes = false) : Outer [.token t] :=
  List.forall_mem_singleton.mpr h

theorem Outer.fault (f : Fault) (position : Nat) : Outer [.fault f position] := Outer.nil

theorem isOfQuotes_eq_false_of_mem {p : Punctuation}
    (h : p ∈ Punctuation.singles ++ Punctuation.pairs) :
    (Kind.punctuation p).isOfQuotes = false := by
  have hAll : ∀ p ∈ Punctuation.singles ++ Punctuation.pairs,
      (Kind.punctuation p).isOfQuotes = false := by decide
  exact hAll p h

theorem wordToken_kind_eq (text : List Char) :
    (wordToken text).kind = .word ∨ (wordToken text).kind = .name ∨
      ∃ w, (wordToken text).kind = .reserved w := by
  unfold wordToken Token.ofName
  split
  · exact Or.inl rfl
  · split
    · exact Or.inr (Or.inr ⟨_, rfl⟩)
    · exact Or.inr (Or.inl rfl)

theorem Outer.wordToken (text : List Char) : Outer [.token (wordToken text)] := by
  refine .one ?_
  rcases wordToken_kind_eq text with h | h | ⟨w, h⟩ <;> rw [h] <;> rfl

theorem Outer.singleEvent (start : Nat) (c : Char) : Outer [singleEvent start c] := by
  unfold Scan.singleEvent
  split
  · rename_i p hSingle
    exact .one (isOfQuotes_eq_false_of_mem
      (List.mem_append_left _ (List.mem_of_find?_eq_some hSingle)))
  · exact .fault _ _

theorem Plain.finish_outer (p : Plain (List Char)) : Outer p.finish := by
  cases p with
  | nothing => exact .nil
  | blanks text => exact .one rfl
  | doubleLess => exact .one rfl
  | word text => exact .wordToken text
  | operator start first => exact .singleEvent start first
  | singleQuoted start => exact .fault _ _

section Steps

variable {limit : Option Nat} {position start : Nat} {text : List Char} {commands : List Command}
variable {c : Char} {s : State (List Char)} {es : List Event}

theorem Outer.leads (h : Outer es) (p : Plain (List Char)) : Leads .outside es (.plain p) :=
  ⟨.outside, h.path, .plain p⟩

theorem Plain.Enters.leads (h : Plain.Enters position c s es) : Leads .outside es s := by
  cases h with
  | newline => exact Outer.leads (.one rfl) _
  | blank | name | singleQuote | operator => exact Outer.leads .nil _
  | doubleQuote => exact .token (.opening rfl) (.nil (.quoted (by decide)))
  | unexpected => exact Outer.leads (.fault _ _) _

theorem Plain.Steps.leads {p : Plain (List Char)} (h : Plain.Steps position p c s es) :
    Leads .outside es s := by
  cases h with
  | ended _ hEnters => exact .append p.finish_outer.path hEnters.leads
  | blank | name | doubleLess | quotedChar => exact Outer.leads .nil _
  | pair hPair =>
    have hMem := List.mem_append_right Punctuation.singles (List.mem_of_find?_eq_some hPair)
    exact Outer.leads (.one (isOfQuotes_eq_false_of_mem hMem)) _
  | doubleLessDash | closingQuote => exact Outer.leads (.one rfl) _

/-! ## Inside double quotes -/

theorem ne_emptySegment {t : Token} (h : t.kind ≠ .segment) : t ≠ .emptySegment :=
  fun hEmpty => h (congrArg Token.kind hEmpty)

theorem segment_ne_emptySegment {text : List Char} (h : text ≠ []) :
    (⟨.segment, String.ofList text⟩ : Token) ≠ .emptySegment := by
  intro hEmpty
  have hText : String.ofList text = "" := congrArg Token.text hEmpty
  exact h (by simpa using congrArg String.toList hText)

theorem punctuation_ne_emptySegment (p : Punctuation) :
    Token.punctuation p ≠ .emptySegment := ne_emptySegment nofun

variable {opened : List Bracket} {last : Token} {p : Parameter (List Char)} {o : Punctuation}

theorem wordToken_ne_emptySegment (name : List Char) : wordToken name ≠ .emptySegment := by
  refine ne_emptySegment ?_
  rcases wordToken_kind_eq name with h | h | ⟨w, h⟩ <;> rw [h] <;> exact nofun

theorem next_wordToken (hSettled : last ≠ .emptySegment) (name : List Char) :
    (Place.inside opened last).Next (wordToken name) (.inside opened (wordToken name)) := by
  refine .text ?_ hSettled
  rcases wordToken_kind_eq name with h | h | ⟨w, h⟩ <;> rw [h] <;> rfl

/-- A segment with some text, if there is any. -/
def Segments (es : List Event) : Prop :=
  tokensOf es = [] ∨ ∃ text, text ≠ [] ∧ tokensOf es = [⟨.segment, String.ofList text⟩]

theorem Segments.leads {fs : List Event} (hSegments : Segments es)
    (hSettled : last ≠ .emptySegment)
    (h : ∀ last, last ≠ .emptySegment → Leads (.inside opened last) fs s) :
    Leads (.inside opened last) (es ++ fs) s := by
  rcases hSegments with hNone | ⟨text, hText, hOne⟩
  · refine Leads.append ?_ (h last hSettled)
    rw [hNone]
    exact .nil _
  · refine Leads.append ?_ (h _ (segment_ne_emptySegment hText))
    rw [hOne]
    exact .one (.text rfl hSettled)

theorem Quoted.lastSegment_segments (text : List Char) : Segments (lastSegment text) := by
  unfold lastSegment
  split
  · exact Or.inl rfl
  · exact Or.inr ⟨text, ‹_›, rfl⟩

theorem Parameter.optionalName_segments (text : List Char) : Segments (optionalName text) := by
  cases text with
  | nil => exact Or.inl rfl
  | cons c text => exact Or.inr ⟨c :: text, List.cons_ne_nil c text, rfl⟩

theorem Parameter.nameEvent_segments (text : List Char) (position : Nat) :
    Segments [nameEvent text position] := by
  cases text with
  | nil => exact Or.inl rfl
  | cons c text => exact Or.inr ⟨c :: text, List.cons_ne_nil c text, rfl⟩

theorem Parameter.isQuotedText_of_choiceOperator? (h : choiceOperator? c = some o) :
    (Kind.punctuation o).isQuotedText := by
  unfold choiceOperator? at h
  repeat' split at h
  all_goals cases h
  all_goals rfl

theorem Parameter.isQuotedText_of_trimOperator? (h : trimOperator? c = some o) :
    (Kind.punctuation o).isQuotedText := by
  unfold trimOperator? at h
  repeat' split at h
  all_goals cases h
  all_goals rfl

/-- One more operator of an expansion. -/
theorem Parameter.leads_operator {p' : Parameter (List Char)}
    (hOperator : (Kind.punctuation o).isQuotedText) (hSettled : last ≠ .emptySegment) :
    Leads (.inside (.brace :: openedIn commands) last) [.punctuation o]
      (.quoted ⟨start, text, commands, .parameter p'⟩) :=
  .token (.text hOperator hSettled) (.nil (.quoted (punctuation_ne_emptySegment o)))

theorem Parameter.Reads.leads {next : Option (Parameter (List Char))}
    (h : Parameter.Reads position p c next es) (hSettled : last ≠ .emptySegment) :
    Leads (.inside (.brace :: openedIn commands) last) es
      (.quoted ⟨start, text, commands, next.elim .nothing .parameter⟩) := by
  cases h with
  | close =>
    exact .token (.text rfl hSettled)
      (.token (.right rfl fun _ => rfl) (.nil (.quoted (punctuation_ne_emptySegment _))))
  | backslash | collect => exact .nil (.quoted hSettled)
  | colon =>
    exact (nameEvent_segments p.text position).leads hSettled fun _ => leads_operator rfl
  | choice _ hOperator =>
    exact (nameEvent_segments p.text position).leads hSettled fun _ =>
      leads_operator (isQuotedText_of_choiceOperator? hOperator)
  | trim _ hOperator =>
    exact (optionalName_segments p.text).leads hSettled fun _ =>
      leads_operator (isQuotedText_of_trimOperator? hOperator)

theorem Parameter.Steps.leads {next : Option (Parameter (List Char))}
    (h : Parameter.Steps position p c next es) (hSettled : last ≠ .emptySegment) :
    Leads (.inside (.brace :: openedIn commands) last) es
      (.quoted ⟨start, text, commands, next.elim .nothing .parameter⟩) := by
  cases h with
  | read hReads => exact hReads.leads hSettled
  | escaped => exact .nil (.quoted hSettled)
  | afterColon _ hOperator =>
    exact leads_operator (isQuotedText_of_choiceOperator? hOperator) hSettled
  | twice _ hOperator =>
    exact leads_operator (isQuotedText_of_trimOperator? hOperator) hSettled

theorem Quoted.Dollars.leads {depth : Nat} {inner : Inner (List Char)}
    (h : Quoted.Dollars limit position depth inner es)
    (hPreceded : openedIn commands = [] → last.kind = .segment) :
    Leads (.inside (openedIn commands) last) es (.quoted ⟨start, text, commands, inner⟩) := by
  have hNext := Place.Next.dollar (t := .punctuation .dollar) rfl hPreceded
  cases h with
  | opens => exact .token hNext (.nil (.quoted (punctuation_ne_emptySegment _)))
  | deep => exact .token hNext (.fault (.nil (.quoted (punctuation_ne_emptySegment _))))

theorem Quoted.Enters.leads (h : Quoted.Enters limit position start text commands c s es)
    (hSettled : last ≠ .emptySegment) : Leads (.inside (openedIn commands) last) es s := by
  cases h with
  | close =>
    exact (lastSegment_segments text).leads hSettled fun _ hLast =>
      .token (.closing rfl hLast) (.nil (.plain _))
  | backslash | literal | name => exact .nil (.quoted hSettled)
  | textDollar hDollars => exact .token (.text rfl hSettled) (hDollars.leads fun _ => rfl)
  | commandDollar hDollars => exact hDollars.leads fun h => absurd h (List.cons_ne_nil _ _)
  | openParen =>
    exact .token (.left .paren rfl hSettled) (.nil (.quoted (punctuation_ne_emptySegment _)))
  | @closeParen commandStart nested outer =>
    rw [openedIn_nested]
    exact .token (.right rfl (absurd · hSettled)) (.nil (.quoted (punctuation_ne_emptySegment _)))
  | @closeCommand commandStart outer =>
    rw [openedIn_command]
    exact .token (.right rfl (absurd · hSettled)) (.nil (.quoted (punctuation_ne_emptySegment _)))
  | unhandled => exact .fault (.nil (.quoted hSettled))

theorem Quoted.Steps.leads {inner : Inner (List Char)}
    (h : Quoted.Steps limit position start text commands inner c s es)
    (hSettled : last ≠ .emptySegment) :
    Leads (.inside (Quoted.opened ⟨start, text, commands, inner⟩) last) es s := by
  cases h with
  | enter hEnters => exact hEnters.leads hSettled
  | escaped | continued | unescaped | dollarName | name => exact .nil (.quoted hSettled)
  | openCommand =>
    exact .token (.left .paren rfl hSettled) (.nil (.quoted (punctuation_ne_emptySegment _)))
  | openParameter =>
    exact .token (.left .brace rfl hSettled) (.nil (.quoted (punctuation_ne_emptySegment _)))
  | invalid _ _ _ hEnters => exact .fault (hEnters.leads hSettled)
  | nameEnd _ hEnters =>
    exact .token (next_wordToken hSettled _) (hEnters.leads (wordToken_ne_emptySegment _))
  | parameter hSteps => exact hSteps.leads hSettled
  | parameterEnd hSteps => exact hSteps.leads hSettled

theorem State.Steps.leads {s' : State (List Char)} {place : Place}
    (h : State.Steps limit position s c s' es) (hAt : s.At place) : Leads place es s' := by
  cases h with
  | plain hSteps =>
    cases hAt with
    | plain => exact hSteps.leads
  | quoted hSteps =>
    cases hAt with
    | quoted hSettled => exact hSteps.leads hSettled

end Steps

/-! ## A whole scan -/

variable {s : State (List Char)} {p : Place}

/-- What a scan finds leads from the place where it stands before to the one where it stands
behind. -/
theorem leads_found (limit : Option Nat) (cs : List Char) {config : Config (List Char)}
    (h : config.state.At p) : Leads p (config.found limit cs) (config.after limit cs).state := by
  induction cs generalizing config p with
  | nil => exact .nil h
  | cons c cs ih =>
    obtain ⟨q, hStep, hAt⟩ := (config.state.steps limit config.position c).leads h
    exact .append hStep (ih hAt)

theorem Plain.unclosedDoubleQuote_not_mem_finish (p : Plain (List Char)) (position : Nat) :
    Event.fault .unclosedDoubleQuote position ∉ p.finish := by
  by_cases hSingle : ∃ start text, p = .singleQuoted start text
  · obtain ⟨start, text, rfl⟩ := hSingle
    intro hMem
    cases List.mem_singleton.mp hMem
  · intro hMem
    have hEarly := finish_beforeEnd (p := p) (fun start text h => hSingle ⟨start, text, h⟩) _ hMem
    cases hEarly

/-- What the end of the text completes inside double quotes. -/
theorem Inner.exists_path_finish {opened : List Bracket} {last : Token}
    (inner : Inner (List Char)) (hSettled : last ≠ .emptySegment) :
    ∃ last', (Place.inside opened last).Path (tokensOf inner.finish) (.inside opened last') ∧
      last' ≠ .emptySegment := by
  cases inner with
  | nothing | backslash | dollar | parameter => exact ⟨last, .nil _, hSettled⟩
  | word name =>
    exact ⟨wordToken name, .one (next_wordToken hSettled name), wordToken_ne_emptySegment name⟩

/-- The end of the text leads on to a place that is inside exactly if double quotes are reported
as unclosed. -/
theorem State.At.exists_path_finish (h : s.At p) :
    ∃ q, p.Path (tokensOf s.finish) q ∧ q.Settled ∧
      (q.isInside ↔ ∃ position, .fault .unclosedDoubleQuote position ∈ s.finish) := by
  cases h with
  | plain p =>
    refine ⟨.outside, p.finish_outer.path, trivial, ?_⟩
    exact iff_of_false id fun ⟨position, hMem⟩ => p.unclosedDoubleQuote_not_mem_finish position hMem
  | @quoted q last hSettled =>
    have hReported : ∃ position, .fault .unclosedDoubleQuote position ∈ q.finish := by
      refine ⟨q.start, ?_⟩
      rw [Quoted.finish_eq]
      simp [Quoted.unclosed]
    obtain ⟨last', hPath, hSettled'⟩ := q.inner.exists_path_finish hSettled
    refine ⟨.inside q.opened last', ?_, hSettled', iff_of_true trivial hReported⟩
    rw [State.finish, q.tokensOf_finish]
    exact hPath

end Scan

/-- **The shape of every token stream.**  The tokens of a text are well quoted whatever is reported
about it, and their double quotes are odd in number exactly if double quotes are left open. -/
theorem tokenize_wellQuoted (text : String) :
    (tokenize text).tokens.WellQuoted ∧
      (Odd (tokenize text).tokens.quotes ↔
        ∃ d ∈ (tokenize text).diagnostics, d.fault = .unclosedDoubleQuote) := by
  have hStart : Scan.Config.initial.state.At .outside := .plain (.nothing : Scan.Plain (List Char))
  obtain ⟨p, hFound, hAt⟩ :=
    Scan.leads_found (some Scan.maxExpansionDepth) text.toList hStart
  obtain ⟨q, hFinish, hSettled, hInside⟩ := hAt.exists_path_finish
  have hPath : Place.outside.Path (tokenize text).tokens q := by
    rw [tokenize_tokens, events_eq, Scan.eventsFrom_eq_found_append_finish, ← Scan.tokensOf,
      Scan.tokensOf_append]
    exact hFound.append hFinish
  refine ⟨hPath.wellQuoted hSettled, ?_⟩
  rw [hPath.odd_quotes_iff_isInside, hInside]
  constructor
  · rintro ⟨position, hMem⟩
    refine ⟨⟨.unclosedDoubleQuote, position⟩, mem_diagnostics_tokenize.mpr ?_, rfl⟩
    rw [events_eq, Scan.eventsFrom_eq_found_append_finish]
    exact List.mem_append_right _ hMem
  · rintro ⟨⟨fault, position⟩, hMem, rfl⟩
    rw [mem_diagnostics_tokenize, events_eq, Scan.eventsFrom_eq_found_append_finish] at hMem
    rcases List.mem_append.mp hMem with hMem | hMem
    · cases Scan.found_beforeEnd _ _ _ _ hMem
    · exact ⟨position, hMem⟩

end ShellLexer
