import ShellLexer.Proofs.Reconstruct.Piece
import ShellLexer.Proofs.Scan.Reading
import ShellLexer.Proofs.Scan.Transition

/-!
# The text that is pending

What a scan has read is in tokens, is reported, or waits in the state for a
token.  `State.Pending n ps s` says that the pieces `ps`, the first of which
starts at position `n`, are what waits in the state `s`.

* `State.Pending.step`: a step explains some of the pending pieces by its
  events, and the others and the character it reads are pending after it.
* `explainedUpTo_after`: so after any characters the events found explain a
  first part of them, and the rest is pending.
-/

namespace ShellLexer.Scan

/-! ## Tokens and the pieces they hold -/

theorem sourceText_wordToken (text : List Char) :
    (wordToken text).sourceText.toList = text := by
  have hName : ∀ s : String, (Token.ofName s).sourceText = s := by
    intro s
    unfold Token.ofName
    split <;> rfl
  unfold wordToken
  split
  · exact String.toList_ofList
  · rw [hName]
    exact String.toList_ofList

theorem explains_wordToken (n : Nat) (text : List Char) :
    Explains n (keepAll text) [.token (wordToken text)] :=
  .token (by rw [sourceText_wordToken, textOf_keepAll]) (droppedFrom_keepAll n text)

theorem explains_blanks (n : Nat) (text : List Char) :
    Explains n (keepAll text) [.token ⟨.whitespace, TextBuffer.text text⟩] :=
  .token (by rw [textOf_keepAll]; exact String.toList_ofList) (droppedFrom_keepAll n text)

theorem explains_punctuation (n : Nat) (p : Punctuation) :
    Explains n (keepAll p.chars) [.punctuation p] :=
  .token (by rw [textOf_keepAll]; exact String.toList_ofList) (droppedFrom_keepAll n p.chars)

theorem explains_singleQuoted (n : Nat) (text : List Char) :
    Explains n (keepAll ('\'' :: (text ++ ['\''])))
      [.token ⟨.singleQuotedString, TextBuffer.text text⟩] := by
  refine .token ?_ (droppedFrom_keepAll n _)
  rw [textOf_keepAll]
  show ("'" ++ String.ofList text ++ "'").toList = _
  simp

/-- A piece of punctuation of one character, or the report that it is none. -/
theorem explains_singleEvent (n : Nat) (c : Char) :
    ∃ p : Piece, p.source = [c] ∧ Explains n [p] [singleEvent n c] := by
  unfold singleEvent
  split
  · rename_i o hOp
    have h := explains_punctuation n o
    rw [Punctuation.chars_of_ofChar? hOp] at h
    exact ⟨.kept c, rfl, h⟩
  · exact ⟨.dropped c, rfl, .drop c rfl⟩

/-- `ps` holds the text `text` and drops nothing. -/
structure Collects (ps : List Piece) (text : List Char) : Prop where
  text : textOf ps = text
  dropped : ∀ n, droppedFrom n ps = []

namespace Collects

theorem nil : Collects [] [] := ⟨rfl, fun _ => rfl⟩

theorem append {ps qs : List Piece} {cs ds : List Char} (h : Collects ps cs)
    (g : Collects qs ds) : Collects (ps ++ qs) (cs ++ ds) where
  text := by rw [textOf_append, h.text, g.text]
  dropped n := by rw [droppedFrom_append, h.dropped, g.dropped, List.append_nil]

theorem keepAll (cs : List Char) : Collects (keepAll cs) cs :=
  ⟨textOf_keepAll cs, fun n => droppedFrom_keepAll n cs⟩

theorem push {ps : List Piece} {cs : List Char} (h : Collects ps cs) (c : Char) :
    Collects (ps ++ [.kept c]) (cs ++ [c]) := h.append (keepAll [c])

theorem escape {ps : List Piece} {cs : List Char} (h : Collects ps cs) (c : Char)
    (hc : c ∈ ['$', '\x60', '"', '\\', '{']) : Collects (ps ++ [.escaped c hc]) (cs ++ [c]) :=
  h.append ⟨rfl, fun _ => rfl⟩

theorem joinLines {ps : List Piece} {cs : List Char} (h : Collects ps cs) :
    Collects (ps ++ [.continued]) cs := by
  have hLine : Collects [.continued] [] := ⟨rfl, fun _ => rfl⟩
  simpa using h.append hLine

/-- A segment explains the pieces whose text it holds. -/
theorem explains {ps : List Piece} {cs : List Char} (h : Collects ps cs) (n : Nat) :
    Explains n ps [.segment (TextBuffer.text cs)] :=
  .token (by rw [h.text]; exact String.toList_ofList) (h.dropped n)

/-- Pieces without text are explained by whatever explains no pieces at all. -/
theorem explains_of_nil {ps : List Piece} {n : Nat} {es : List Event} (h : Collects ps [])
    (hNone : Explains n [] es) : Explains n ps es :=
  ⟨hNone.text.trans h.text.symm, hNone.dropped.trans (h.dropped n).symm⟩

end Collects

/-! ## What waits in a state -/

/-- The characters `src`, the first of which is at `n`, wait outside double quotes. -/
inductive Plain.Pending (n : Nat) : List Char → Plain (List Char) → Prop
  | nothing : Pending n [] .nothing
  | blanks {text : List Char} (ne_nil : text ≠ []) (all : ∀ c ∈ text, isBlank c) :
      Pending n text (.blanks text)
  | word {text : List Char} (ne_nil : text ≠ []) (all : ∀ c ∈ text, isNameChar c) :
      Pending n text (.word text)
  | operator {c : Char} (punctuation : isShellPunctuation c) : Pending n [c] (.operator n c)
  | doubleLess : Pending n ['<', '<'] .doubleLess
  | singleQuoted {text : List Char} (unclosed : '\'' ∉ text) :
      Pending n ('\'' :: text) (.singleQuoted n text)

/-- The pieces `ps` wait in a parameter expansion. -/
inductive Parameter.Pending : List Piece → Parameter (List Char) → Prop
  | text {ps : List Piece} {text : List Char} {start : Nat} {hasOperator : Bool}
      (collects : Collects ps text) : Pending ps ⟨start, text, hasOperator, .text⟩
  | backslash {ps : List Piece} {text : List Char} {start : Nat} {hasOperator : Bool}
      (collects : Collects ps text) :
      Pending (ps ++ [.kept '\\']) ⟨start, text, hasOperator, .backslash⟩
  | colon {start : Nat} {hasOperator : Bool} : Pending [] ⟨start, [], hasOperator, .colon⟩
  | trim {start : Nat} {hasOperator : Bool} (o : Punctuation) :
      Pending [] ⟨start, [], hasOperator, .trim o⟩

/-- The pieces `ps` wait inside double quotes. Only literal text is ever collected outside the
expansions, and none of it while one is open. -/
inductive Quoted.Pending : List Piece → Quoted (List Char) → Prop
  | text {ps : List Piece} {text : List Char} {start : Nat} (collects : Collects ps text) :
      Pending ps ⟨start, text, [], .nothing⟩
  | command {start : Nat} {command : Command} {outer : List Command} :
      Pending [] ⟨start, [], command :: outer, .nothing⟩
  | backslash {ps : List Piece} {text : List Char} {start : Nat} (collects : Collects ps text) :
      Pending (ps ++ [.kept '\\']) ⟨start, text, [], .backslash⟩
  | dollar {start dollarStart : Nat} {commands : List Command} :
      Pending [] ⟨start, [], commands, .dollar dollarStart⟩
  | word {start : Nat} {commands : List Command} {name : List Char} :
      Pending (keepAll name) ⟨start, [], commands, .word name⟩
  | parameter {ps : List Piece} {start : Nat} {commands : List Command}
      {p : Parameter (List Char)} (parameter : p.Pending ps) :
      Pending ps ⟨start, [], commands, .parameter p⟩

/-- The pieces `ps`, the first of which starts at `n`, wait in the state. -/
inductive State.Pending (n : Nat) : List Piece → State (List Char) → Prop
  | plain {src : List Char} {p : Plain (List Char)} (plain : p.Pending n src) :
      Pending n (keepAll src) (.plain p)
  | quoted {ps : List Piece} {q : Quoted (List Char)} (quoted : q.Pending ps) :
      Pending n ps (.quoted q)

theorem Quoted.Pending.nothing {start : Nat} {commands : List Command} :
    Quoted.Pending [] ⟨start, [], commands, .nothing⟩ := by
  cases commands with
  | nil => exact .text .nil
  | cons command outer => exact .command

/-- The text `src`, the first character of which is at `n`, is explained by the events of a
step up to what waits in the state behind it. -/
def Accounted (n : Nat) (src : List Char) (s : State (List Char)) (es : List Event) : Prop :=
  ∃ done rest, sourceOf done ++ sourceOf rest = src ∧ Explains n done es ∧
    s.Pending (n + (sourceOf done).length) rest

namespace Accounted

variable {n : Nat} {src : List Char} {s : State (List Char)}

/-- Nothing is explained, and all of the text is pending. -/
theorem waiting (ps : List Piece) (hSource : sourceOf ps = src) (h : s.Pending n ps) :
    Accounted n src s [] :=
  ⟨[], ps, hSource, .nil n, h⟩

/-- All of the text is explained. -/
theorem complete (ps : List Piece) {es : List Event} (hSource : sourceOf ps = src)
    (hExplains : Explains n ps es) (h : s.Pending (n + (sourceOf ps).length) []) :
    Accounted n src s es :=
  ⟨ps, [], by simpa using hSource, hExplains, h⟩

/-- Events that explain what is in front come first. -/
theorem after {ps : List Piece} {es more : List Event} (hExplains : Explains n ps es)
    (h : Accounted (n + (sourceOf ps).length) src s more) :
    Accounted n (sourceOf ps ++ src) s (es ++ more) := by
  obtain ⟨done, rest, hSource, hDone, hRest⟩ := h
  refine ⟨ps ++ done, rest, ?_, hExplains.append hDone, ?_⟩
  · rw [sourceOf_append, List.append_assoc, hSource]
  · rw [sourceOf_append, List.length_append, ← Nat.add_assoc]
    exact hRest

end Accounted

/-! ## What a step explains: outside double quotes -/

namespace Plain

variable {n : Nat} {src : List Char} {p : Plain (List Char)} {c : Char} {s : State (List Char)}
variable {es : List Event}

theorem Enters.accounted (h : Plain.Enters n c s es) : Accounted n [c] s es := by
  cases h with
  | newline => exact .complete (keepAll ['\n']) rfl (.token rfl rfl) (.plain .nothing)
  | blank hBlank =>
    refine .waiting _ (sourceOf_keepAll [c]) (.plain ?_)
    exact .blanks (List.cons_ne_nil c []) (List.forall_mem_singleton.mpr hBlank)
  | name hName =>
    refine .waiting _ (sourceOf_keepAll [c]) (.plain ?_)
    exact .word (List.cons_ne_nil c []) (List.forall_mem_singleton.mpr hName)
  | singleQuote =>
    exact .waiting _ (sourceOf_keepAll ['\'']) (.plain (.singleQuoted List.not_mem_nil))
  | doubleQuote =>
    exact .complete _ (sourceOf_keepAll ['"']) (explains_punctuation n .doubleQuote)
      (.quoted .nothing)
  | operator _ _ hPunctuation =>
    exact .waiting _ (sourceOf_keepAll [c]) (.plain (.operator hPunctuation))
  | unexpected => exact .complete [.dropped c] rfl (.drop c rfl) (.plain .nothing)

/-- The end of a text completes what is pending, unless it is in single quotes. -/
theorem Pending.explains_finish (h : p.Pending n src)
    (hOpen : ∀ start text, p ≠ .singleQuoted start text) :
    ∃ ps, sourceOf ps = src ∧ Explains n ps p.finish := by
  cases h with
  | nothing => exact ⟨[], rfl, .nil n⟩
  | blanks => exact ⟨keepAll src, sourceOf_keepAll src, explains_blanks n src⟩
  | word => exact ⟨keepAll src, sourceOf_keepAll src, explains_wordToken n src⟩
  | @operator first =>
    obtain ⟨piece, hSource, hExplains⟩ := explains_singleEvent n first
    exact ⟨[piece], by simp [hSource], hExplains⟩
  | doubleLess => exact ⟨keepAll ['<', '<'], rfl, explains_punctuation n .doubleLess⟩
  | singleQuoted => exact absurd rfl (hOpen _ _)

theorem Pending.step (h : p.Pending n src) (hStep : Plain.Steps (n + src.length) p c s es) :
    Accounted n (src ++ [c]) s es := by
  cases hStep with
  | ended hEnds hEnters =>
    obtain ⟨ps, rfl, hExplains⟩ := h.explains_finish hEnds.not_singleQuoted
    exact .after hExplains hEnters.accounted
  | blank hBlank =>
    cases h with
    | blanks hNe hAll =>
      refine .waiting _ (sourceOf_keepAll _) (.plain (.blanks (by simp) ?_))
      exact List.forall_mem_append.mpr ⟨hAll, List.forall_mem_singleton.mpr hBlank⟩
  | name hName =>
    cases h with
    | word hNe hAll =>
      refine .waiting _ (sourceOf_keepAll _) (.plain (.word (by simp) ?_))
      exact List.forall_mem_append.mpr ⟨hAll, List.forall_mem_singleton.mpr hName⟩
  | doubleLess =>
    cases h with
    | operator => exact .waiting _ (sourceOf_keepAll ['<', '<']) (.plain .doubleLess)
  | @pair start first _ o hPair =>
    cases h with
    | operator =>
      have hExplains := explains_punctuation n o
      rw [Punctuation.chars_of_ofPair? hPair] at hExplains
      exact .complete _ (sourceOf_keepAll [first, c]) hExplains (.plain .nothing)
  | doubleLessDash =>
    cases h with
    | doubleLess =>
      exact .complete _ (sourceOf_keepAll ['<', '<', '-'])
        (explains_punctuation n .doubleLessDash) (.plain .nothing)
  | quotedChar hOther =>
    cases h with
    | singleQuoted hUnclosed =>
      refine .waiting _ (sourceOf_keepAll _) (.plain (.singleQuoted ?_))
      intro hMem
      rcases List.mem_append.mp hMem with hMem | hMem
      · exact hUnclosed hMem
      · exact hOther (List.mem_singleton.mp hMem).symm
  | @closingQuote start text =>
    cases h with
    | singleQuoted =>
      exact .complete _ (sourceOf_keepAll _) (explains_singleQuoted n text) (.plain .nothing)

end Plain

/-! ## What a step explains: inside a parameter expansion -/

namespace Parameter

theorem chars_of_choiceOperator? {c : Char} {o : Punctuation} (h : choiceOperator? c = some o) :
    o.chars = [c] := by
  unfold choiceOperator? at h
  repeat' split at h
  all_goals cases h <;> simp_all [Punctuation.chars]

theorem chars_of_trimOperator? {c : Char} {o : Punctuation} (h : trimOperator? c = some o) :
    o.chars = [c] := by
  unfold trimOperator? at h
  repeat' split at h
  all_goals cases h <;> simp_all [Punctuation.chars]

theorem explains_operator {c : Char} {o : Punctuation} (hChars : o.chars = [c]) (n : Nat) :
    Explains n [.kept c] [.punctuation o] := by
  have h := explains_punctuation n o
  rwa [hChars] at h

variable {ps : List Piece} {text : List Char} (hText : Collects ps text) (n : Nat)
include hText

theorem explains_nameEvent (position : Nat) : Explains n ps [nameEvent text position] := by
  unfold nameEvent
  split
  · rename_i hEmpty
    obtain rfl : text = [] := List.isEmpty_iff.mp hEmpty
    exact hText.explains_of_nil (.fault rfl)
  · exact hText.explains n

theorem explains_optionalName : Explains n ps (optionalName text) := by
  unfold optionalName
  split
  · rename_i hEmpty
    obtain rfl : text = [] := List.isEmpty_iff.mp hEmpty
    exact hText.explains_of_nil (.nil n)
  · exact hText.explains n

omit hText

/-- The text `src`, the first character of which is at `n`, is explained by the events of a step
up to what waits in the expansion, and all of it is explained once that is closed. -/
def Accounted (n : Nat) (src : List Char) (next : Option (Parameter (List Char)))
    (es : List Event) : Prop :=
  ∃ done rest, sourceOf done ++ sourceOf rest = src ∧ Explains n done es ∧
    match next with
    | some p => p.Pending rest
    | none => rest = []

theorem Accounted.waiting {src : List Char} {p : Parameter (List Char)}
    (hSource : sourceOf ps = src) (h : p.Pending ps) : Accounted n src (some p) [] :=
  ⟨[], ps, hSource, .nil n, h⟩

/-- An operator ends the text in front of it. -/
theorem Accounted.operator {es : List Event} {c : Char} {o : Punctuation}
    {p : Parameter (List Char)} (hExplains : Explains n ps es) (hChars : o.chars = [c])
    (h : p.Pending []) :
    Accounted n (sourceOf ps ++ [c]) (some p) (es ++ [.punctuation o]) :=
  ⟨ps ++ [.kept c], [], by simp [Piece.source], hExplains.append (explains_operator hChars _), h⟩

variable {p : Parameter (List Char)} {next : Option (Parameter (List Char))} {position : Nat}
variable {c : Char} {es : List Event}

theorem Reads.accounted (h : Parameter.Reads position p c next es) (hText : Collects ps p.text) :
    Accounted n (sourceOf ps ++ [c]) next es := by
  cases h with
  | close =>
    exact ⟨ps ++ [.kept '}'], [], by simp [Piece.source],
      (hText.explains n).append (explains_operator rfl _), rfl⟩
  | backslash => exact .waiting n (by simp [Piece.source]) (.backslash hText)
  | collect => exact .waiting n (by simp [Piece.source]) (.text (hText.push c))
  | colon => exact .operator n (explains_nameEvent hText n _) rfl .colon
  | choice _ hOp =>
    exact .operator n (explains_nameEvent hText n _) (chars_of_choiceOperator? hOp) (.text .nil)
  | @trim _ o _ hOp =>
    exact .operator n (explains_optionalName hText n) (chars_of_trimOperator? hOp) (.trim o)

/-- What was left open is part of the text that waits. -/
theorem Pending.settled (h : p.Pending ps) : Collects ps p.settled.text := by
  cases h with
  | text hText => exact hText
  | backslash hText => exact hText.push '\\'
  | colon => exact .nil
  | trim => exact .nil

theorem Pending.step (h : p.Pending ps) (hStep : Parameter.Steps position p c next es) :
    Accounted n (sourceOf ps ++ [c]) next es := by
  cases hStep with
  | read hReads => exact hReads.accounted n h.settled
  | escaped hPhase =>
    cases h with
    | backslash hText =>
      exact .waiting n (by simp [Piece.source]) (.text (hText.escape '{' (by decide)))
    | text | colon | trim => contradiction
  | afterColon hPhase hOp =>
    cases h with
    | colon => exact .operator n (.nil n) (chars_of_choiceOperator? hOp) (.text .nil)
    | text | backslash | trim => contradiction
  | twice hPhase hOp =>
    cases h with
    | trim => exact .operator n (.nil n) (chars_of_trimOperator? hOp) (.text .nil)
    | text | backslash | colon => contradiction

end Parameter

/-! ## What a step explains: inside double quotes -/

namespace Quoted

variable {limit : Option Nat} {position start : Nat} {text : List Char} {commands : List Command}
variable {ps : List Piece} {c : Char} {s : State (List Char)} {es : List Event} (n : Nat)

/-- A `$` is a token wherever it is read. -/
theorem Dollars.explains {depth : Nat} {inner : Inner (List Char)}
    (h : Quoted.Dollars limit position depth inner es) : Explains n [.kept '$'] es := by
  have hDollar : Explains n [.kept '$'] [.punctuation .dollar] :=
    explains_punctuation n .dollar
  cases h with
  | opens => exact hDollar
  | deep => exact hDollar.append (.fault rfl)

theorem Dollars.pending {depth : Nat} {inner : Inner (List Char)}
    (h : Quoted.Dollars limit position depth inner es) :
    Quoted.Pending [] ⟨start, [], commands, inner⟩ := by
  cases h with
  | opens => exact .dollar
  | deep => exact .nothing

theorem explains_lastSegment (hText : Collects ps text) : Explains n ps (lastSegment text) := by
  unfold lastSegment
  split
  · rename_i hEmpty
    subst hEmpty
    exact hText.explains_of_nil (.nil n)
  · exact hText.explains n

theorem Enters.accounted (hEnters : Quoted.Enters limit position start text commands c s es)
    (h : Quoted.Pending ps ⟨start, text, commands, .nothing⟩)
    (hPosition : position = n + (sourceOf ps).length) : Accounted n (sourceOf ps ++ [c]) s es := by
  cases h with
  | text hText =>
    cases hEnters with
    | close =>
      exact .complete (ps ++ [.kept '"']) (by simp [Piece.source])
        ((explains_lastSegment n hText).append (explains_punctuation _ .doubleQuote))
        (.plain .nothing)
    | backslash => exact .waiting _ (by simp [Piece.source]) (.quoted (.backslash hText))
    | textDollar hDollars =>
      exact .complete (ps ++ [.kept '$']) (by simp [Piece.source])
        ((hText.explains n).append (hDollars.explains _)) (.quoted hDollars.pending)
    | literal => exact .waiting _ (by simp [Piece.source]) (.quoted (.text (hText.push c)))
  | command =>
    cases hEnters with
    | commandDollar hDollars =>
      exact .complete [.kept '$'] rfl (hDollars.explains n) (.quoted hDollars.pending)
    | openParen =>
      exact .complete [.kept '('] rfl (explains_punctuation n .leftParen) (.quoted .command)
    | closeParen =>
      exact .complete [.kept ')'] rfl (explains_punctuation n .rightParen) (.quoted .command)
    | closeCommand =>
      exact .complete [.kept ')'] rfl (explains_punctuation n .rightParen) (.quoted .nothing)
    | name => exact .waiting (keepAll [c]) rfl (.quoted .word)
    | unhandled =>
      obtain rfl : position = n := hPosition
      exact .complete [.dropped c] rfl (.drop c rfl) (.quoted .command)

/-- Events that explain what is pending come before those of the next character. -/
theorem Enters.accounted_after (hEnters : Quoted.Enters limit position start [] commands c s es)
    {before : List Event} (hExplains : Explains n ps before)
    (hPosition : position = n + (sourceOf ps).length) :
    Accounted n (sourceOf ps ++ [c]) s (before ++ es) :=
  Accounted.after hExplains (hEnters.accounted _ .nothing hPosition)

theorem Pending.step {inner : Inner (List Char)}
    (h : Quoted.Pending ps ⟨start, text, commands, inner⟩)
    (hStep : Quoted.Steps limit position start text commands inner c s es)
    (hPosition : position = n + (sourceOf ps).length) : Accounted n (sourceOf ps ++ [c]) s es := by
  cases hStep with
  | enter hEnters => exact hEnters.accounted n h hPosition
  | escaped hEscaped =>
    have hc : c ∈ ['$', '\x60', '"', '\\', '{'] := by
      have hMem : c ∈ quotedEscapes.toList := by simpa [isOneOf] using hEscaped
      exact List.mem_append_left ['{'] hMem
    cases h with
    | backslash hText =>
      exact .waiting _ (by simp [Piece.source]) (.quoted (.text (hText.escape c hc)))
  | continued =>
    cases h with
    | backslash hText =>
      exact .waiting _ (by simp [Piece.source]) (.quoted (.text hText.joinLines))
  | unescaped =>
    cases h with
    | backslash hText =>
      exact .waiting _ (by simp [Piece.source]) (.quoted (.text ((hText.push '\\').push c)))
  | openCommand =>
    cases h with
    | dollar =>
      exact .complete [.kept '('] rfl (explains_punctuation n .leftParen) (.quoted .command)
  | openParameter =>
    cases h with
    | dollar =>
      exact .complete [.kept '{'] rfl (explains_punctuation n .leftBrace)
        (.quoted (.parameter (.text .nil)))
  | dollarName =>
    cases h with
    | dollar => exact .waiting (keepAll [c]) rfl (.quoted .word)
  | invalid _ _ _ hEnters =>
    cases h with
    | dollar => exact hEnters.accounted_after n (.fault rfl) hPosition
  | @name name =>
    cases h with
    | word => exact .waiting (keepAll (name ++ [c])) (by simp) (.quoted .word)
  | @nameEnd name _ _ _ _ hEnters =>
    cases h with
    | word => exact hEnters.accounted_after n (explains_wordToken n name) hPosition
  | parameter hSteps =>
    cases h with
    | parameter hp =>
      obtain ⟨done, rest, hSource, hExplains, hPending⟩ := hp.step n hSteps
      exact ⟨done, rest, hSource, hExplains, .quoted (.parameter hPending)⟩
  | parameterEnd hSteps =>
    cases h with
    | parameter hp =>
      obtain ⟨done, rest, hSource, hExplains, rfl⟩ := hp.step n hSteps
      exact .complete _ (by simpa using hSource) hExplains (.quoted .nothing)

end Quoted

/-! ## Whole texts -/

theorem State.Pending.step {n position : Nat} {ps : List Piece} {s s' : State (List Char)}
    {limit : Option Nat} {c : Char} {es : List Event} (h : s.Pending n ps)
    (hStep : State.Steps limit position s c s' es)
    (hPosition : position = n + (sourceOf ps).length) :
    Accounted n (sourceOf ps ++ [c]) s' es := by
  cases hStep with
  | plain hStep =>
    cases h with
    | plain hp =>
      rw [sourceOf_keepAll] at hPosition ⊢
      subst hPosition
      exact hp.step hStep
  | quoted hStep =>
    cases h with
    | quoted hq => exact hq.step n hStep hPosition

/-- The events `es`, found among the characters `cs`, explain a first part of these, and the rest
is pending in the configuration behind them. -/
def ExplainedUpTo (cs : List Char) (now : Config (List Char)) (es : List Event) : Prop :=
  now.position = cs.length ∧ ∃ done rest, sourceOf done ++ sourceOf rest = cs ∧
    Explains 0 done es ∧ now.state.Pending (sourceOf done).length rest

theorem ExplainedUpTo.step {cs : List Char} {now : Config (List Char)} {es : List Event}
    (h : ExplainedUpTo cs now es) (limit : Option Nat) (c : Char) :
    ExplainedUpTo (cs ++ [c]) (now.step limit c).1 (es ++ (now.step limit c).2) := by
  obtain ⟨position, s⟩ := now
  obtain ⟨hPosition, done, rest, rfl, hExplains, hPending⟩ := h
  obtain rfl : position = (sourceOf done).length + (sourceOf rest).length := by
    simpa using hPosition
  obtain ⟨more, rest', hSource, hMore, hPending'⟩ := hPending.step (s.steps limit _ c) rfl
  have hFrom : Explains (0 + (sourceOf done).length) more
      (Config.step limit ⟨(sourceOf done).length + (sourceOf rest).length, s⟩ c).2 := by
    rw [Nat.zero_add]
    exact hMore
  refine ⟨?_, done ++ more, rest', ?_, hExplains.append hFrom, ?_⟩
  · rw [Config.step_position, List.length_append, List.length_append]
    rfl
  · rw [sourceOf_append, List.append_assoc, hSource, List.append_assoc]
  · rw [sourceOf_append, List.length_append]
    exact hPending'

/-- **Nothing is lost on the way.** -/
theorem explainedUpTo_after (limit : Option Nat) (cs : List Char) :
    ExplainedUpTo cs (Config.initial.after limit cs)
      ((Config.initial : Config (List Char)).found limit cs) :=
  Config.after_found_induction ⟨rfl, [], [], rfl, .nil 0, .plain .nothing⟩
    (fun c h => h.step limit c) cs

end ShellLexer.Scan
