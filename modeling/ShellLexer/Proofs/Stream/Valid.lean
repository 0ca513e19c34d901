import ShellLexer.Proofs.Stream.WellQuoted
import ShellLexer.Proofs.Reconstruct.Pending

/-!
# Tokens that fit their kind

A kind with one spelling is always spelled that way, and the text of every other
kind is a text of that kind (`Token.Valid`).  Kind and text are put together at
many places; what they have in common is that a token is made of the characters
that were pending, so the induction carries what is known of those
(`State.Lexical`).

* `State.Steps.valid`: a step keeps that, and its tokens fit their kinds.
* `valid_of_mem_eventsFrom`: every token of a text fits its kind.
-/

namespace ShellLexer

open Scan

/-- A token whose text is one of its kind. -/
structure Token.Valid (t : Token) : Prop where
  spelling : ∀ s ∈ t.kind.spelling?, t.text = s
  word : t.kind = .word → (∀ c ∈ t.text.toList, isNameChar c) ∧
    ∃ c ∈ t.text.toList.head?, isDigit c
  name : t.kind = .name → t.text.toList ≠ [] ∧ (∀ c ∈ t.text.toList, isNameChar c) ∧
    (∀ c ∈ t.text.toList.head?, ¬ isDigit c) ∧ ∀ w : ReservedWord, t.text ≠ w.spelling
  whitespace : t.kind = .whitespace → t.text.toList ≠ [] ∧ ∀ c ∈ t.text.toList, isBlank c
  singleQuoted : t.kind = .singleQuotedString → '\'' ∉ t.text.toList
  not_quote : t.kind ≠ .punctuation .quote

namespace Token.Valid

theorem punctuation {p : Punctuation} (h : p ≠ .quote) : Valid (.punctuation p) where
  spelling _ hSpelling := Option.some.inj hSpelling
  word := nofun
  name := nofun
  whitespace := nofun
  singleQuoted := nofun
  not_quote hKind := h (Kind.punctuation.inj hKind)

theorem newline : Valid .newline where
  spelling _ hSpelling := Option.some.inj hSpelling
  word := nofun
  name := nofun
  whitespace := nofun
  singleQuoted := nofun
  not_quote := nofun

theorem segment (text : String) : Valid ⟨.segment, text⟩ where
  spelling := nofun
  word := nofun
  name := nofun
  whitespace := nofun
  singleQuoted := nofun
  not_quote := nofun

theorem blanks {cs : List Char} (hNe : cs ≠ []) (hAll : ∀ c ∈ cs, isBlank c) :
    Valid ⟨.whitespace, String.ofList cs⟩ where
  spelling := nofun
  word := nofun
  name := nofun
  whitespace _ := by
    rw [String.toList_ofList]
    exact ⟨hNe, hAll⟩
  singleQuoted := nofun
  not_quote := nofun

theorem singleQuotedString {cs : List Char} (hQuote : '\'' ∉ cs) :
    Valid ⟨.singleQuotedString, String.ofList cs⟩ where
  spelling := nofun
  word := nofun
  name := nofun
  whitespace := nofun
  singleQuoted _ := by
    rw [String.toList_ofList]
    exact hQuote
  not_quote := nofun

theorem ofName {cs : List Char} (hNe : cs ≠ []) (hAll : ∀ c ∈ cs, isNameChar c)
    (hDigit : ∀ c ∈ cs.head?, ¬ isDigit c) : Valid (.ofName (String.ofList cs)) := by
  unfold Token.ofName
  split
  · rename_i w hWord
    refine ⟨?_, nofun, nofun, nofun, nofun, nofun⟩
    intro s hSpelling
    rw [← ReservedWord.spelling_of_ofSpelling? hWord]
    exact Option.some.inj hSpelling
  · rename_i hNone
    refine ⟨nofun, nofun, fun _ => ?_, nofun, nofun, nofun⟩
    rw [String.toList_ofList]
    refine ⟨hNe, hAll, hDigit, ?_⟩
    intro w hText
    have hFind := List.find?_eq_none.mp hNone w w.mem_all
    exact hFind (beq_iff_eq.mpr hText.symm)

theorem wordToken {cs : List Char} (hNe : cs ≠ []) (hAll : ∀ c ∈ cs, isNameChar c) :
    Valid (wordToken cs) := by
  obtain ⟨c, cs, rfl⟩ := List.exists_cons_of_ne_nil hNe
  show Valid (if Char.isDigit c then ⟨.word, String.ofList (c :: cs)⟩
    else Token.ofName (String.ofList (c :: cs)))
  split
  · rename_i hDigit
    refine ⟨nofun, fun _ => ?_, nofun, nofun, nofun, nofun⟩
    rw [String.toList_ofList]
    exact ⟨hAll, c, rfl, hDigit⟩
  · rename_i hDigit
    refine .ofName hNe hAll ?_
    rintro d ⟨⟩
    exact hDigit

end Token.Valid

namespace Scan

/-- What is pending is a text of its kind. -/
def Plain.Lexical : Plain (List Char) → Prop
  | blanks text => text ≠ [] ∧ ∀ c ∈ text, isBlank c
  | word text => text ≠ [] ∧ ∀ c ∈ text, isNameChar c
  | singleQuoted _ text => '\'' ∉ text
  | nothing | operator _ _ | doubleLess => True

def Inner.Lexical : Inner (List Char) → Prop
  | word name => name ≠ [] ∧ ∀ c ∈ name, isNameChar c
  | nothing | backslash | dollar _ | parameter _ => True

def State.Lexical : State (List Char) → Prop
  | .plain p => p.Lexical
  | .quoted q => q.inner.Lexical

/-- The tokens among the events fit their kinds. -/
def AllValid (es : List Event) : Prop := ∀ t ∈ tokensOf es, t.Valid

section Steps

variable {limit : Option Nat} {position start : Nat} {text : List Char} {commands : List Command}
variable {c : Char} {s s' : State (List Char)} {es fs : List Event}

theorem AllValid.nil : AllValid [] := fun _ h => absurd h List.not_mem_nil

theorem AllValid.token {t : Token} (ht : t.Valid) (h : AllValid es) : AllValid (.token t :: es) :=
  List.forall_mem_cons.mpr ⟨ht, h⟩

theorem AllValid.one {t : Token} (ht : t.Valid) : AllValid [.token t] := .token ht .nil

theorem AllValid.fault {f : Fault} {n : Nat} (h : AllValid es) : AllValid (.fault f n :: es) := h

theorem AllValid.append (h : AllValid es) (g : AllValid fs) : AllValid (es ++ fs) := by
  rw [AllValid, tokensOf_append]
  exact List.forall_mem_append.mpr ⟨h, g⟩

/-! ### Outside double quotes -/

theorem concat_forall {p : Char → Prop} (h : text ≠ [] ∧ ∀ d ∈ text, p d) (hc : p c) :
    text ++ [c] ≠ [] ∧ ∀ d ∈ text ++ [c], p d :=
  ⟨List.append_ne_nil_of_left_ne_nil h.1 [c],
    List.forall_mem_append.mpr ⟨h.2, List.forall_mem_singleton.mpr hc⟩⟩

theorem valid_operator {p : Punctuation} (h : p ∈ Punctuation.singles ++ Punctuation.pairs) :
    (Token.punctuation p).Valid := by
  have hAll : ∀ p ∈ Punctuation.singles ++ Punctuation.pairs, p ≠ .quote := by decide
  exact .punctuation (hAll p h)

theorem valid_singleEvent (start : Nat) (c : Char) : AllValid [singleEvent start c] := by
  unfold singleEvent
  split
  · rename_i p hSingle
    exact .one (valid_operator (List.mem_append_left _ (List.mem_of_find?_eq_some hSingle)))
  · exact .fault .nil

theorem Plain.Enters.valid (h : Plain.Enters position c s es) : s.Lexical ∧ AllValid es := by
  cases h with
  | newline => exact ⟨trivial, .one .newline⟩
  | blank hBlank =>
    exact ⟨⟨List.cons_ne_nil c [], List.forall_mem_singleton.mpr hBlank⟩, .nil⟩
  | name hName => exact ⟨⟨List.cons_ne_nil c [], List.forall_mem_singleton.mpr hName⟩, .nil⟩
  | singleQuote => exact ⟨List.not_mem_nil, .nil⟩
  | doubleQuote => exact ⟨trivial, .one (.punctuation nofun)⟩
  | operator => exact ⟨trivial, .nil⟩
  | unexpected => exact ⟨trivial, .fault .nil⟩

theorem Plain.Lexical.finish {p : Plain (List Char)} (h : p.Lexical) : AllValid p.finish := by
  cases p with
  | nothing => exact .nil
  | blanks => exact .one (.blanks h.1 h.2)
  | word => exact .one (.wordToken h.1 h.2)
  | operator start first => exact valid_singleEvent start first
  | doubleLess => exact .one (.punctuation nofun)
  | singleQuoted => exact .fault .nil

theorem Plain.Steps.valid {p : Plain (List Char)} (h : Plain.Steps position p c s es)
    (hLexical : p.Lexical) : s.Lexical ∧ AllValid es := by
  cases h with
  | ended _ hEnters => exact ⟨hEnters.valid.1, hLexical.finish.append hEnters.valid.2⟩
  | blank hBlank => exact ⟨concat_forall hLexical hBlank, .nil⟩
  | name hName => exact ⟨concat_forall hLexical hName, .nil⟩
  | doubleLess => exact ⟨trivial, .nil⟩
  | pair hPair =>
    have hMem := List.mem_of_find?_eq_some hPair
    exact ⟨trivial, .one (valid_operator (List.mem_append_right _ hMem))⟩
  | doubleLessDash => exact ⟨trivial, .one (.punctuation nofun)⟩
  | quotedChar hOther =>
    refine ⟨?_, .nil⟩
    intro hMem
    rcases List.mem_append.mp hMem with hMem | hMem
    · exact hLexical hMem
    · exact hOther (List.mem_singleton.mp hMem).symm
  | closingQuote => exact ⟨trivial, .one (.singleQuotedString hLexical)⟩

/-! ### Inside double quotes -/

/-- A token of the text between the braces of a parameter expansion, or of the brace behind it. -/
inductive InBraces : Token → Prop
  | segment (text : String) : InBraces ⟨.segment, text⟩
  | operator {o : Punctuation} (operator : (Kind.punctuation o).isQuotedText) :
      InBraces (.punctuation o)
  | rightBrace : InBraces (.punctuation .rightBrace)

theorem InBraces.valid {t : Token} (h : InBraces t) : t.Valid := by
  cases h with
  | segment => exact .segment _
  | rightBrace => exact .punctuation nofun
  | operator hOperator =>
    refine .punctuation ?_
    rintro rfl
    exact absurd hOperator (by decide)

theorem Segments.inBraces (h : Segments es) : ∀ t ∈ tokensOf es, InBraces t := by
  rcases h with hNone | ⟨text, -, hOne⟩
  · rw [hNone]
    exact nofun
  · rw [hOne]
    exact List.forall_mem_singleton.mpr (.segment _)

theorem Segments.inBraces_append {o : Punctuation} (h : Segments es)
    (hOperator : (Kind.punctuation o).isQuotedText) :
    ∀ t ∈ tokensOf (es ++ [.punctuation o]), InBraces t := by
  rw [tokensOf_append]
  exact List.forall_mem_append.mpr
    ⟨h.inBraces, List.forall_mem_singleton.mpr (.operator hOperator)⟩

theorem Parameter.Reads.inBraces {p : Parameter (List Char)}
    {next : Option (Parameter (List Char))} (h : Parameter.Reads position p c next es) :
    ∀ t ∈ tokensOf es, InBraces t := by
  cases h with
  | close => exact List.forall_mem_cons.mpr ⟨.segment _, List.forall_mem_singleton.mpr .rightBrace⟩
  | backslash | collect => exact nofun
  | colon => exact (nameEvent_segments p.text position).inBraces_append rfl
  | choice _ hOperator =>
    exact (nameEvent_segments p.text position).inBraces_append
      (isQuotedText_of_choiceOperator? hOperator)
  | trim _ hOperator =>
    exact (optionalName_segments p.text).inBraces_append (isQuotedText_of_trimOperator? hOperator)

theorem Parameter.Steps.inBraces {p : Parameter (List Char)}
    {next : Option (Parameter (List Char))} (h : Parameter.Steps position p c next es) :
    ∀ t ∈ tokensOf es, InBraces t := by
  cases h with
  | read hReads => exact hReads.inBraces
  | escaped => exact nofun
  | afterColon _ hOperator =>
    exact List.forall_mem_singleton.mpr (.operator (isQuotedText_of_choiceOperator? hOperator))
  | twice _ hOperator =>
    exact List.forall_mem_singleton.mpr (.operator (isQuotedText_of_trimOperator? hOperator))

theorem Quoted.Dollars.valid {depth : Nat} {inner : Inner (List Char)}
    (h : Quoted.Dollars limit position depth inner es) : inner.Lexical ∧ AllValid es := by
  cases h with
  | opens => exact ⟨trivial, .one (.punctuation nofun)⟩
  | deep => exact ⟨trivial, .token (.punctuation nofun) (.fault .nil)⟩

theorem Quoted.Enters.valid (h : Quoted.Enters limit position start text commands c s es) :
    s.Lexical ∧ AllValid es := by
  cases h with
  | close =>
    have hText : AllValid (lastSegment text) := fun t ht =>
      ((lastSegment_segments text).inBraces t ht).valid
    exact ⟨trivial, hText.append (.one (.punctuation nofun))⟩
  | backslash | literal => exact ⟨trivial, .nil⟩
  | textDollar hDollars => exact ⟨hDollars.valid.1, .token (.segment _) hDollars.valid.2⟩
  | commandDollar hDollars => exact hDollars.valid
  | openParen | closeParen | closeCommand => exact ⟨trivial, .one (.punctuation nofun)⟩
  | name hName => exact ⟨⟨List.cons_ne_nil c [], List.forall_mem_singleton.mpr hName⟩, .nil⟩
  | unhandled => exact ⟨trivial, .fault .nil⟩

theorem Quoted.Steps.valid {inner : Inner (List Char)}
    (h : Quoted.Steps limit position start text commands inner c s es)
    (hLexical : inner.Lexical) : s.Lexical ∧ AllValid es := by
  cases h with
  | enter hEnters => exact hEnters.valid
  | escaped | continued | unescaped => exact ⟨trivial, .nil⟩
  | openCommand | openParameter => exact ⟨trivial, .one (.punctuation nofun)⟩
  | dollarName hName =>
    refine ⟨⟨List.cons_ne_nil c [], ?_⟩, .nil⟩
    exact List.forall_mem_singleton.mpr (isNameChar_of_isNameStart hName)
  | invalid _ _ _ hEnters => exact ⟨hEnters.valid.1, .fault hEnters.valid.2⟩
  | name hName => exact ⟨concat_forall hLexical hName, .nil⟩
  | nameEnd _ hEnters =>
    exact ⟨hEnters.valid.1, .token (.wordToken hLexical.1 hLexical.2) hEnters.valid.2⟩
  | parameter hSteps | parameterEnd hSteps =>
    exact ⟨trivial, fun t ht => (hSteps.inBraces t ht).valid⟩

/-- **The tokens of a step fit their kinds**, and what it leaves pending will. -/
theorem State.Steps.valid (h : State.Steps limit position s c s' es) (hLexical : s.Lexical) :
    s'.Lexical ∧ AllValid es := by
  cases h with
  | plain hStep => exact hStep.valid hLexical
  | quoted hStep => exact hStep.valid hLexical

/-! ### Whole texts -/

theorem Inner.Lexical.finish {inner : Inner (List Char)} (h : inner.Lexical) :
    AllValid inner.finish := by
  cases inner with
  | nothing | backslash => exact .nil
  | dollar | parameter => exact .fault .nil
  | word => exact .one (.wordToken h.1 h.2)

theorem State.Lexical.finish (h : s.Lexical) : AllValid s.finish := by
  cases s with
  | plain p => exact Plain.Lexical.finish h
  | quoted q =>
    show AllValid q.finish
    rw [AllValid, q.tokensOf_finish]
    exact Inner.Lexical.finish h

theorem valid_after_found (limit : Option Nat) (cs : List Char) :
    (Config.after limit (Config.initial : Config (List Char)) cs).state.Lexical ∧
      AllValid (Config.found limit (Config.initial : Config (List Char)) cs) := by
  have hStart : (Config.initial : Config (List Char)).state.Lexical ∧ AllValid [] :=
    ⟨trivial, .nil⟩
  refine Config.after_found_induction
    (P := fun _ now es => now.state.Lexical ∧ AllValid es) hStart ?_ cs
  rintro cs ⟨position, s⟩ es c ⟨hLexical, hValid⟩
  have hStep := (s.steps limit position c).valid hLexical
  exact ⟨hStep.1, hValid.append hStep.2⟩

/-- **Every token of a text fits its kind.** -/
theorem valid_of_mem_eventsFrom (limit : Option Nat) (cs : List Char) :
    AllValid (eventsFrom limit (Config.initial : Config (List Char)) cs) := by
  obtain ⟨hLexical, hValid⟩ := valid_after_found limit cs
  rw [eventsFrom_eq_found_append_finish]
  exact hValid.append hLexical.finish

end Steps

end Scan

end ShellLexer
