import ShellLexer.Proofs.Stream.Valid
import ShellLexer.Proofs.Grammar.Derived

/-!
# Tokens that reach as far as they can

In a scan without a report no two tokens next to each other could have been one
(`Token.Apart`): two runs of blanks, two words, an operator that the text of the
next token goes on with.  The two tokens often come from different parts of the
scan, so the induction carries what the last token was, and that the characters
pending since do not go on with it (`State.Ready`).

* `State.Steps.follow`: in a step without a report the tokens keep apart.
* `tokenize_tokens_lexical`: tokens fit their kinds and are maximal.
-/

namespace ShellLexer

open Scan

namespace Kind

/-- The kinds of runs of name characters. -/
def isWord : Kind → Bool
  | word | name | reserved _ => true
  | newline | whitespace | singleQuotedString | segment | punctuation _ => false

/-- The kinds of tokens that something else than a name character may go on with. -/
def goesOn : Kind → Bool
  | whitespace => true
  | punctuation p =>
    p ∈ [.pipe, .ampersand, .semicolon, .less, .greater, .leftBracket, .rightBracket, .doubleLess]
  | word | name | newline | singleQuotedString | segment | reserved _ => false

end Kind

namespace Token

/-- Two tokens next to each other that could not have been one. -/
structure Apart (t u : Token) : Prop where
  blanks : ¬ (t.kind = .whitespace ∧ u.kind = .whitespace)
  words : ¬ (t.kind.isWord ∧ u.kind.isWord)
  pair : ∀ p a d, t.kind = .punctuation p → p.chars = [a] →
    u.sourceText.toList.head? = some d → Punctuation.ofPair? a d = none
  dash : t.kind = .punctuation .doubleLess → u.sourceText.toList.head? ≠ some '-'

/-- The token is complete in front of the character `c`. -/
structure EndsBefore (t : Token) (c : Char) : Prop where
  blank : t.kind = .whitespace → ¬ isBlank c
  name : t.kind.isWord → ¬ isNameChar c
  pair : ∀ p a, t.kind = .punctuation p → p.chars = [a] → Punctuation.ofPair? a c = none
  dash : t.kind = .punctuation .doubleLess → c ≠ '-'

/-- Nothing but a name character may go on with the token. -/
def Calm (t : Token) : Prop := t.kind.goesOn = false

/-- Nothing may go on with the token. -/
def Inert (t : Token) : Prop := t.kind.goesOn = false ∧ t.kind.isWord = false

variable {t u : Token} {c : Char}

theorem Inert.calm (h : t.Inert) : t.Calm := h.1

/-- The operators of one character that others begin with go on. -/
theorem Calm.ofPair?_eq_none (h : t.Calm) {p : Punctuation} {a : Char}
    (hKind : t.kind = .punctuation p) (hChars : p.chars = [a]) (d : Char) :
    Punctuation.ofPair? a d = none := by
  have hAll : ∀ o ∈ Punctuation.pairs, ∀ p ∈ Punctuation.all, p.chars.length = 1 →
      p.chars.head? = o.chars.head? → (Kind.punctuation p).goesOn := by decide
  by_contra hSome
  obtain ⟨o, ho⟩ := Option.ne_none_iff_exists'.mp hSome
  have hPair := Punctuation.chars_of_ofPair? ho
  have hGoesOn := hAll o (List.mem_of_find?_eq_some ho) p p.mem_all (by rw [hChars]; rfl)
    (by rw [hChars, hPair]; rfl)
  rw [Calm, hKind, hGoesOn] at h
  contradiction

theorem Calm.kind_ne (h : t.Calm) {k : Kind} (hk : k.goesOn) : t.kind ≠ k := by
  rintro rfl
  rw [Calm, hk] at h
  contradiction

theorem Calm.endsBefore (h : t.Calm) (hName : t.kind.isWord → ¬ isNameChar c) :
    t.EndsBefore c where
  blank hKind := absurd hKind (h.kind_ne rfl)
  name := hName
  pair _ _ hKind hChars := h.ofPair?_eq_none hKind hChars c
  dash hKind := absurd hKind (h.kind_ne rfl)

theorem Inert.endsBefore (h : t.Inert) (c : Char) : t.EndsBefore c :=
  h.calm.endsBefore fun hWord => absurd hWord (by simp [h.2])

theorem punctuation_endsBefore {p : Punctuation}
    (hPair : ∀ a, p.chars = [a] → Punctuation.ofPair? a c = none)
    (hDash : p = .doubleLess → c ≠ '-') : (punctuation p).EndsBefore c where
  blank hKind := Kind.noConfusion hKind
  name hWord := Bool.noConfusion hWord
  pair q a hKind hChars := by
    obtain rfl := Kind.punctuation.inj hKind
    exact hPair a hChars
  dash hKind := hDash (Kind.punctuation.inj hKind)

theorem Calm.apart (h : t.Calm) (hWords : ¬ (t.kind.isWord ∧ u.kind.isWord)) : t.Apart u where
  blanks hBoth := h.kind_ne rfl hBoth.1
  words := hWords
  pair _ _ d hKind hChars _ := h.ofPair?_eq_none hKind hChars d
  dash hKind := absurd hKind (h.kind_ne rfl)

/-- The text of a word is made of name characters. -/
theorem Valid.isNameChar_of_mem (h : u.Valid) (hWord : u.kind.isWord)
    (hc : c ∈ u.sourceText.toList) : isNameChar c := by
  obtain ⟨kind, text⟩ := u
  cases kind with
  | word => exact (h.word rfl).1 c hc
  | name => exact (h.name rfl).2.1 c hc
  | reserved w =>
    have hAll : ∀ w ∈ ReservedWord.all, w.spelling.toList.all isNameChar := by decide
    have hText : text = w.spelling := h.spelling _ rfl
    exact List.all_eq_true.mp (hAll w w.mem_all) c (hText ▸ hc)
  | newline | whitespace | singleQuotedString | segment | punctuation => cases hWord

/-- A token is apart from a text that it is complete in front of. -/
theorem EndsBefore.apart (h : t.EndsBefore c) (hValid : u.Valid)
    (hHead : u.sourceText.toList.head? = some c) : t.Apart u := by
  have hMem : c ∈ u.sourceText.toList := List.mem_of_mem_head? hHead
  refine ⟨?_, ?_, ?_, ?_⟩
  · rintro ⟨ht, hu⟩
    have hText : u.sourceText = u.text := by rw [sourceText, hu]
    rw [hText] at hMem
    exact h.blank ht ((hValid.whitespace hu).2 c hMem)
  · rintro ⟨ht, hu⟩
    exact h.name ht (hValid.isNameChar_of_mem hu hMem)
  · intro p a d hKind hChars hd
    rw [hHead] at hd
    obtain rfl := Option.some.inj hd
    exact h.pair p a hKind hChars
  · intro hKind hDash
    rw [hHead] at hDash
    exact h.dash hKind (Option.some.inj hDash)

end Token

namespace Scan

/-! ## What may come next -/

/-- What is pending does not go on with the last token `t`. -/
def Plain.Ready (t : Token) : Plain (List Char) → Prop
  | nothing => t.Inert
  | blanks text | word text => ∀ c ∈ text.head?, t.EndsBefore c
  | operator _ c => t.EndsBefore c
  | doubleLess => t.EndsBefore '<'
  | singleQuoted _ _ => t.EndsBefore '\''

/-- Where a word may be the next token, the last one is none. -/
def Inner.Ready (t : Token) (commands : List Command) : Inner (List Char) → Prop
  | nothing | backslash => commands ≠ [] → t.kind.isWord = false
  | dollar _ | word _ => t.kind.isWord = false
  | parameter _ => True

/-- The next token is apart from the last token `t`. -/
def State.Ready (t : Token) : State (List Char) → Prop
  | .plain p => p.Ready t
  | .quoted q => t.Calm ∧ q.inner.Ready t q.commands

/-- The tokens among the events are apart from `t` and from each other, and the state behind them
is ready for the next one. -/
structure Follow (t : Token) (es : List Event) (s : State (List Char)) : Prop where
  chain : (t :: tokensOf es).IsChain Token.Apart
  ready : s.Ready ((tokensOf es).getLastD t)

section Steps

variable {limit : Option Nat} {position start : Nat} {text : List Char} {commands : List Command}
variable {c : Char} {s s' : State (List Char)} {es fs : List Event} {t u : Token}

theorem Follow.nil (h : s.Ready t) : Follow t [] s := ⟨.singleton t, h⟩

theorem Follow.token (hApart : t.Apart u) (h : Follow u es s) : Follow t (.token u :: es) s where
  chain := .cons_cons hApart h.chain
  ready := by
    show s.Ready ((u :: tokensOf es).getLastD t)
    rw [List.getLastD_cons]
    exact h.ready

theorem isChain_of_inert {us : List Token} (ht : t.Calm) (h : ∀ u ∈ us, u.Inert) :
    (t :: us).IsChain Token.Apart := by
  induction us generalizing t with
  | nil => exact .singleton t
  | cons u us ih =>
    obtain ⟨hu, hRest⟩ := List.forall_mem_cons.mp h
    refine .cons_cons (ht.apart ?_) (ih hu.calm hRest)
    rw [hu.2]
    exact fun hBoth => absurd hBoth.2 Bool.false_ne_true

theorem wordToken_calm (name : List Char) : (wordToken name).Calm := by
  rcases wordToken_kind_eq name with h | h | ⟨w, h⟩
  all_goals
    rw [Token.Calm, h]
    rfl

theorem sourceText_punctuation (o : Punctuation) :
    (Token.punctuation o).sourceText.toList = o.chars := String.toList_ofList

/-- Tokens that nothing goes on with are apart wherever they stand. -/
theorem Follow.inert (ht : t.Calm) (hInert : ∀ u ∈ tokensOf es, u.Inert)
    (hReady : ∀ u : Token, u.Calm → (tokensOf es ≠ [] → u.Inert) → s.Ready u) :
    Follow t es s := by
  refine ⟨isChain_of_inert ht hInert, ?_⟩
  have hLast : tokensOf es ≠ [] → ((tokensOf es).getLastD t).Inert := by
    intro hNe
    obtain ⟨u, us, hTokens⟩ := List.exists_cons_of_ne_nil hNe
    rw [hTokens] at hInert ⊢
    rw [List.getLastD_cons]
    exact hInert _ List.getLastD_mem_cons
  refine hReady _ ?_ hLast
  by_cases hNone : tokensOf es = []
  · rw [hNone]
    exact ht
  · exact (hLast hNone).calm

/-! ### Outside double quotes -/

theorem Plain.Enters.follow (h : Plain.Enters position c s es) (hClean : Clean es)
    (hEnds : t.EndsBefore c) : Follow t es s := by
  cases h with
  | newline =>
    have hNewline : Token.newline.Inert := ⟨rfl, rfl⟩
    exact .token (hEnds.apart .newline rfl) (.nil hNewline)
  | blank =>
    refine .nil ?_
    rintro d ⟨⟩
    exact hEnds
  | name =>
    refine .nil ?_
    rintro d ⟨⟩
    exact hEnds
  | singleQuote | operator => exact .nil hEnds
  | doubleQuote =>
    have hQuote : (Token.punctuation .doubleQuote).Calm := rfl
    refine .token (hEnds.apart (.punctuation nofun) rfl) (.nil ⟨hQuote, fun _ => rfl⟩)
  | unexpected => exact absurd hClean not_clean_cons_fault

/-- What is pending and complete is a token that is apart from the last one. -/
theorem Plain.Ready.finish {p : Plain (List Char)} (h : p.Ready t) (hLexical : p.Lexical)
    (hClean : Clean p.finish) :
    p = .nothing ∨ ∃ u, p.finish = [.token u] ∧ t.Apart u ∧
      ∀ c, p.EndsBefore c → u.EndsBefore c := by
  cases p with
  | nothing => exact Or.inl rfl
  | blanks text =>
    obtain ⟨hNe, hAll⟩ := hLexical
    obtain ⟨d, ds, rfl⟩ := List.exists_cons_of_ne_nil hNe
    refine Or.inr ⟨_, rfl, (h d rfl).apart (.blanks hNe hAll) ?_, fun c hc => ?_⟩
    · show (String.ofList (d :: ds)).toList.head? = some d
      rw [String.toList_ofList]
      rfl
    · exact ⟨fun _ => hc, nofun, nofun, nofun⟩
  | word text =>
    obtain ⟨hNe, hAll⟩ := hLexical
    obtain ⟨d, ds, rfl⟩ := List.exists_cons_of_ne_nil hNe
    refine Or.inr ⟨_, rfl, (h d rfl).apart (.wordToken hNe hAll) ?_, fun c hc => ?_⟩
    · rw [sourceText_wordToken]
      rfl
    · exact (wordToken_calm _).endsBefore fun _ => hc
  | operator start first =>
    obtain ⟨o, ho⟩ := Option.isSome_iff_exists.mp (isSome_ofChar?_of_clean hClean)
    have hChars := Punctuation.chars_of_ofChar? ho
    have hMem := List.mem_append_left Punctuation.pairs (List.mem_of_find?_eq_some ho)
    have hFinish : (Plain.operator start first : Plain (List Char)).finish =
        [.token (.punctuation o)] := by
      rw [Plain.finish, singleEvent, ho]
      rfl
    refine Or.inr ⟨_, hFinish, Token.EndsBefore.apart h (valid_operator hMem) ?_, fun c hc => ?_⟩
    · rw [sourceText_punctuation, hChars]
      rfl
    · apply Token.punctuation_endsBefore
      · intro a hSingle
        rw [hChars] at hSingle
        obtain rfl := (List.cons.inj hSingle).1
        exact hc
      · rintro rfl
        cases hChars
  | doubleLess =>
    have hQuote : Punctuation.doubleLess ≠ .quote := by decide
    refine Or.inr ⟨_, rfl, Token.EndsBefore.apart h (.punctuation hQuote) rfl, fun c hc => ?_⟩
    apply Token.punctuation_endsBefore
    · intro a hSingle
      cases hSingle
    · intro _
      exact hc
  | singleQuoted => exact absurd hClean not_clean_cons_fault

theorem inert_pair {first c : Char} {o : Punctuation} (h : Punctuation.ofPair? first c = some o)
    (hLongest : o ≠ .doubleLess) : (Token.punctuation o).Inert := by
  have hAll : ∀ o ∈ Punctuation.pairs, o ≠ .doubleLess → (Kind.punctuation o).goesOn = false := by
    decide
  exact ⟨hAll o (List.mem_of_find?_eq_some h) hLongest, rfl⟩

theorem Plain.Steps.follow {p : Plain (List Char)} (h : Plain.Steps position p c s es)
    (hClean : Clean es) (hLexical : p.Lexical) (hReady : p.Ready t) : Follow t es s := by
  cases h with
  | ended hEnds hEnters =>
    obtain ⟨hNow, hLater⟩ := clean_append.mp hClean
    rcases hReady.finish hLexical hNow with rfl | ⟨u, hFinish, hApart, hBefore⟩
    · exact hEnters.follow hLater (hReady.endsBefore c)
    · rw [hFinish]
      exact .token hApart (hEnters.follow hLater (hBefore c hEnds))
  | blank | name =>
    refine .nil ?_
    intro d hd
    rw [List.head?_append_of_ne_nil _ hLexical.1] at hd
    exact hReady d hd
  | doubleLess | quotedChar => exact .nil hReady
  | @pair start first _ o hPair hLongest =>
    have hHead : (Token.punctuation o).sourceText.toList.head? = some first := by
      rw [sourceText_punctuation, Punctuation.chars_of_ofPair? hPair]
      rfl
    have hMem := List.mem_append_right Punctuation.singles (List.mem_of_find?_eq_some hPair)
    exact .token (Token.EndsBefore.apart hReady (valid_operator hMem) hHead)
      (.nil (inert_pair hPair hLongest))
  | doubleLessDash =>
    have hInert : (Token.punctuation .doubleLessDash).Inert := ⟨rfl, rfl⟩
    exact .token (Token.EndsBefore.apart hReady (.punctuation nofun) rfl) (.nil hInert)
  | @closingQuote start text =>
    have hInert : Token.Inert ⟨.singleQuotedString, String.ofList text⟩ := ⟨rfl, rfl⟩
    refine .token (Token.EndsBefore.apart hReady (.singleQuotedString hLexical) ?_) (.nil hInert)
    show ("'" ++ String.ofList text ++ "'").toList.head? = some '\''
    simp

/-! ### Inside double quotes -/

/-- A brace that closes an expansion is a token. -/
theorem Parameter.Steps.tokens_ne_nil {p : Parameter (List Char)}
    (h : Parameter.Steps position p c none es) : tokensOf es ≠ [] := by
  cases h with
  | read hReads =>
    cases hReads with
    | close => exact List.cons_ne_nil _ _

theorem InBraces.inert (h : InBraces t) : t.Inert := by
  cases h with
  | segment => exact ⟨rfl, rfl⟩
  | rightBrace => exact ⟨rfl, rfl⟩
  | @operator o hOperator =>
    refine ⟨?_, rfl⟩
    cases o with
    | colon | plus | dash | equals | question | hash | percent => rfl
    | _ => cases hOperator

theorem Quoted.Dollars.follow {depth : Nat} {inner : Inner (List Char)}
    (h : Quoted.Dollars limit position depth inner es) (hClean : Clean es) (ht : t.Calm) :
    Follow t es (.quoted ⟨start, text, commands, inner⟩) := by
  cases h with
  | opens =>
    have hDollar : (Token.punctuation .dollar).Calm := rfl
    exact .token (ht.apart fun hBoth => nomatch hBoth.2) (.nil ⟨hDollar, rfl⟩)
  | deep => exact absurd hClean.tail not_clean_cons_fault

theorem Quoted.Enters.follow (h : Quoted.Enters limit position start text commands c s es)
    (hClean : Clean es) (ht : t.Calm)
    (hWord : commands ≠ [] → isNameChar c → t.kind.isWord = false) : Follow t es s := by
  cases h with
  | close =>
    refine .inert ht ?_ fun u hu hInert => hInert ?_
    · rw [tokensOf_append]
      refine List.forall_mem_append.mpr ⟨?_, List.forall_mem_singleton.mpr ⟨rfl, rfl⟩⟩
      exact fun u hu => ((lastSegment_segments text).inBraces u hu).inert
    · rw [tokensOf_append]
      exact List.append_ne_nil_of_right_ne_nil _ (List.cons_ne_nil _ _)
  | backslash | literal => exact .nil ⟨ht, fun hNe => absurd rfl hNe⟩
  | textDollar hDollars =>
    exact .token (ht.apart fun hBoth => nomatch hBoth.2) (hDollars.follow hClean.tail rfl)
  | commandDollar hDollars => exact hDollars.follow hClean ht
  | openParen | closeParen | closeCommand =>
    refine .inert ht (List.forall_mem_singleton.mpr ⟨rfl, rfl⟩) fun u hu hInert => ?_
    exact ⟨hu, fun _ => (hInert (List.cons_ne_nil _ _)).2⟩
  | name hName => exact .nil ⟨ht, hWord (List.cons_ne_nil _ _) hName⟩
  | unhandled => exact absurd hClean not_clean_cons_fault

theorem Quoted.Steps.follow {inner : Inner (List Char)}
    (h : Quoted.Steps limit position start text commands inner c s es) (hClean : Clean es)
    (ht : t.Calm) (hReady : inner.Ready t commands) : Follow t es s := by
  cases h with
  | enter hEnters => exact hEnters.follow hClean ht fun hNe _ => hReady hNe
  | escaped | continued | unescaped => exact .nil ⟨ht, hReady⟩
  | openCommand =>
    refine .inert ht (List.forall_mem_singleton.mpr ⟨rfl, rfl⟩) fun u hu hInert => ⟨hu, ?_⟩
    exact fun _ => (hInert (List.cons_ne_nil _ _)).2
  | openParameter =>
    exact .inert ht (List.forall_mem_singleton.mpr ⟨rfl, rfl⟩) fun u hu _ => ⟨hu, trivial⟩
  | dollarName | name => exact .nil ⟨ht, hReady⟩
  | invalid => exact absurd hClean not_clean_cons_fault
  | @nameEnd name _ _ _ hName hEnters =>
    refine .token (ht.apart ?_) (hEnters.follow hClean.tail (wordToken_calm name) ?_)
    · rw [hReady]
      exact fun hBoth => absurd hBoth.1 Bool.false_ne_true
    · exact fun _ hc => absurd hc hName
  | parameter hSteps =>
    exact .inert ht (fun u hu => (hSteps.inBraces u hu).inert) fun u hu _ => ⟨hu, trivial⟩
  | parameterEnd hSteps =>
    refine .inert ht (fun u hu => (hSteps.inBraces u hu).inert) fun u hu hInert => ⟨hu, ?_⟩
    intro _
    exact (hInert hSteps.tokens_ne_nil).2

/-- **In a step without a report the tokens keep apart**, and what it leaves pending will. -/
theorem State.Steps.follow (h : State.Steps limit position s c s' es) (hClean : Clean es)
    (hLexical : s.Lexical) (hReady : s.Ready t) : Follow t es s' := by
  cases h with
  | plain hStep => exact hStep.follow hClean hLexical hReady
  | quoted hStep => exact hStep.follow hClean hReady.1 hReady.2

/-! ### Whole texts -/

theorem isChain_append {us vs : List Token} (h : (t :: us).IsChain Token.Apart)
    (g : (us.getLastD t :: vs).IsChain Token.Apart) : (t :: (us ++ vs)).IsChain Token.Apart := by
  induction us generalizing t with
  | nil => exact g
  | cons u us ih =>
    obtain ⟨hApart, hRest⟩ := List.isChain_cons_cons.mp h
    rw [List.getLastD_cons] at g
    exact .cons_cons hApart (ih hRest g)

/-- A token that the end of the text completes is apart from the last one, and quotes left open
are reported. -/
theorem State.Ready.finish (h : s.Ready t) (hLexical : s.Lexical) (hClean : Clean s.finish) :
    (t :: tokensOf s.finish).IsChain Token.Apart := by
  cases s with
  | plain p =>
    rcases Plain.Ready.finish h hLexical hClean with rfl | ⟨u, hFinish, hApart, -⟩
    · exact .singleton t
    · show (t :: tokensOf p.finish).IsChain Token.Apart
      rw [hFinish]
      exact .cons_cons hApart (.singleton u)
  | quoted q =>
    have hFinish : (State.quoted q).finish = q.inner.finish ++ q.unclosed := q.finish_eq
    rw [hFinish, Quoted.unclosed, ← List.append_assoc] at hClean
    exact absurd (clean_append.mp hClean).2 not_clean_cons_fault

/-- **In a scan without a report the tokens keep apart.** -/
theorem isChain_eventsFrom (cs : List Char) {config : Config (List Char)}
    (hLexical : config.state.Lexical) (hReady : config.state.Ready t)
    (hClean : Clean (eventsFrom limit config cs)) :
    (t :: tokensOf (eventsFrom limit config cs)).IsChain Token.Apart := by
  induction cs generalizing config t with
  | nil => exact hReady.finish hLexical hClean
  | cons c cs ih =>
    obtain ⟨hNow, hLater⟩ := clean_append.mp hClean
    have hStep := config.state.steps limit config.position c
    have hFollow := hStep.follow hNow hLexical hReady
    rw [eventsFrom, tokensOf_append]
    exact isChain_append hFollow.chain (ih (hStep.valid hLexical).1 hFollow.ready hLater)

theorem clean_of_diagnostics_eq_nil {es : List Event}
    (h : es.filterMap Event.diagnostic? = []) : Clean es := by
  intro e he
  cases e with
  | token => rfl
  | diagnostic => cases List.filterMap_eq_nil_iff.mp h _ he

end Steps

end Scan

/-- **Tokens fit their kinds and are maximal.**  The text of every token is one of its kind, and in
a scan without a diagnostic no two tokens next to each other could have been one. -/
theorem tokenize_tokens_lexical (text : String) :
    (∀ t ∈ (tokenize text).tokens, t.Valid) ∧
      ((tokenize text).diagnostics = [] → (tokenize text).tokens.IsChain Token.Apart) := by
  rw [tokenize_tokens, tokenize_diagnostics, events_eq]
  refine ⟨valid_of_mem_eventsFrom _ text.toList, ?_⟩
  intro hClean
  -- A newline in front of the text would be apart from everything.
  have hNewline : (Config.initial : Config (List Char)).state.Ready .newline := ⟨rfl, rfl⟩
  have hLexical : (Config.initial : Config (List Char)).state.Lexical := trivial
  exact (isChain_eventsFrom text.toList hLexical hNewline
    (clean_of_diagnostics_eq_nil hClean)).of_cons

/-- Operators, words and blanks next to quotes and expansions. -/
theorem tokenize_tokens_lexical_sample :
    (tokenize "if<<-x;\"$a\\\\$(b$\x7by:-c\x7d(1))\"'d'e \n2>&1").diagnostics = [] ∧
      (tokenize "if<<-x;\"$a\\\\$(b$\x7by:-c\x7d(1))\"'d'e \n2>&1").tokens.IsChain Token.Apart := by
  have hClean : (tokenize "if<<-x;\"$a\\\\$(b$\x7by:-c\x7d(1))\"'d'e \n2>&1").diagnostics = [] := by
    decide
  exact ⟨hClean, (tokenize_tokens_lexical _).2 hClean⟩

end ShellLexer
