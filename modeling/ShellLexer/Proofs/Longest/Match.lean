import ShellLexer.Proofs.Longest.Lexeme
import ShellLexer.Proofs.Reconstruct.Pending
import ShellLexer.Proofs.Buffer.Encoded
import ShellLexer.Proofs.Stream.WellQuoted
import Mathlib.Data.Nat.Find

/-!
# The longest match

`longestMatch` reads a text without a state: at each place it takes the longest
first part of the rest that is a token, and reports and skips one character if
there is none.

* `Plain.Steps.matched`: a step of a scan outside quotes finds what the longest
  match finds, and leaves pending what is still to be matched.
* `tokenize_eq_longestMatch`: where no quote is, `tokenize` finds the longest
  match, and with it as many newlines as the text has.
-/

namespace ShellLexer

open Scan

/-- The length of the longest first part of `cs` that is a token; zero if none is. -/
def matchLength (cs : List Char) : Nat :=
  Nat.findGreatest (fun n => (Token.ofChars? (cs.take n)).isSome) cs.length

/-- The report about a character that begins no token. -/
def skipped (c : Char) (position : Nat) : Event :=
  if isShellPunctuation c then .fault (.unhandledPunctuation c) position
  else .fault (.unexpectedChar c) position

theorem matchLength_pos {cs : List Char} {t : Token}
    (h : Token.ofChars? (cs.take (matchLength cs)) = some t) : 0 < matchLength cs := by
  rcases Nat.eq_zero_or_pos (matchLength cs) with hZero | hPos
  · rw [hZero] at h
    cases h
  · exact hPos

/-- The tokens of a text that starts at `position` and the reports about it, by the longest match
at each place. -/
def longestEvents (position : Nat) : List Char → List Event
  | [] => []
  | c :: cs =>
    match h : Token.ofChars? ((c :: cs).take (matchLength (c :: cs))) with
    | none => skipped c position :: longestEvents (position + 1) cs
    | some t =>
      .token t :: longestEvents (position + matchLength (c :: cs))
        ((c :: cs).drop (matchLength (c :: cs)))
termination_by cs => cs.length
decreasing_by
  · exact Nat.lt_succ_self cs.length
  · have hPos := matchLength_pos h
    rw [List.length_drop, List.length_cons]
    omega

theorem longestEvents_of_none {position : Nat} {c : Char} {cs : List Char}
    (h : Token.ofChars? ((c :: cs).take (matchLength (c :: cs))) = none) :
    longestEvents position (c :: cs) = skipped c position :: longestEvents (position + 1) cs := by
  rw [longestEvents]
  split
  · rfl
  · rename_i hSome
    rw [h] at hSome
    contradiction

theorem longestEvents_of_some {position : Nat} {c : Char} {cs : List Char} {t : Token}
    (h : Token.ofChars? ((c :: cs).take (matchLength (c :: cs))) = some t) :
    longestEvents position (c :: cs) =
      .token t :: longestEvents (position + matchLength (c :: cs))
        ((c :: cs).drop (matchLength (c :: cs))) := by
  rw [longestEvents]
  split
  · rename_i hNone
    rw [h] at hNone
    contradiction
  · rename_i u hSome
    rw [h] at hSome
    rw [Option.some.inj hSome]

/-- The tokens and the diagnostics of a text by the longest match. -/
def longestMatch (text : String) : Lexed where
  tokens := (longestEvents 0 text.toList).filterMap Event.token?
  diagnostics := (longestEvents 0 text.toList).filterMap Event.diagnostic?

/-! ## What is matched -/

section Match

variable {position : Nat} {c : Char} {front rest cs : List Char} {t : Token}

/-- Nothing that begins with `front` and goes on like `rest` is a token. -/
def EndsToken (front rest : List Char) : Prop :=
  ∀ d ∈ rest.head?, ∀ more, Token.ofChars? (front ++ d :: more) = none

theorem matchLength_append (ht : Token.ofChars? front = some t) (hEnds : EndsToken front rest) :
    matchLength (front ++ rest) = front.length := by
  rw [matchLength, Nat.findGreatest_eq_iff]
  refine ⟨?_, ?_, ?_⟩
  · rw [List.length_append]
    omega
  · intro _
    rw [List.take_left, ht]
    rfl
  · intro n hn _
    obtain ⟨k, rfl⟩ : ∃ k, n = front.length + (k + 1) := ⟨n - front.length - 1, by omega⟩
    rw [List.take_length_add_append]
    cases rest with
    | nil =>
      rw [List.length_append, List.length_nil] at *
      omega
    | cons d rest =>
      rw [List.take_succ_cons, hEnds d rfl]
      simp

theorem matchLength_eq_zero (h : ∀ more, Token.ofChars? (c :: more) = none) (cs : List Char) :
    matchLength (c :: cs) = 0 := by
  rw [matchLength, Nat.findGreatest_eq_zero_iff]
  intro n hn _
  obtain ⟨k, rfl⟩ := Nat.exists_eq_add_of_lt hn
  rw [Nat.zero_add, List.take_succ_cons, h]
  simp

theorem append_cons_ne_singleton {d e : Char} {more : List Char} (hNe : front ≠ []) :
    front ++ d :: more ≠ [e] := by
  intro hEq
  have hLength := congrArg List.length hEq
  have hPos := List.length_pos_of_ne_nil hNe
  simp only [List.length_append, List.length_cons, List.length_nil] at hLength
  omega

/-- A run of blanks or of name characters ends in front of a character that is neither like it. -/
theorem endsToken_of_run {b : Char} (hb : b ∈ front) (hClass : isWhitespace b ∨ isNameChar b)
    (hRest : ∀ d ∈ rest.head?, (¬ isBlank b ∨ ¬ isBlank d) ∧ (¬ isNameChar b ∨ ¬ isNameChar d)) :
    EndsToken front rest := by
  intro d hd more
  have hFront : b ∈ front ++ d :: more := List.mem_append_left _ hb
  have hNext : d ∈ front ++ d :: more := List.mem_append_right front List.mem_cons_self
  obtain ⟨hBlank, hName⟩ := hRest d hd
  refine Token.ofChars?_eq_none ?_ ?_ ?_ ⟨b, hFront, hClass⟩
  · exact append_cons_ne_singleton (List.ne_nil_of_mem hb)
  · rcases hBlank with hBlank | hBlank
    · exact ⟨b, hFront, hBlank⟩
    · exact ⟨d, hNext, hBlank⟩
  · rcases hName with hName | hName
    · exact ⟨b, hFront, hName⟩
    · exact ⟨d, hNext, hName⟩

/-- A token that nothing makes longer is matched. -/
theorem longestEvents_append (ht : Token.ofChars? front = some t)
    (hEnds : EndsToken front rest) :
    longestEvents position (front ++ rest) =
      .token t :: longestEvents (position + front.length) rest := by
  have hLength := matchLength_append ht hEnds
  cases hText : front ++ rest with
  | nil =>
    obtain ⟨rfl, -⟩ := List.append_eq_nil_iff.mp hText
    cases ht
  | cons c cs =>
    rw [hText] at hLength
    have hTake : (c :: cs).take (matchLength (c :: cs)) = front := by
      rw [hLength, ← hText, List.take_left]
    have hDrop : (c :: cs).drop (matchLength (c :: cs)) = rest := by
      rw [hLength, ← hText, List.drop_left]
    rw [← hTake] at ht
    rw [longestEvents_of_some ht, hDrop, hLength]

/-- A character that begins no token is skipped. -/
theorem longestEvents_skipped (h : ∀ more, Token.ofChars? (c :: more) = none) :
    longestEvents position (c :: cs) = skipped c position :: longestEvents (position + 1) cs := by
  refine longestEvents_of_none ?_
  rw [matchLength_eq_zero h]
  rfl

/-! ### Newlines -/

/-- A newline is a token alone, and no other token has one in it. -/
theorem count_newline_of_ofChars? (h : Token.ofChars? cs = some t) :
    cs.count '\n' = if t.kind = .newline then 1 else 0 := by
  by_cases hMem : '\n' ∈ cs
  · have hNewline : cs = ['\n'] := by
      by_contra hOther
      have hNone := Token.ofChars?_eq_none hOther ⟨'\n', hMem, by decide⟩ ⟨'\n', hMem, by decide⟩
        ⟨'\n', hMem, Or.inl (by decide)⟩
      rw [hNone] at h
      contradiction
    subst hNewline
    obtain rfl := Option.some.inj h
    rfl
  · have hKind : t.kind ≠ .newline := by
      rcases Token.eq_of_ofChars? h with ⟨rfl, -⟩ | rfl | rfl | ⟨p, rfl⟩
      · exact absurd List.mem_cons_self hMem
      · exact nofun
      · rcases wordToken_kind_eq cs with hWord | hWord | ⟨w, hWord⟩
        all_goals
          rw [hWord]
          exact nofun
      · exact nofun
    rw [List.count_eq_zero_of_not_mem hMem, if_neg hKind]

/-- The newlines of a text are those of its longest match. -/
theorem countP_longestEvents (position : Nat) (cs : List Char) :
    ((longestEvents position cs).filterMap Event.token?).countP (·.kind = .newline) =
      cs.count '\n' := by
  induction position, cs using longestEvents.induct with
  | case1 position =>
    rw [longestEvents]
    rfl
  | case2 position c cs hNone ih =>
    have hOther : '\n' ≠ c := by
      rintro rfl
      have hOne : 0 < matchLength ('\n' :: cs) :=
        Nat.findGreatest_pos.mpr ⟨1, Nat.one_pos, Nat.succ_pos _, rfl⟩
      have hSpec := Nat.findGreatest_of_ne_zero (rfl : matchLength ('\n' :: cs) = _)
        (Nat.ne_of_gt hOne)
      rw [hNone] at hSpec
      contradiction
    have hReport : (skipped c position).token? = none := by
      unfold skipped
      split <;> rfl
    rw [longestEvents_of_none hNone, List.filterMap_cons, hReport, ih,
      List.count_cons_of_ne hOther.symm]
  | case3 position c cs t hSome ih =>
    have hCount := count_newline_of_ofChars? hSome
    have hText := List.take_append_drop (matchLength (c :: cs)) (c :: cs)
    rw [longestEvents_of_some hSome, ← hText, List.count_append, hText, hCount, ← ih]
    show List.countP _ (t :: _) = _
    rw [List.countP_cons, Nat.add_comm]
    simp

end Match

/-! ## A scan outside quotes -/

namespace Scan

variable {n : Nat} {src cs rest : List Char} {p : Plain (List Char)} {c : Char}
variable {s : State (List Char)} {es : List Event} {limit : Option Nat}

/-- The characters `src`, the first of which is at `n`, wait outside all quotes. -/
structure Plain.Unquoted (n : Nat) (src : List Char) (p : Plain (List Char)) : Prop where
  pending : p.Pending n src
  not_singleQuoted : ∀ start text, p ≠ .singleQuoted start text

theorem Plain.Unquoted.nothing (n : Nat) : Plain.Unquoted n [] .nothing := ⟨.nothing, nofun⟩

/-- What is complete in front of the rest of a text is matched. -/
theorem Plain.Unquoted.longestEvents_finish (h : p.Unquoted n src)
    (hEnds : ∀ d ∈ rest.head?, p.EndsBefore d) :
    longestEvents n (src ++ rest) = p.finish ++ longestEvents (n + src.length) rest := by
  cases h.pending with
  | nothing => rfl
  | blanks hNe hAll =>
    obtain ⟨b, hb⟩ := List.exists_mem_of_ne_nil src hNe
    have hWhite := isWhitespace_of_isBlank (hAll b hb)
    refine longestEvents_append (Token.ofChars?_blanks hNe hAll) ?_
    refine endsToken_of_run hb (Or.inl hWhite) ?_
    intro d hd
    exact ⟨Or.inr (hEnds d hd), Or.inl (not_isNameChar_of_isWhitespace hWhite)⟩
  | word hNe hAll =>
    obtain ⟨b, hb⟩ := List.exists_mem_of_ne_nil src hNe
    have hBlank : ¬ isBlank b := fun hBlank =>
      not_isNameChar_of_isWhitespace (isWhitespace_of_isBlank hBlank) (hAll b hb)
    refine longestEvents_append (Token.ofChars?_word hNe hAll) ?_
    refine endsToken_of_run hb (Or.inr (hAll b hb)) ?_
    intro d hd
    exact ⟨Or.inl hBlank, Or.inr (hEnds d hd)⟩
  | @operator first hPunctuation =>
    obtain ⟨hWhite, hName⟩ := not_class_of_isShellPunctuation hPunctuation
    show longestEvents n (first :: rest) = singleEvent n first :: _
    unfold singleEvent
    cases hOp : Punctuation.ofChar? first with
    | none =>
      have hSkipped : skipped first n = .fault (.unhandledPunctuation first) n :=
        if_pos hPunctuation
      rw [longestEvents_skipped, hSkipped]
      · rfl
      · intro more
        exact Token.ofChars?_cons_eq_none hWhite hName (Punctuation.ofChars?_cons_eq_none hOp more)
    | some o =>
      have hToken : Token.ofChars? [first] = some (.punctuation o) :=
        Token.ofChars?_cons_eq_some hWhite hName ((Punctuation.ofChars?_one first).trans hOp)
      refine longestEvents_append hToken ?_
      intro d hd more
      apply Token.ofChars?_cons_eq_none hWhite hName
      exact Punctuation.ofChars?_cons_cons_eq_none (hEnds d hd) more
  | doubleLess =>
    have hToken : Token.ofChars? ['<', '<'] = some (.punctuation .doubleLess) := rfl
    refine longestEvents_append hToken ?_
    intro d hd more
    apply Token.ofChars?_cons_eq_none (by decide) (by decide)
    exact Punctuation.ofChars?_doubleLess_cons (hEnds d hd) more
  | singleQuoted => exact absurd rfl (h.not_singleQuoted _ _)

/-! ### Steps -/

/-- The longest match of a text that starts with `src` at `n` begins with the events `es` of a
step, and what it leaves to be matched is what waits in the state `s` behind the step. -/
def Matched (n : Nat) (src : List Char) (s : State (List Char)) (es : List Event) : Prop :=
  ∃ m waiting p, s = .plain p ∧ p.Unquoted m waiting ∧ m + waiting.length = n + src.length ∧
    ∀ rest, longestEvents n (src ++ rest) = es ++ longestEvents m (waiting ++ rest)

namespace Matched

theorem waiting (h : p.Unquoted n src) : Matched n src (.plain p) [] :=
  ⟨n, src, p, rfl, h, rfl, fun _ => rfl⟩

theorem complete (h : ∀ rest, longestEvents n (src ++ rest) =
    es ++ longestEvents (n + src.length) rest) : Matched n src (.plain .nothing) es :=
  ⟨n + src.length, [], .nothing, rfl, .nothing _, rfl, h⟩

/-- What is matched in front comes first. -/
theorem after {front : List Event} (h : Matched (n + src.length) cs s es)
    (hFront : ∀ rest, longestEvents n (src ++ (cs ++ rest)) =
      front ++ longestEvents (n + src.length) (cs ++ rest)) :
    Matched n (src ++ cs) s (front ++ es) := by
  obtain ⟨m, waiting, p, hState, hWaits, hPosition, hMatch⟩ := h
  refine ⟨m, waiting, p, hState, hWaits, ?_, ?_⟩
  · rw [hPosition, List.length_append, Nat.add_assoc]
  · intro rest
    rw [List.append_assoc, hFront, hMatch, List.append_assoc]

end Matched

/-- A character that is not a quote, with nothing pending. -/
theorem Plain.Enters.matched (h : Plain.Enters n c s es) (hSingle : c ≠ '\'')
    (hDouble : c ≠ '"') : Matched n [c] s es := by
  cases h with
  | newline =>
    have hToken : Token.ofChars? ['\n'] = some .newline := rfl
    refine .complete fun rest => longestEvents_append hToken ?_
    refine endsToken_of_run List.mem_cons_self (Or.inl (by decide)) ?_
    intro d _
    exact ⟨Or.inl (by decide), Or.inl (by decide)⟩
  | blank hBlank =>
    refine .waiting ⟨.blanks (List.cons_ne_nil c []) ?_, nofun⟩
    exact List.forall_mem_singleton.mpr hBlank
  | name hName =>
    refine .waiting ⟨.word (List.cons_ne_nil c []) ?_, nofun⟩
    exact List.forall_mem_singleton.mpr hName
  | singleQuote => exact absurd rfl hSingle
  | doubleQuote => exact absurd rfl hDouble
  | operator _ _ hPunctuation => exact .waiting ⟨.operator hPunctuation, nofun⟩
  | unexpected hWhite hName hOther =>
    have hNone : Punctuation.ofChar? c = none := by
      by_contra hSome
      obtain ⟨o, ho⟩ := Option.ne_none_iff_exists'.mp hSome
      exact hOther (isShellPunctuation_of_ofChar? ho)
    have hSkipped : skipped c n = .fault (.unexpectedChar c) n := if_neg hOther
    refine .complete fun rest => ?_
    show longestEvents n (c :: rest) = _
    rw [longestEvents_skipped, hSkipped]
    · rfl
    · intro more
      exact Token.ofChars?_cons_eq_none hWhite hName (Punctuation.ofChars?_cons_eq_none hNone more)

/-- **A step outside quotes finds the longest match.**  The character is not a quote. -/
theorem Plain.Steps.matched (hStep : Plain.Steps (n + src.length) p c s es)
    (h : p.Unquoted n src) (hSingle : c ≠ '\'') (hDouble : c ≠ '"') :
    Matched n (src ++ [c]) s es := by
  cases hStep with
  | ended hEnds hEnters =>
    refine (hEnters.matched hSingle hDouble).after fun rest => h.longestEvents_finish ?_
    intro d hd
    obtain rfl : c = d := Option.some.inj hd
    exact hEnds
  | blank hBlank =>
    cases h.pending with
    | blanks hNe hAll =>
      refine .waiting ⟨.blanks (by simp) ?_, nofun⟩
      exact List.forall_mem_append.mpr ⟨hAll, List.forall_mem_singleton.mpr hBlank⟩
  | name hName =>
    cases h.pending with
    | word hNe hAll =>
      refine .waiting ⟨.word (by simp) ?_, nofun⟩
      exact List.forall_mem_append.mpr ⟨hAll, List.forall_mem_singleton.mpr hName⟩
  | doubleLess =>
    cases h.pending with
    | operator => exact .waiting ⟨.doubleLess, nofun⟩
  | @pair start first _ o hPair hLongest =>
    cases h.pending with
    | operator hPunctuation =>
      obtain ⟨hWhite, hName⟩ := not_class_of_isShellPunctuation hPunctuation
      have hToken : Token.ofChars? [first, c] = some (.punctuation o) :=
        Token.ofChars?_cons_eq_some hWhite hName ((Punctuation.ofChars?_two first c).trans hPair)
      refine .complete fun rest => longestEvents_append hToken ?_
      intro d _ more
      apply Token.ofChars?_cons_eq_none hWhite hName
      exact Punctuation.ofChars?_pair_cons hPair hLongest d more
  | doubleLessDash =>
    cases h.pending with
    | doubleLess =>
      have hToken : Token.ofChars? ['<', '<', '-'] = some (.punctuation .doubleLessDash) := rfl
      refine .complete fun rest => longestEvents_append hToken ?_
      intro d _ more
      apply Token.ofChars?_cons_eq_none (by decide) (by decide)
      exact Punctuation.ofChars?_doubleLessDash_cons d more
  | quotedChar => exact absurd rfl (h.not_singleQuoted _ _)
  | closingQuote => exact absurd rfl (h.not_singleQuoted _ _)

/-- From what is pending on, a scan of a text without quotes finds the longest match. -/
theorem Plain.Unquoted.eventsFrom_eq (h : p.Unquoted n src)
    (hQuotes : ∀ c ∈ cs, c ≠ '\'' ∧ c ≠ '"') :
    eventsFrom limit ⟨n + src.length, .plain p⟩ cs = longestEvents n (src ++ cs) := by
  induction cs generalizing n src p with
  | nil =>
    rw [h.longestEvents_finish (by simp), longestEvents, List.append_nil]
    rfl
  | cons c cs ih =>
    obtain ⟨hSingle, hDouble⟩ := hQuotes c List.mem_cons_self
    have hStep := p.steps (n + src.length) c
    obtain ⟨m, waiting, p', hState, hWaits, hPosition, hMatch⟩ := hStep.matched h hSingle hDouble
    have hNow : n + src.length + 1 = m + waiting.length := by
      rw [hPosition, List.length_append]
      rfl
    simp only [eventsFrom, Config.step, State.step]
    rw [hState, hNow, ih hWaits fun d hd => hQuotes d (List.mem_cons_of_mem c hd), ← hMatch,
      List.append_assoc]
    rfl

end Scan

/-- **Outside quotes the longest match is found.**  If no quote is in a text, its tokens and
diagnostics are those of the longest match at each place, and as many of the tokens are newlines
as the text has. -/
theorem tokenize_eq_longestMatch (text : String)
    (hQuotes : ∀ c ∈ text.toList, c ≠ '\'' ∧ c ≠ '"') :
    tokenize text = longestMatch text ∧
      (tokenize text).tokens.countP (·.kind = .newline) = text.toList.count '\n' := by
  have hEvents : events text = longestEvents 0 text.toList := by
    rw [events_eq]
    exact (Plain.Unquoted.nothing 0).eventsFrom_eq hQuotes
  have hTokens : (tokenize text).tokens = (longestMatch text).tokens := by
    rw [tokenize_tokens, hEvents]
    rfl
  have hDiagnostics : (tokenize text).diagnostics = (longestMatch text).diagnostics := by
    rw [tokenize_diagnostics, hEvents]
    rfl
  refine ⟨congrArg₂ Lexed.mk hTokens hDiagnostics, ?_⟩
  rw [hTokens]
  exact countP_longestEvents 0 text.toList

/-- Overlapping operators, skipped characters and runs. -/
theorem longestMatch_overlapping :
    (∀ c ∈ "<<<<<->>|[[[ \r1a@é\n>&if".toList, c ≠ '\'' ∧ c ≠ '"') ∧
      tokenize "<<<<<->>|[[[ \r1a@é\n>&if" = longestMatch "<<<<<->>|[[[ \r1a@é\n>&if" ∧
      (tokenize "<<<<<->>|[[[ \r1a@é\n>&if").tokens.countP (·.kind = .newline) = 1 ∧
      longestMatch "<<<<<->>|[[[ \r1a@é\n>&if" =
        ⟨[.punctuation .doubleLess, .punctuation .doubleLess, .punctuation .less,
            .punctuation .dash, .punctuation .doubleGreater, .punctuation .pipe,
            .punctuation .doubleLeftBracket, .punctuation .leftBracket, ⟨.whitespace, " \r"⟩,
            ⟨.word, "1a"⟩, .newline, .punctuation .greaterAnd, ⟨.reserved .kwIf, "if"⟩],
          [⟨.unhandledPunctuation '@', 16⟩, ⟨.unexpectedChar 'é', 17⟩]⟩ := by
  have hQuotes : ∀ c ∈ "<<<<<->>|[[[ \r1a@é\n>&if".toList, c ≠ '\'' ∧ c ≠ '"' :=
    List.all_iff_forall_prop.mp (by decide)
  obtain ⟨hSame, hNewlines⟩ := tokenize_eq_longestMatch _ hQuotes
  exact ⟨hQuotes, hSame, hNewlines.trans (by decide), hSame.symm.trans (by decide)⟩

end ShellLexer
