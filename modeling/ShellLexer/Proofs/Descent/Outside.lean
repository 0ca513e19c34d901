import ShellLexer.Proofs.Descent.Upcoming
import ShellLexer.Proofs.Longest.Lexeme

/-!
# The descent outside double quotes

The procedures for white space, words, punctuation and single quotes find what
the scan finds, and between them control and the scan stand with nothing
pending.
-/

namespace ShellLexer.Descent

open Scan (Event State Plain wordToken)

variable {text : List Char} {limit : Option Nat}
variable {c : Cursor} {ch : Char} {pending : List Char} {start n : Nat}

theorem enter_blank (hBlank : isBlank ch) :
    (Plain.enter n ch : State (List Char) × List Event) = (.plain (.blanks [ch]), []) := by
  have hNewline : ch ≠ '\n' := by
    rintro rfl
    exact absurd hBlank (by decide)
  rw [Plain.enter, if_neg (mt beq_iff_eq.mp hNewline), if_pos hBlank]
  rfl

theorem enter_name (hName : isNameChar ch) :
    (Plain.enter n ch : State (List Char) × List Event) = (.plain (.word [ch]), []) := by
  have hWhite : ¬ isWhitespace ch := fun hWhite => not_isNameChar_of_isWhitespace hWhite hName
  simp only [isWhitespace, Bool.or_eq_true, not_or] at hWhite
  rw [Plain.enter, if_neg hWhite.2, if_neg hWhite.1, if_pos hName]
  rfl

theorem enter_operator (hPunctuation : isShellPunctuation ch) (hSingle : ch ≠ '\'')
    (hDouble : ch ≠ '"') :
    (Plain.enter n ch : State (List Char) × List Event) = (.plain (.operator n ch), []) := by
  obtain ⟨hWhite, hName⟩ := not_class_of_isShellPunctuation hPunctuation
  simp only [isWhitespace, Bool.or_eq_true, not_or] at hWhite
  rw [Plain.enter, if_neg hWhite.2, if_neg hWhite.1, if_neg hName,
    if_neg (mt beq_iff_eq.mp hSingle), if_neg (mt beq_iff_eq.mp hDouble), if_pos hPunctuation]

theorem enter_unexpected (hWhite : ¬ isWhitespace ch) (hName : ¬ isNameChar ch)
    (hSingle : ch ≠ '\'') (hDouble : ch ≠ '"') (hPunctuation : ¬ isShellPunctuation ch) :
    (Plain.enter n ch : State (List Char) × List Event) =
      (.plain .nothing, [.fault (.unexpectedChar ch) n]) := by
  simp only [isWhitespace, Bool.or_eq_true, not_or] at hWhite
  rw [Plain.enter, if_neg hWhite.2, if_neg hWhite.1, if_neg hName,
    if_neg (mt beq_iff_eq.mp hSingle), if_neg (mt beq_iff_eq.mp hDouble), if_neg hPunctuation]

theorem agrees_script (hDepth : c.depth = 0) :
    Agrees text limit c (.plain .nothing) (upcoming text limit (.plain .nothing) c.position)
      (script text c) := by
  unfold script
  cases hCurrent : c.current text with
  | none => exact .returns (.same rfl rfl)
  | some ch =>
    have hCall {s : Procedure}
        (hOutside : s = .layout ∨ s = .punctuation ∨ s = .singleQuotes ∨ s = .doubleQuotes) :
        Agrees text limit c (.plain .nothing) (upcoming text limit (.plain .nothing) c.position)
          (.calls s c .script) :=
      .calls (.same rfl rfl) (.callOutside hDepth hOutside) fun _ h => .script (h.trans hDepth)
    dsimp only
    by_cases hWhite : isWhitespace ch
    · rw [if_pos hWhite]
      exact hCall (by simp)
    rw [if_neg hWhite]
    by_cases hName : isNameChar ch
    · rw [if_pos hName]
      exact .calls (.same rfl (Settled.plain.upcoming_callWord hCurrent hName (enter_name hName)))
        (.callWord .plain) fun _ h => .script (h.trans hDepth)
    rw [if_neg hName]
    by_cases hSingle : ch = '\''
    · rw [if_pos hSingle]
      exact hCall (by simp)
    rw [if_neg hSingle]
    by_cases hDouble : ch = '"'
    · rw [if_pos hDouble]
      exact hCall (by simp)
    rw [if_neg hDouble]
    by_cases hPunctuation : isShellPunctuation ch
    · rw [if_pos hPunctuation]
      exact hCall (by simp)
    · rw [if_neg hPunctuation]
      exact .goes (.read hCurrent (enter_unexpected hWhite hName hSingle hDouble hPunctuation) rfl
        rfl) (.script hDepth)

theorem finds_emitBlanks (hEnds : ∀ ch, c.current text = some ch → ¬ isBlank ch) :
    Finds c (c.emitBlanks pending) (upcoming text limit (.plain (ofBlanks pending)) c.position)
      (upcoming text limit (.plain .nothing) (c.emitBlanks pending).position) := by
  unfold Cursor.emitBlanks ofBlanks
  split
  · exact .same rfl rfl
  · exact ⟨[.token ⟨.whitespace, String.ofList pending⟩], rfl, upcoming_of_endsBefore hEnds⟩

theorem step_ofBlanks (hBlank : isBlank ch) :
    State.step limit n ch (.plain (ofBlanks pending)) =
      (.plain (ofBlanks (pending ++ [ch])), []) := by
  cases pending with
  | nil => exact enter_blank hBlank
  | cons d pending => exact if_pos hBlank

theorem agrees_layout :
    Agrees text limit c (.plain .nothing)
      (upcoming text limit (.plain (ofBlanks pending)) c.position) (layout text pending c) := by
  unfold layout
  cases hCurrent : c.current text with
  | none => exact .returns (finds_emitBlanks (by simp [hCurrent]))
  | some ch =>
    have hOther (h : ¬ isBlank ch) : ∀ d, c.current text = some d → ¬ isBlank d := by
      intro d hd
      rwa [← Option.some.inj (hCurrent.symm.trans hd)]
    dsimp only
    by_cases hNewline : ch = '\n'
    · rw [if_pos hNewline]
      subst hNewline
      have hCurrent' : (c.emitBlanks pending).current text = some '\n' := by simpa using hCurrent
      exact .goes ((finds_emitBlanks (hOther (by decide))).trans (.read hCurrent' rfl rfl rfl))
        .layout
    rw [if_neg hNewline]
    by_cases hWhite : isWhitespace ch
    · rw [if_pos hWhite]
      have hBlank : isBlank ch := by simpa [isWhitespace, hNewline] using hWhite
      exact .goes (.pass hCurrent (step_ofBlanks hBlank)) .layout
    · rw [if_neg hWhite]
      exact .returns (finds_emitBlanks (hOther (mt isWhitespace_of_isBlank hWhite)))

theorem agrees_word {back : State (List Char)} (hSettled : Settled back) (hNe : pending ≠ []) :
    Agrees text limit c back (upcoming text limit (inWord pending back) c.position)
      (word text pending c) := by
  unfold word
  have hEnd (hEnds : ∀ ch, c.current text = some ch → ¬ isNameChar ch) :
      Agrees text limit c back (upcoming text limit (inWord pending back) c.position)
        (.returns (if pending.isEmpty then c else c.emit (wordToken pending))) := by
    rw [if_neg (by simpa using hNe)]
    exact .returns ⟨[.token (wordToken pending)], rfl, hSettled.upcoming_inWord hEnds⟩
  cases hCurrent : c.current text with
  | none => exact hEnd (by simp [hCurrent])
  | some ch =>
    dsimp only
    by_cases hName : isNameChar ch
    · rw [if_pos hName]
      exact .goes (.pass hCurrent (hSettled.step_inWord hName _))
        (.word hSettled (by simp))
    · rw [if_neg hName]
      refine hEnd fun d hd => ?_
      rwa [← Option.some.inj (hCurrent.symm.trans hd)]

theorem step_operator {first : Char} {o : Punctuation}
    (hPair : Punctuation.ofPair? first ch = some o) (hLongest : o ≠ .doubleLess) :
    State.step limit n ch (.plain (.operator start first) : State (List Char)) =
      (.plain .nothing, [.punctuation o]) := by
  simp only [State.step, Plain.step, hPair]

theorem agrees_punctuation {first : Char} (hCurrent : c.current text = some first)
    (hStarts : Procedure.punctuation.Starts first) :
    Agrees text limit c (.plain .nothing) (upcoming text limit (.plain .nothing) c.position)
      (punctuation text c) := by
  obtain ⟨hPunctuation, hSingle, hDouble⟩ := hStarts
  have hFirst : Finds c (c.advance text) (upcoming text limit (.plain .nothing) c.position)
      (upcoming text limit (.plain (.operator c.position first)) (c.advance text).position) :=
    .pass hCurrent (enter_operator hPunctuation hSingle hDouble)
  simp only [punctuation, hCurrent]
  cases hPair : ((c.advance text).current text).bind (Punctuation.ofPair? first) with
  | some o =>
    obtain ⟨second, hSecond, hOperator⟩ := Option.bind_eq_some_iff.mp hPair
    dsimp only
    by_cases hDoubleLess : o = .doubleLess
    · subst hDoubleLess
      have hStep : State.step limit (c.advance text).position second
          (.plain (.operator c.position first) : State (List Char)) =
            (.plain .doubleLess, []) := by
        simp only [State.step, Plain.step, hOperator]
      have hBoth : Finds c ((c.advance text).advance text) _
          (upcoming text limit (.plain .doubleLess) ((c.advance text).advance text).position) :=
        hFirst.trans (.pass hSecond hStep)
      by_cases hDash : ((c.advance text).advance text).current text = some '-'
      · rw [if_pos ⟨rfl, hDash⟩]
        exact .returns (hBoth.trans (.read hDash rfl rfl rfl))
      · rw [if_neg (fun h => hDash h.2)]
        have hEnds : ∀ d, ((c.advance text).advance text).current text = some d → d ≠ '-' := by
          rintro d hd rfl
          exact hDash hd
        exact .returns (hBoth.trans ⟨[.punctuation .doubleLess], rfl,
          upcoming_of_endsBefore hEnds⟩)
    · rw [if_neg (fun h => hDoubleLess h.1)]
      exact .returns (hFirst.trans (.read hSecond (step_operator hOperator hDoubleLess) rfl rfl))
  | none =>
    have hEnds : ∀ d, (c.advance text).current text = some d →
        Punctuation.ofPair? first d = none := by
      intro d hd
      rwa [hd] at hPair
    have hRest : upcoming text limit (.plain (.operator c.position first))
        (c.advance text).position = Scan.singleEvent c.position first ::
          upcoming text limit (.plain .nothing) (c.advance text).position :=
      upcoming_of_endsBefore hEnds
    unfold Scan.singleEvent at hRest
    dsimp only
    cases hChar : Punctuation.ofChar? first with
    | some o =>
      rw [hChar] at hRest
      exact .returns (hFirst.trans ⟨[.punctuation o], rfl, hRest⟩)
    | none =>
      rw [hChar] at hRest
      exact .returns (hFirst.trans ⟨[.fault (.unhandledPunctuation first) c.position], rfl, hRest⟩)

theorem agrees_singleQuotes :
    Agrees text limit c (.plain .nothing)
      (upcoming text limit (.plain (.singleQuoted start pending)) c.position)
      (singleQuotes text start pending c) := by
  unfold singleQuotes
  cases hCurrent : c.current text with
  | none => exact .returns (.finish hCurrent rfl rfl rfl)
  | some ch =>
    dsimp only
    by_cases hQuote : ch = '\''
    · rw [if_pos hQuote]
      subst hQuote
      exact .returns (.read hCurrent rfl rfl rfl)
    · rw [if_neg hQuote]
      exact .goes (.pass hCurrent (if_neg (mt beq_iff_eq.mp hQuote)))
        .singleQuotes

end ShellLexer.Descent
