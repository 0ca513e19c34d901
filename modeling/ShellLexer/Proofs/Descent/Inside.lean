import ShellLexer.Proofs.Descent.Upcoming
import ShellLexer.Proofs.Template.Braced

/-!
# The descent inside double quotes

The procedures for double quotes, for a `$`, and for the two kinds of expansion
find what the scan finds.  The scan keeps the open command substitutions in a
list, where the descent has a call for each: the list of a caller is the one to
return to.  Where the descent looks at the next character before it goes on,
the scan keeps in mind what it has just read (`agrees_unread`).
-/

namespace ShellLexer.Descent

open Scan (Event State Quoted Command)

variable {text : List Char} {limit : Option Nat}

/-! ## Inside double quotes -/

section Inside

variable {c : Cursor} {ch : Char} {read pending : List Char} {start n : Nat}
variable {commands : List Command}

theorem found_emitNonempty_emit (c : Cursor) (pending : List Char) (t : Token) :
    ((c.emitNonempty pending).emit t).found =
      c.found ++ (Scan.Parameter.optionalName pending ++ [.token t]) := by
  cases pending with
  | nil => rfl
  | cons d pending => exact List.append_assoc _ _ _

theorem found_emitName_emit (c : Cursor) (pending : List Char) (t : Token) :
    ((c.emitName pending).emit t).found =
      c.found ++ [Scan.Parameter.nameEvent pending c.position, .token t] := by
  cases pending with
  | nil => exact List.append_assoc _ _ _
  | cons d pending => exact List.append_assoc _ _ _

theorem position_advance_congr {c' : Cursor} (h : c'.position = c.position) :
    (c'.advance text).position = (c.advance text).position := by
  simp only [Cursor.advance, h]

theorem step_literal (hQuote : ch ≠ '"') (hBackslash : ch ≠ '\\') (hDollar : ch ≠ '$') :
    State.step limit n ch (.quoted ⟨start, pending, [], .nothing⟩ : State (List Char)) =
      (.quoted ⟨start, pending ++ [ch], [], .nothing⟩, []) := by
  simp only [State.step, Quoted.step, Quoted.enter, Quoted.readText]
  rw [if_neg (mt beq_iff_eq.mp hQuote), if_neg (mt beq_iff_eq.mp hBackslash),
    if_neg (mt beq_iff_eq.mp hDollar)]
  rfl

theorem step_escaped (hEscape : isOneOf ch Scan.quotedEscapes) :
    State.step limit n ch (.quoted ⟨start, pending, [], .backslash⟩ : State (List Char)) =
      (.quoted ⟨start, pending ++ [ch], [], .nothing⟩, []) := by
  simp only [State.step, Quoted.step, Quoted.afterBackslash]
  rw [if_pos hEscape]
  rfl

/-- A backslash that escapes nothing is part of the text. -/
theorem upcoming_backslash
    (hPlain : ∀ d, c.current text = some d → ¬ isOneOf d Scan.quotedEscapes ∧ d ≠ '\n') :
    upcoming text limit (.quoted ⟨start, pending, [], .backslash⟩) c.position =
      upcoming text limit (.quoted ⟨start, pending ++ ['\\'], [], .nothing⟩) c.position := by
  refine upcoming_congr (fun d hd => ?_) rfl
  obtain ⟨hEscapes, hNewline⟩ := hPlain d hd
  have hOther {e : Char} (he : isOneOf e Scan.quotedEscapes) : d ≠ e := by
    rintro rfl
    exact hEscapes he
  rw [step_literal (hOther (by decide)) (hOther (by decide)) (hOther (by decide))]
  simp only [State.step, Quoted.step, Quoted.afterBackslash]
  rw [if_neg hEscapes, if_neg (mt beq_iff_eq.mp hNewline)]
  rfl

theorem agrees_doubleQuotes (hDepth : c.depth = 0) :
    Agrees text limit c (.plain .nothing)
      (upcoming text limit (.quoted ⟨start, pending, [], .nothing⟩) c.position)
      (doubleQuotes text start pending c) := by
  unfold doubleQuotes
  cases hCurrent : c.current text with
  | none => exact .returns (.finish hCurrent rfl rfl rfl)
  | some ch =>
    dsimp only
    by_cases hQuote : ch = '"'
    · rw [if_pos hQuote]
      subst hQuote
      exact .returns (.read hCurrent rfl (found_emitNonempty_emit c pending _)
        (position_advance_congr (by simp)))
    rw [if_neg hQuote]
    by_cases hBackslash : ch = '\\'
    · rw [if_pos hBackslash]
      subst hBackslash
      have hFirst : Finds c (c.advance text)
          (upcoming text limit (.quoted ⟨start, pending, [], .nothing⟩) c.position)
          (upcoming text limit (.quoted ⟨start, pending, [], .backslash⟩)
            (c.advance text).position) := .pass hCurrent rfl
      cases hNext : (c.advance text).current text with
      | none =>
        refine .goes (hFirst.trans (.same rfl ?_)) (.doubleQuotes hDepth)
        exact upcoming_backslash (by simp [hNext])
      | some d =>
        dsimp only
        by_cases hEscape : isOneOf d Scan.quotedEscapes
        · rw [if_pos hEscape]
          exact .goes (hFirst.trans (.pass hNext (step_escaped hEscape))) (.doubleQuotes hDepth)
        rw [if_neg hEscape]
        by_cases hNewline : d = '\n'
        · rw [if_pos hNewline]
          subst hNewline
          exact .goes (hFirst.trans (.pass hNext rfl)) (.doubleQuotes hDepth)
        · rw [if_neg hNewline]
          refine .goes (hFirst.trans (.same rfl ?_)) (.doubleQuotes hDepth)
          refine upcoming_backslash fun e he => ?_
          rw [← Option.some.inj (hNext.symm.trans he)]
          exact ⟨hEscape, hNewline⟩
    rw [if_neg hBackslash]
    by_cases hDollar : ch = '$'
    · rw [if_pos hDollar]
      subst hDollar
      have hStands : Stands text limit (.call .dollar) (c.emitSegment pending)
          (.quoted ⟨start, [], [], .nothing⟩) _ := .callDollar hDepth
      refine .calls ⟨[.segment (String.ofList pending)], rfl, ?_⟩ hStands
        fun _ h => .doubleQuotes (h.trans hDepth)
      rw [upcoming_eq_append hCurrent rfl]
      rfl
    · rw [if_neg hDollar]
      exact .goes (.pass hCurrent (step_literal hQuote hBackslash hDollar)) (.doubleQuotes hDepth)

theorem dollar_of_tooDeep (hDeep : Quoted.tooDeep limit commands.length) :
    Quoted.dollar limit n ⟨start, read, commands, .nothing⟩ =
      (⟨start, read, commands, .nothing⟩,
        [.punctuation .dollar, .fault .nestedTooDeeply n]) := if_pos hDeep

theorem dollar_of_not_tooDeep (hOpen : ¬ Quoted.tooDeep limit commands.length) :
    Quoted.dollar limit n ⟨start, read, commands, .nothing⟩ =
      (⟨start, read, commands, .dollar n⟩, [.punctuation .dollar]) := if_neg hOpen

theorem step_dollarName {dollarStart : Nat} (hName : isNameStart ch) :
    State.step limit n ch (.quoted ⟨start, read, commands, .dollar dollarStart⟩) =
      (inWord [ch] (.quoted ⟨start, read, commands, .nothing⟩), []) := by
  have hChar := isNameChar_of_isNameStart hName
  simp only [State.step, Quoted.step, Quoted.afterDollar]
  rw [if_neg (Scan.nameChar_ne hChar rfl), if_neg (Scan.nameChar_ne hChar rfl), if_pos hName]
  rfl

/-- What cannot follow a `$` is read on its own. -/
theorem upcoming_invalid {dollarStart : Nat} (hCurrent : c.current text = some ch)
    (hParen : ch ≠ '(') (hBrace : ch ≠ '{') (hName : ¬ isNameStart ch) :
    upcoming text limit (.quoted ⟨start, read, commands, .dollar dollarStart⟩) c.position =
      .fault (.invalidExpansion ch) dollarStart ::
        upcoming text limit (.quoted ⟨start, read, commands, .nothing⟩) c.position := by
  rw [upcoming_eq_append hCurrent rfl, upcoming_eq_append hCurrent rfl]
  simp only [Quoted.step, Quoted.afterDollar]
  rw [if_neg (mt beq_iff_eq.mp hParen), if_neg (mt beq_iff_eq.mp hBrace), if_neg hName]
  rfl

theorem agrees_dollar (hDepth : c.depth = commands.length) :
    Agrees text limit c (.quoted ⟨start, read, commands, .nothing⟩)
      ((Quoted.dollar limit c.position ⟨start, read, commands, .nothing⟩).2 ++
        upcoming text limit
          (.quoted (Quoted.dollar limit c.position ⟨start, read, commands, .nothing⟩).1)
          (c.advance text).position) (dollar text limit c) := by
  unfold dollar
  dsimp only
  rw [Cursor.depth_emit, Cursor.depth_advance, hDepth]
  by_cases hDeep : Quoted.tooDeep limit commands.length
  · rw [if_pos hDeep, dollar_of_tooDeep hDeep]
    exact .returns ⟨[.punctuation .dollar, .fault .nestedTooDeeply c.position],
      List.append_assoc _ _ _, rfl⟩
  rw [if_neg hDeep, dollar_of_not_tooDeep hDeep]
  have hDeeper : c.depth + 1 = commands.length + 1 := congrArg (· + 1) hDepth
  have hBehind : Finds c ((c.advance text).emit (.punctuation .dollar))
      (.punctuation .dollar :: upcoming text limit
        (.quoted ⟨start, read, commands, .dollar c.position⟩) (c.advance text).position)
      (upcoming text limit (.quoted ⟨start, read, commands, .dollar c.position⟩)
        (c.advance text).position) := ⟨[.punctuation .dollar], rfl, rfl⟩
  cases hNext : ((c.advance text).emit (.punctuation .dollar)).current text with
  | none => exact .goes (hBehind.trans (.finish hNext rfl rfl rfl)) .dollarEnd
  | some ch =>
    dsimp only
    by_cases hParen : ch = '('
    · rw [if_pos hParen]
      subst hParen
      exact .calls (hBehind.trans (.same rfl (upcoming_eq_append hNext rfl)))
        (.callCommand hDeeper) fun _ _ => .dollarEnd
    rw [if_neg hParen]
    by_cases hBrace : ch = '{'
    · rw [if_pos hBrace]
      subst hBrace
      exact .calls (hBehind.trans (.same rfl (upcoming_eq_append hNext rfl))) .callParameter
        fun _ _ => .dollarEnd
    rw [if_neg hBrace]
    by_cases hName : isNameStart ch
    · rw [if_pos hName]
      exact .calls (hBehind.trans (.same rfl (Settled.quoted.upcoming_callWord hNext
        (isNameChar_of_isNameStart hName) (step_dollarName hName)))) (.callWord .quoted)
        fun _ _ => .dollarEnd
    · rw [if_neg hName]
      exact .goes (hBehind.trans ⟨[.fault (.invalidExpansion ch) c.position], rfl,
        upcoming_invalid hNext hParen hBrace hName⟩) .dollarEnd

theorem step_commandName {command : Command} (hName : isNameChar ch) :
    State.step limit n ch (.quoted ⟨start, read, command :: commands, .nothing⟩) =
      (inWord [ch] (.quoted ⟨start, read, command :: commands, .nothing⟩), []) := by
  simp only [State.step, Quoted.step, Quoted.enter, Quoted.readCommand]
  rw [if_neg (Scan.nameChar_ne hName rfl), if_neg (Scan.nameChar_ne hName rfl),
    if_neg (Scan.nameChar_ne hName rfl), if_pos hName]
  rfl

theorem step_closeParen {commandStart nested : Nat} :
    State.step limit n ')' (.quoted ⟨start, read, ⟨commandStart, nested⟩ :: commands, .nothing⟩) =
      (.quoted ⟨start, read, inCommand commandStart commands nested, .nothing⟩,
        [.punctuation .rightParen]) := by
  cases nested with
  | zero => rfl
  | succ nested => rfl

theorem step_unhandled {command : Command} (hDollar : ch ≠ '$') (hOpen : ch ≠ '(')
    (hClose : ch ≠ ')') (hName : ¬ isNameChar ch) :
    State.step limit n ch (.quoted ⟨start, read, command :: commands, .nothing⟩) =
      (.quoted ⟨start, read, command :: commands, .nothing⟩,
        [.fault (.unhandledInCommand ch) n]) := by
  simp only [State.step, Quoted.step, Quoted.enter, Quoted.readCommand]
  rw [if_neg (mt beq_iff_eq.mp hDollar), if_neg (mt beq_iff_eq.mp hOpen),
    if_neg (mt beq_iff_eq.mp hClose), if_neg hName]
  rfl

theorem agrees_command {commandStart opened : Nat} (hDepth : c.depth = commands.length + 1) :
    Agrees text limit c (.quoted ⟨start, read, commands, .nothing⟩)
      (upcoming text limit
        (.quoted ⟨start, read, inCommand commandStart commands opened, .nothing⟩) c.position)
      (command text commandStart opened c) := by
  unfold command
  cases opened with
  | zero => exact .returns (.same rfl rfl)
  | succ nested =>
    have hResumes (c₂ : Cursor) (h : c₂.depth = c.depth) :
        Stands text limit (.command commandStart (nested + 1)) c₂
          (.quoted ⟨start, read, commands, .nothing⟩) (upcoming text limit
            (.quoted ⟨start, read, ⟨commandStart, nested⟩ :: commands, .nothing⟩) c₂.position) :=
      .command (h.trans hDepth)
    rw [if_neg (Nat.succ_ne_zero nested)]
    cases hCurrent : c.current text with
    | none => exact .returns (.finish hCurrent rfl rfl rfl)
    | some ch =>
      dsimp only
      by_cases hDollar : ch = '$'
      · rw [if_pos hDollar]
        subst hDollar
        exact .calls (.same rfl (upcoming_eq_append hCurrent rfl)) (.callDollar hDepth) hResumes
      rw [if_neg hDollar]
      by_cases hOpen : ch = '('
      · rw [if_pos hOpen]
        subst hOpen
        exact .goes (.read hCurrent rfl rfl rfl) (.command hDepth)
      rw [if_neg hOpen]
      by_cases hClose : ch = ')'
      · rw [if_pos hClose]
        subst hClose
        exact .goes (.read hCurrent step_closeParen rfl rfl) (.command hDepth)
      rw [if_neg hClose]
      by_cases hName : isNameChar ch
      · rw [if_pos hName]
        exact .calls (.same rfl (Settled.quoted.upcoming_callWord hCurrent hName
          (step_commandName hName))) (.callWord .quoted) hResumes
      · rw [if_neg hName]
        exact .goes (.read hCurrent (step_unhandled hDollar hOpen hClose hName) rfl rfl)
          (.command hDepth)

end Inside

/-! ## Inside a parameter expansion -/

section Parameter

open Scan.Parameter (choiceOperator? trimOperator? nameEvent optionalName)

variable {c behind : Cursor} {ch : Char} {read pending : List Char} {start brace n : Nat}
variable {commands : List Command} {split : Bool} {ahead : List Event}

theorem step_parameter {p p' : Scan.Parameter (List Char)} {es : List Event}
    (hStep : p.step n ch = (some p', es)) :
    State.step limit n ch (inBraces start read commands p) =
      (inBraces start read commands p', es) := by
  simp only [inBraces, State.step, Quoted.step, hStep]
  rfl

theorem upcoming_parameter_congr {p p' : Scan.Parameter (List Char)}
    (hStep : ∀ ch, c.current text = some ch → p.step c.position ch = p'.step c.position ch)
    (hStart : p.start = p'.start) :
    upcoming text limit (inBraces start read commands p) c.position =
      upcoming text limit (inBraces start read commands p') c.position := by
  refine upcoming_congr (fun ch hCurrent => ?_) ?_
  · simp only [inBraces, State.step, Quoted.step, hStep ch hCurrent]
  · simp only [inBraces, State.finish, Quoted.finish, hStart]

/-- The operator behind a name. -/
theorem step_choice {o : Punctuation} (hChoice : choiceOperator? ch = some o) :
    Scan.Parameter.step n ch ⟨brace, pending, false, .text⟩ =
      (some ⟨brace, [], true, .text⟩, [nameEvent pending n, .punctuation o]) := by
  have hMem := Scan.Parameter.mem_of_choiceOperator? hChoice
  simp only [List.mem_cons, List.not_mem_nil, or_false] at hMem
  obtain rfl | rfl | rfl | rfl := hMem
  all_goals
    cases hChoice
    rfl

theorem step_trimFirst {o : Punctuation} (hTrim : trimOperator? ch = some o) :
    Scan.Parameter.step n ch ⟨brace, pending, false, .text⟩ =
      (some ⟨brace, [], true, .trim o⟩, optionalName pending ++ [.punctuation o]) := by
  obtain ⟨rfl, rfl⟩ | ⟨rfl, rfl⟩ := Scan.Parameter.eq_of_trimOperator? hTrim
  all_goals rfl

theorem trimOperator?_injective {d : Char} {o : Punctuation} (h : trimOperator? ch = some o)
    (h' : trimOperator? d = some o) : d = ch := by
  obtain ⟨rfl, rfl⟩ | ⟨rfl, rfl⟩ := Scan.Parameter.eq_of_trimOperator? h
  all_goals
    obtain ⟨rfl, hO⟩ | ⟨rfl, hO⟩ := Scan.Parameter.eq_of_trimOperator? h'
    all_goals first | rfl | cases hO

theorem not_mem_operators (hNamed : ch ∉ Grammar.namedOperators)
    (hTrim : trimOperator? ch = none) : ch ∉ Braced.operators := by
  intro hMem
  have hEither : ch ∈ Grammar.namedOperators ++ ['#', '%'] := hMem
  rw [List.mem_append] at hEither
  rcases hEither with hName | hOther
  · exact hNamed hName
  · simp only [List.mem_cons, List.not_mem_nil, or_false] at hOther
    obtain rfl | rfl := hOther
    all_goals cases hTrim

/-- Control goes on with the next character, which the scan reads as if nothing were open. -/
theorem agrees_unread {p : Scan.Parameter (List Char)}
    (hFinds : Finds c behind ahead
      (upcoming text limit (inBraces start read commands p) behind.position))
    (hStep : ∀ d, behind.current text = some d → p.step behind.position d =
      Scan.Parameter.step behind.position d ⟨p.start, pending, split, .text⟩) :
    Agrees text limit c (.quoted ⟨start, read, commands, .nothing⟩) ahead
      (.goes (.parameter p.start pending split) behind) :=
  .goes (hFinds.trans (.same rfl (upcoming_parameter_congr hStep rfl))) .parameter

/-- Behind a backslash. -/
theorem agrees_backslash (hFinds : Finds c behind ahead (upcoming text limit
      (inBraces start read commands ⟨brace, pending, split, .backslash⟩) behind.position)) :
    Agrees text limit c (.quoted ⟨start, read, commands, .nothing⟩) ahead
      (if behind.current text = some '{' then
        .goes (.parameter brace (pending ++ ['{']) split) (behind.advance text)
      else .goes (.parameter brace (pending ++ ['\\']) split) behind) := by
  by_cases hEscaped : behind.current text = some '{'
  · rw [if_pos hEscaped]
    exact .goes (hFinds.trans (.pass hEscaped rfl)) .parameter
  · rw [if_neg hEscaped]
    refine agrees_unread hFinds fun d hd => Scan.Parameter.step_backslash ?_
    rintro rfl
    exact hEscaped hd

/-- Behind the colon in front of an operator. -/
theorem agrees_colon (hFinds : Finds c behind ahead (upcoming text limit
      (inBraces start read commands ⟨brace, [], true, .colon⟩) behind.position)) :
    Agrees text limit c (.quoted ⟨start, read, commands, .nothing⟩) ahead
      (match (behind.current text).bind choiceOperator? with
      | some o => .goes (.parameter brace [] true) ((behind.emit (.punctuation o)).advance text)
      | none => .goes (.parameter brace [] true) behind) := by
  cases hChoice : (behind.current text).bind choiceOperator? with
  | some o =>
    obtain ⟨d, hd, ho⟩ := Option.bind_eq_some_iff.mp hChoice
    have hStep : (⟨brace, [], true, .colon⟩ : Scan.Parameter (List Char)).step behind.position d =
        (some ⟨brace, [], true, .text⟩, [.punctuation o]) := by
      simp only [Scan.Parameter.step, ho]
    exact .goes (hFinds.trans (.read hd (step_parameter hStep) rfl rfl)) .parameter
  | none =>
    refine agrees_unread hFinds fun d hd => Scan.Parameter.step_colon ?_
    rwa [hd] at hChoice

/-- Behind a trimming operator. -/
theorem agrees_trim {o : Punctuation} (hTrim : trimOperator? ch = some o)
    (hFinds : Finds c behind ahead (upcoming text limit
      (inBraces start read commands ⟨brace, [], true, .trim o⟩) behind.position)) :
    Agrees text limit c (.quoted ⟨start, read, commands, .nothing⟩) ahead
      (if behind.current text = some ch then
        .goes (.parameter brace [] true) ((behind.emit (.punctuation o)).advance text)
      else .goes (.parameter brace [] true) behind) := by
  by_cases hTwice : behind.current text = some ch
  · rw [if_pos hTwice]
    have hStep : (⟨brace, [], true, .trim o⟩ : Scan.Parameter (List Char)).step behind.position
        ch = (some ⟨brace, [], true, .text⟩, [.punctuation o]) := if_pos hTrim
    exact .goes (hFinds.trans (.read hTwice (step_parameter hStep) rfl rfl)) .parameter
  · rw [if_neg hTwice]
    refine agrees_unread hFinds fun d hd => Scan.Parameter.step_trim fun hSame => hTwice ?_
    rw [hd, trimOperator?_injective hTrim hSame]

theorem agrees_parameter :
    Agrees text limit c (.quoted ⟨start, read, commands, .nothing⟩)
      (upcoming text limit (inBraces start read commands ⟨brace, pending, split, .text⟩) c.position)
      (parameter text brace pending split c) := by
  unfold parameter
  cases hCurrent : c.current text with
  | none => exact .returns (.finish hCurrent rfl rfl rfl)
  | some ch =>
    dsimp only
    by_cases hBrace : ch = '}'
    · rw [if_pos hBrace]
      subst hBrace
      exact .returns (.read hCurrent rfl (List.append_assoc _ _ _) rfl)
    rw [if_neg hBrace]
    by_cases hBackslash : ch = '\\'
    · rw [if_pos hBackslash]
      subst hBackslash
      exact agrees_backslash (.pass hCurrent rfl)
    rw [if_neg hBackslash]
    by_cases hNamed : ch ∈ Grammar.namedOperators ∧ split = false
    · rw [if_pos hNamed]
      obtain ⟨hMem, rfl⟩ := hNamed
      by_cases hColon : ch = ':'
      · rw [if_pos hColon]
        subst hColon
        exact agrees_colon (.read hCurrent rfl (found_emitName_emit c pending _)
          (position_advance_congr (by simp)))
      · obtain ⟨o, ho⟩ := exists_choiceOperator? hMem hColon
        rw [if_neg hColon, Cursor.current_emitName, hCurrent, Option.bind_some, ho]
        exact .goes (.read hCurrent (step_parameter (step_choice ho))
          (found_emitName_emit c pending _) (position_advance_congr (by simp))) .parameter
    rw [if_neg hNamed]
    cases hTrim : (if split then none else trimOperator? ch) with
    | some o =>
      have hFirst : split = false := by
        cases split with
        | false => rfl
        | true => cases hTrim
      subst hFirst
      exact agrees_trim hTrim (.read hCurrent (step_parameter (step_trimFirst hTrim))
        (found_emitNonempty_emit c pending _) (position_advance_congr (by simp)))
    | none =>
      have hPlain : split = true ∨ ch ∉ Braced.operators := by
        cases split with
        | true => exact Or.inl rfl
        | false => exact Or.inr (not_mem_operators (fun hMem => hNamed ⟨hMem, rfl⟩) hTrim)
      exact .goes (.pass hCurrent (step_parameter
        (Scan.Parameter.step_plain hBrace hBackslash hPlain))) .parameter

end Parameter

end ShellLexer.Descent
