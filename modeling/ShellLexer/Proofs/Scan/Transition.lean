import ShellLexer.Scan.Run

/-!
# What a step can do

One relation for each function that reads a character.  A constructor is one
thing that can happen to it: what the character is, what is pending before and
behind it, and what is found.  A property of all steps is proved by cases on
these.

* `State.steps`: every step is one of these.
-/

namespace ShellLexer.Scan

/-! ## Outside double quotes -/

/-- A character with nothing pending. -/
inductive Plain.Enters (position : Nat) : Char → State (List Char) → List Event → Prop
  | newline : Enters position '\n' (.plain .nothing) [.token .newline]
  | blank {c : Char} (blank : isBlank c) : Enters position c (.plain (.blanks [c])) []
  | name {c : Char} (name : isNameChar c) : Enters position c (.plain (.word [c])) []
  | singleQuote : Enters position '\'' (.plain (.singleQuoted position [])) []
  | doubleQuote : Enters position '"' (.quoted ⟨position, [], [], .nothing⟩)
      [.punctuation .doubleQuote]
  | operator {c : Char} (not_white : ¬ isWhitespace c) (not_name : ¬ isNameChar c)
      (punctuation : isShellPunctuation c) (not_single : c ≠ '\'') (not_double : c ≠ '"') :
      Enters position c (.plain (.operator position c)) []
  | unexpected {c : Char} (not_white : ¬ isWhitespace c) (not_name : ¬ isNameChar c)
      (not_punctuation : ¬ isShellPunctuation c) :
      Enters position c (.plain .nothing) [.fault (.unexpectedChar c) position]

theorem Plain.enters (position : Nat) (c : Char) :
    Plain.Enters position c (Plain.enter position c : State (List Char) × List Event).1
      (Plain.enter position c : State (List Char) × List Event).2 := by
  unfold Plain.enter
  by_cases hNewline : c == '\n'
  · obtain rfl := beq_iff_eq.mp hNewline
    exact .newline
  rw [if_neg hNewline]
  by_cases hBlank : isBlank c
  · rw [if_pos hBlank]
    exact .blank hBlank
  rw [if_neg hBlank]
  by_cases hName : isNameChar c
  · rw [if_pos hName]
    exact .name hName
  rw [if_neg hName]
  by_cases hSingle : c == '\''
  · obtain rfl := beq_iff_eq.mp hSingle
    exact .singleQuote
  rw [if_neg hSingle]
  by_cases hDouble : c == '"'
  · obtain rfl := beq_iff_eq.mp hDouble
    exact .doubleQuote
  rw [if_neg hDouble]
  have hWhite : ¬ isWhitespace c := by
    simp [isWhitespace, hBlank, mt beq_iff_eq.mpr hNewline]
  by_cases hPunctuation : isShellPunctuation c
  · rw [if_pos hPunctuation]
    exact .operator hWhite hName hPunctuation (mt beq_iff_eq.mpr hSingle)
      (mt beq_iff_eq.mpr hDouble)
  · rw [if_neg hPunctuation]
    exact .unexpected hWhite hName hPunctuation

/-- What is pending is complete in front of the character `c`. -/
def Plain.EndsBefore (c : Char) : Plain (List Char) → Prop
  | .nothing => True
  | .blanks _ => ¬ isBlank c
  | .word _ => ¬ isNameChar c
  | .operator _ first => Punctuation.ofPair? first c = none
  | .doubleLess => c ≠ '-'
  | .singleQuoted _ _ => False

theorem Plain.EndsBefore.not_singleQuoted {p : Plain (List Char)} {c : Char}
    (h : p.EndsBefore c) : ∀ start text, p ≠ .singleQuoted start text := by
  rintro start text rfl
  exact h

/-- What is complete is found in front of what the next character does. -/
theorem Plain.step_of_endsBefore {p : Plain (List Char)} {c : Char} (h : p.EndsBefore c)
    (position : Nat) :
    p.step position c = Plain.enterAfter p.finish position c := by
  cases p with
  | nothing => rfl
  | blanks text | word text =>
    simp only [Plain.step]
    rw [if_neg h]
    rfl
  | operator start first =>
    have hPair : Punctuation.ofPair? first c = none := h
    simp only [Plain.step, hPair]
    rfl
  | doubleLess =>
    simp only [Plain.step]
    rw [if_neg (mt beq_iff_eq.mp h)]
    rfl
  | singleQuoted start text => exact h.elim

/-- A character outside double quotes. -/
inductive Plain.Steps (position : Nat) :
    Plain (List Char) → Char → State (List Char) → List Event → Prop
  | ended {p : Plain (List Char)} {c : Char} {s : State (List Char)} {es : List Event}
      (ends : p.EndsBefore c) (enters : Plain.Enters position c s es) :
      Steps position p c s (p.finish ++ es)
  | blank {text : List Char} {c : Char} (blank : isBlank c) :
      Steps position (.blanks text) c (.plain (.blanks (text ++ [c]))) []
  | name {text : List Char} {c : Char} (name : isNameChar c) :
      Steps position (.word text) c (.plain (.word (text ++ [c]))) []
  | doubleLess {start : Nat} : Steps position (.operator start '<') '<' (.plain .doubleLess) []
  | pair {start : Nat} {first c : Char} {o : Punctuation}
      (pair : Punctuation.ofPair? first c = some o) (longest : o ≠ .doubleLess) :
      Steps position (.operator start first) c (.plain .nothing) [.punctuation o]
  | doubleLessDash : Steps position .doubleLess '-' (.plain .nothing) [.punctuation .doubleLessDash]
  | quotedChar {start : Nat} {text : List Char} {c : Char} (not_quote : c ≠ '\'') :
      Steps position (.singleQuoted start text) c (.plain (.singleQuoted start (text ++ [c]))) []
  | closingQuote {start : Nat} {text : List Char} :
      Steps position (.singleQuoted start text) '\'' (.plain .nothing)
        [.token ⟨.singleQuotedString, String.ofList text⟩]

theorem Plain.Steps.of_endsBefore {p : Plain (List Char)} {position : Nat} {c : Char}
    (h : p.EndsBefore c) :
    Plain.Steps position p c (p.step position c).1 (p.step position c).2 := by
  rw [Plain.step_of_endsBefore h]
  exact .ended h (Plain.enters position c)

theorem Plain.steps (p : Plain (List Char)) (position : Nat) (c : Char) :
    Plain.Steps position p c (p.step position c).1 (p.step position c).2 := by
  cases p with
  | nothing => exact .of_endsBefore trivial
  | blanks text =>
    by_cases hc : isBlank c
    · simp only [Plain.step]
      rw [if_pos hc]
      exact .blank hc
    · exact .of_endsBefore hc
  | word text =>
    by_cases hc : isNameChar c
    · simp only [Plain.step]
      rw [if_pos hc]
      exact .name hc
    · exact .of_endsBefore hc
  | operator start first =>
    cases hPair : Punctuation.ofPair? first c with
    | none => exact .of_endsBefore hPair
    | some o =>
      simp only [Plain.step, hPair]
      split
      · rename_i hDoubleLess
        obtain rfl := Option.some.inj hDoubleLess
        have hChars := Punctuation.chars_of_ofPair? hPair
        obtain ⟨rfl, rfl⟩ : '<' = first ∧ '<' = c := by simpa [Punctuation.chars] using hChars
        exact .doubleLess
      · rename_i hLongest hSome
        obtain rfl := Option.some.inj hSome
        exact .pair hPair hLongest
      · contradiction
  | doubleLess =>
    by_cases hc : c == '-'
    · obtain rfl := beq_iff_eq.mp hc
      exact .doubleLessDash
    · exact .of_endsBefore (mt beq_iff_eq.mpr hc)
  | singleQuoted start text =>
    simp only [Plain.step]
    by_cases hc : c == '\''
    · obtain rfl := beq_iff_eq.mp hc
      exact .closingQuote
    · rw [if_neg hc]
      exact .quotedChar (mt beq_iff_eq.mpr hc)

/-! ## Inside a parameter expansion -/

namespace Parameter

/-- The expansion without what its last character left open. -/
def settled (p : Parameter (List Char)) : Parameter (List Char) :=
  match p.phase with
  | .backslash => p.push '\\'
  | _ => { p with phase := .text }

/-- A character of the text; the expansion is gone once it closes. -/
inductive Reads (position : Nat) : Parameter (List Char) → Char →
    Option (Parameter (List Char)) → List Event → Prop
  | close {p : Parameter (List Char)} : Reads position p '}' none
      [.segment (String.ofList p.text), .punctuation .rightBrace]
  | backslash {p : Parameter (List Char)} :
      Reads position p '\\' (some { p with phase := .backslash }) []
  | collect {p : Parameter (List Char)} {c : Char} (not_brace : c ≠ '}') (not_backslash : c ≠ '\\')
      (plain : p.hasOperator = true ∨
        c ≠ ':' ∧ choiceOperator? c = none ∧ trimOperator? c = none) :
      Reads position p c (some (p.push c)) []
  | colon {p : Parameter (List Char)} (first : p.hasOperator = false) :
      Reads position p ':' (some (p.split .colon)) [nameEvent p.text position, .punctuation .colon]
  | choice {p : Parameter (List Char)} {c : Char} {o : Punctuation} (first : p.hasOperator = false)
      (operator : choiceOperator? c = some o) :
      Reads position p c (some (p.split .text)) [nameEvent p.text position, .punctuation o]
  | trim {p : Parameter (List Char)} {c : Char} {o : Punctuation} (first : p.hasOperator = false)
      (operator : trimOperator? c = some o) :
      Reads position p c (some (p.split (.trim o))) (optionalName p.text ++ [.punctuation o])

theorem reads (p : Parameter (List Char)) (position : Nat) (c : Char) :
    Reads position p c (p.read position c).1 (p.read position c).2 := by
  unfold read
  by_cases hBrace : c == '}'
  · obtain rfl := beq_iff_eq.mp hBrace
    exact .close
  rw [if_neg hBrace]
  by_cases hBackslash : c == '\\'
  · obtain rfl := beq_iff_eq.mp hBackslash
    exact .backslash
  rw [if_neg hBackslash]
  have hCollect : (p.hasOperator = true ∨
      c ≠ ':' ∧ choiceOperator? c = none ∧ trimOperator? c = none) →
        Reads position p c (some (p.push c)) [] :=
    .collect (mt beq_iff_eq.mpr hBrace) (mt beq_iff_eq.mpr hBackslash)
  by_cases hOperator : p.hasOperator = true
  · rw [if_pos hOperator]
    exact hCollect (Or.inl hOperator)
  rw [if_neg hOperator]
  have hFirst : p.hasOperator = false := by simpa using hOperator
  by_cases hColon : c == ':'
  · obtain rfl := beq_iff_eq.mp hColon
    exact .colon hFirst
  rw [if_neg hColon]
  cases hChoice : choiceOperator? c with
  | some o => exact .choice hFirst hChoice
  | none =>
    cases hTrim : trimOperator? c with
    | some o => exact .trim hFirst hTrim
    | none => exact hCollect (Or.inr ⟨mt beq_iff_eq.mpr hColon, hChoice, hTrim⟩)

/-- A character inside the braces. -/
inductive Steps (position : Nat) : Parameter (List Char) → Char →
    Option (Parameter (List Char)) → List Event → Prop
  | read {p : Parameter (List Char)} {c : Char} {next : Option (Parameter (List Char))}
      {es : List Event} (reads : Reads position p.settled c next es) : Steps position p c next es
  | escaped {p : Parameter (List Char)} (phase : p.phase = .backslash) :
      Steps position p '{' (some (p.push '{')) []
  | afterColon {p : Parameter (List Char)} {c : Char} {o : Punctuation} (phase : p.phase = .colon)
      (operator : choiceOperator? c = some o) :
      Steps position p c (some { p with phase := .text }) [.punctuation o]
  | twice {p : Parameter (List Char)} {c : Char} {o : Punctuation} (phase : p.phase = .trim o)
      (operator : trimOperator? c = some o) :
      Steps position p c (some { p with phase := .text }) [.punctuation o]

theorem steps (p : Parameter (List Char)) (position : Nat) (c : Char) :
    Steps position p c (p.step position c).1 (p.step position c).2 := by
  obtain ⟨start, text, hasOperator, phase⟩ := p
  cases phase with
  | text => exact .read (reads _ position c)
  | backslash =>
    simp only [Parameter.step]
    by_cases hc : c == '{'
    · obtain rfl := beq_iff_eq.mp hc
      exact .escaped rfl
    · rw [if_neg hc]
      exact .read (reads _ position c)
  | colon =>
    simp only [Parameter.step]
    cases hChoice : choiceOperator? c with
    | some o => exact .afterColon rfl hChoice
    | none => exact .read (reads _ position c)
  | trim o =>
    simp only [Parameter.step]
    by_cases hSame : trimOperator? c = some o
    · rw [if_pos hSame]
      exact .twice rfl hSame
    · rw [if_neg hSame]
      exact .read (reads _ position c)

end Parameter

/-! ## Inside double quotes -/

namespace Quoted

/-- A `$` inside `depth` command substitutions: what is pending behind it. -/
inductive Dollars (limit : Option Nat) (position depth : Nat) : Inner (List Char) →
    List Event → Prop
  | opens (shallow : ¬ tooDeep limit depth) :
      Dollars limit position depth (.dollar position) [.punctuation .dollar]
  | deep (deep : tooDeep limit depth) : Dollars limit position depth .nothing
      [.punctuation .dollar, .fault .nestedTooDeeply position]

theorem exists_dollars (limit : Option Nat) (position start : Nat) (text : List Char)
    (commands : List Command) :
    ∃ inner, (dollar limit position ⟨start, text, commands, .nothing⟩).1 =
        ⟨start, text, commands, inner⟩ ∧
      Dollars limit position commands.length inner
        (dollar limit position ⟨start, text, commands, .nothing⟩).2 := by
  unfold dollar
  by_cases hDeep : tooDeep limit commands.length
  · rw [if_pos hDeep]
    exact ⟨.nothing, rfl, .deep hDeep⟩
  · rw [if_neg hDeep]
    exact ⟨.dollar position, rfl, .opens hDeep⟩

/-- The literal text in front of the closing quote. -/
def lastSegment (text : List Char) : List Event :=
  if text = [] then [] else [.segment (String.ofList text)]

/-- A character with nothing pending besides the literal text `text`. -/
inductive Enters (limit : Option Nat) (position start : Nat) : List Char → List Command → Char →
    State (List Char) → List Event → Prop
  | close {text : List Char} : Enters limit position start text [] '"' (.plain .nothing)
      (lastSegment text ++ [.punctuation .doubleQuote])
  | backslash {text : List Char} : Enters limit position start text [] '\\'
      (.quoted ⟨start, text, [], .backslash⟩) []
  | textDollar {text : List Char} {inner : Inner (List Char)} {es : List Event}
      (dollars : Dollars limit position 0 inner es) : Enters limit position start text [] '$'
      (.quoted ⟨start, [], [], inner⟩) (.segment (String.ofList text) :: es)
  | literal {text : List Char} {c : Char} (not_quote : c ≠ '"') (not_backslash : c ≠ '\\')
      (not_dollar : c ≠ '$') : Enters limit position start text [] c
      (.quoted ⟨start, text ++ [c], [], .nothing⟩) []
  | commandDollar {text : List Char} {command : Command} {outer : List Command}
      {inner : Inner (List Char)} {es : List Event}
      (dollars : Dollars limit position (outer.length + 1) inner es) :
      Enters limit position start text (command :: outer) '$'
        (.quoted ⟨start, text, command :: outer, inner⟩) es
  | openParen {text : List Char} {commandStart nested : Nat} {outer : List Command} :
      Enters limit position start text (⟨commandStart, nested⟩ :: outer) '('
        (.quoted ⟨start, text, ⟨commandStart, nested + 1⟩ :: outer, .nothing⟩)
        [.punctuation .leftParen]
  | closeParen {text : List Char} {commandStart nested : Nat} {outer : List Command} :
      Enters limit position start text (⟨commandStart, nested + 1⟩ :: outer) ')'
        (.quoted ⟨start, text, ⟨commandStart, nested⟩ :: outer, .nothing⟩)
        [.punctuation .rightParen]
  | closeCommand {text : List Char} {commandStart : Nat} {outer : List Command} :
      Enters limit position start text (⟨commandStart, 0⟩ :: outer) ')'
        (.quoted ⟨start, text, outer, .nothing⟩) [.punctuation .rightParen]
  | name {text : List Char} {command : Command} {outer : List Command} {c : Char}
      (name : isNameChar c) : Enters limit position start text (command :: outer) c
        (.quoted ⟨start, text, command :: outer, .word [c]⟩) []
  | unhandled {text : List Char} {command : Command} {outer : List Command} {c : Char}
      (not_dollar : c ≠ '$') (not_open : c ≠ '(') (not_close : c ≠ ')')
      (not_name : ¬ isNameChar c) : Enters limit position start text (command :: outer) c
        (.quoted ⟨start, text, command :: outer, .nothing⟩)
        [.fault (.unhandledInCommand c) position]

theorem enters (limit : Option Nat) (position start : Nat) (text : List Char)
    (commands : List Command) (c : Char) :
    Enters limit position start text commands c
      (enter limit position c ⟨start, text, commands, .nothing⟩).1
      (enter limit position c ⟨start, text, commands, .nothing⟩).2 := by
  cases commands with
  | nil =>
    simp only [enter, readText]
    by_cases hQuote : c == '"'
    · obtain rfl := beq_iff_eq.mp hQuote
      cases text with
      | nil => exact .close
      | cons d text => exact .close
    rw [if_neg hQuote]
    by_cases hBackslash : c == '\\'
    · obtain rfl := beq_iff_eq.mp hBackslash
      exact .backslash
    rw [if_neg hBackslash]
    by_cases hDollar : c == '$'
    · obtain rfl := beq_iff_eq.mp hDollar
      obtain ⟨inner, hInner, hDollars⟩ := exists_dollars limit position start [] []
      have hEnters : Enters limit position start text [] '$' (.quoted ⟨start, [], [], inner⟩) _ :=
        .textDollar hDollars
      rw [← hInner] at hEnters
      exact hEnters
    · rw [if_neg hDollar]
      exact .literal (mt beq_iff_eq.mpr hQuote) (mt beq_iff_eq.mpr hBackslash)
        (mt beq_iff_eq.mpr hDollar)
  | cons command outer =>
    obtain ⟨commandStart, nested⟩ := command
    simp only [enter, readCommand]
    by_cases hDollar : c == '$'
    · obtain rfl := beq_iff_eq.mp hDollar
      obtain ⟨inner, hInner, hDollars⟩ :=
        exists_dollars limit position start text (⟨commandStart, nested⟩ :: outer)
      have hEnters : Enters limit position start text (⟨commandStart, nested⟩ :: outer) '$'
          (.quoted ⟨start, text, ⟨commandStart, nested⟩ :: outer, inner⟩) _ :=
        .commandDollar hDollars
      rw [← hInner] at hEnters
      exact hEnters
    rw [if_neg hDollar]
    by_cases hOpen : c == '('
    · obtain rfl := beq_iff_eq.mp hOpen
      exact .openParen
    rw [if_neg hOpen]
    by_cases hClose : c == ')'
    · obtain rfl := beq_iff_eq.mp hClose
      cases nested with
      | zero => exact .closeCommand
      | succ nested => exact .closeParen
    rw [if_neg hClose]
    by_cases hName : isNameChar c
    · rw [if_pos hName]
      exact .name hName
    · rw [if_neg hName]
      exact .unhandled (mt beq_iff_eq.mpr hDollar) (mt beq_iff_eq.mpr hOpen)
        (mt beq_iff_eq.mpr hClose) hName

/-- A character inside double quotes. -/
inductive Steps (limit : Option Nat) (position start : Nat) (text : List Char)
    (commands : List Command) : Inner (List Char) → Char → State (List Char) → List Event → Prop
  | enter {c : Char} {s : State (List Char)} {es : List Event}
      (enters : Enters limit position start text commands c s es) :
      Steps limit position start text commands .nothing c s es
  | escaped {c : Char} (escaped : isOneOf c quotedEscapes) :
      Steps limit position start text commands .backslash c
        (.quoted ⟨start, text ++ [c], commands, .nothing⟩) []
  | continued : Steps limit position start text commands .backslash '\n'
      (.quoted ⟨start, text, commands, .nothing⟩) []
  | unescaped {c : Char} (not_escaped : ¬ isOneOf c quotedEscapes) (not_newline : c ≠ '\n') :
      Steps limit position start text commands .backslash c
        (.quoted ⟨start, text ++ ['\\'] ++ [c], commands, .nothing⟩) []
  | openCommand {dollarStart : Nat} : Steps limit position start text commands
      (.dollar dollarStart) '('
      (.quoted ⟨start, text, ⟨position, 0⟩ :: commands, .nothing⟩) [.punctuation .leftParen]
  | openParameter {dollarStart : Nat} : Steps limit position start text commands
      (.dollar dollarStart) '{'
      (.quoted ⟨start, text, commands, .parameter (.opened position [])⟩) [.punctuation .leftBrace]
  | dollarName {dollarStart : Nat} {c : Char} (nameStart : isNameStart c) :
      Steps limit position start text commands (.dollar dollarStart) c
        (.quoted ⟨start, text, commands, .word [c]⟩) []
  | invalid {dollarStart : Nat} {c : Char} {s : State (List Char)} {es : List Event}
      (not_paren : c ≠ '(') (not_brace : c ≠ '{') (not_name : ¬ isNameStart c)
      (enters : Enters limit position start text commands c s es) :
      Steps limit position start text commands (.dollar dollarStart) c s
        (.fault (.invalidExpansion c) dollarStart :: es)
  | name {name : List Char} {c : Char} (isName : isNameChar c) :
      Steps limit position start text commands (.word name) c
        (.quoted ⟨start, text, commands, .word (name ++ [c])⟩) []
  | nameEnd {name : List Char} {c : Char} {s : State (List Char)} {es : List Event}
      (not_name : ¬ isNameChar c) (enters : Enters limit position start text commands c s es) :
      Steps limit position start text commands (.word name) c s (.token (wordToken name) :: es)
  | parameter {p p' : Parameter (List Char)} {c : Char} {es : List Event}
      (steps : Parameter.Steps position p c (some p') es) :
      Steps limit position start text commands (.parameter p) c
        (.quoted ⟨start, text, commands, .parameter p'⟩) es
  | parameterEnd {p : Parameter (List Char)} {c : Char} {es : List Event}
      (steps : Parameter.Steps position p c none es) :
      Steps limit position start text commands (.parameter p) c
        (.quoted ⟨start, text, commands, .nothing⟩) es

theorem steps (limit : Option Nat) (position start : Nat) (text : List Char)
    (commands : List Command) (inner : Inner (List Char)) (c : Char) :
    Steps limit position start text commands inner c
      (step limit position c ⟨start, text, commands, inner⟩).1
      (step limit position c ⟨start, text, commands, inner⟩).2 := by
  have hEnters := enters limit position start text commands c
  cases inner with
  | nothing => exact .enter hEnters
  | backslash =>
    simp only [step, afterBackslash]
    by_cases hEscaped : isOneOf c quotedEscapes
    · rw [if_pos hEscaped]
      exact .escaped hEscaped
    rw [if_neg hEscaped]
    by_cases hNewline : c == '\n'
    · obtain rfl := beq_iff_eq.mp hNewline
      exact .continued
    · rw [if_neg hNewline]
      exact .unescaped hEscaped (mt beq_iff_eq.mpr hNewline)
  | dollar dollarStart =>
    simp only [step, afterDollar]
    by_cases hParen : c == '('
    · obtain rfl := beq_iff_eq.mp hParen
      exact .openCommand
    rw [if_neg hParen]
    by_cases hBrace : c == '{'
    · obtain rfl := beq_iff_eq.mp hBrace
      exact .openParameter
    rw [if_neg hBrace]
    by_cases hName : isNameStart c
    · rw [if_pos hName]
      exact .dollarName hName
    · rw [if_neg hName]
      exact .invalid (mt beq_iff_eq.mpr hParen) (mt beq_iff_eq.mpr hBrace) hName hEnters
  | word name =>
    simp only [step]
    by_cases hName : isNameChar c
    · rw [if_pos hName]
      exact .name hName
    · rw [if_neg hName]
      exact .nameEnd hName hEnters
  | parameter p =>
    have hSteps := p.steps position c
    simp only [step]
    rcases hResult : p.step position c with ⟨_ | p', es⟩
    · rw [hResult] at hSteps
      exact .parameterEnd hSteps
    · rw [hResult] at hSteps
      exact .parameter hSteps

end Quoted

/-- A character, wherever the scan stands. -/
inductive State.Steps (limit : Option Nat) (position : Nat) :
    State (List Char) → Char → State (List Char) → List Event → Prop
  | plain {p : Plain (List Char)} {c : Char} {s : State (List Char)} {es : List Event}
      (steps : Plain.Steps position p c s es) : Steps limit position (.plain p) c s es
  | quoted {start : Nat} {text : List Char} {commands : List Command} {inner : Inner (List Char)}
      {c : Char} {s : State (List Char)} {es : List Event}
      (steps : Quoted.Steps limit position start text commands inner c s es) :
      Steps limit position (.quoted ⟨start, text, commands, inner⟩) c s es

theorem State.steps (s : State (List Char)) (limit : Option Nat) (position : Nat) (c : Char) :
    State.Steps limit position s c (s.step limit position c).1 (s.step limit position c).2 := by
  obtain p | ⟨start, text, commands, inner⟩ := s
  · exact .plain (p.steps position c)
  · exact .quoted (Quoted.steps limit position start text commands inner c)

end ShellLexer.Scan
