import ShellLexer.Proofs.Descent.Progress
import ShellLexer.Proofs.Template.ReadBack

/-!
# The descent beside the scan

Wherever control stands, the scan stands somewhere too, with the same text in
front of it.  `Stands` relates the two: to a point and a cursor it gives the
events that the scan finds from there on, and the state that the scan will be
in when control returns.  A step agrees with the scan if what it adds comes
first among these events, and if a call hands its caller's state on as the one
to return to (`Agrees`).

* `Finds.read`, `Finds.pass`, `Finds.finish`: what one character, or the end of the text, adds.
-/

namespace ShellLexer.Descent

open Scan (Event State Plain Quoted Command eventsFrom wordToken)

variable {text : List Char} {limit : Option Nat}

/-! ## What the scan finds from here -/

/-- What a scan in the state `s` finds from a position of the text on. -/
def upcoming (text : List Char) (limit : Option Nat) (s : State (List Char)) (position : Nat) :
    List Event :=
  eventsFrom limit ⟨position, s⟩ (text.drop position)

/-- What is found between two cursors comes first in `ahead`, and `ahead'` is the rest of it. -/
def Finds (c c' : Cursor) (ahead ahead' : List Event) : Prop :=
  ∃ es, c'.found = c.found ++ es ∧ ahead = es ++ ahead'

theorem Finds.same {c c' : Cursor} {ahead ahead' : List Event} (hFound : c'.found = c.found)
    (hAhead : ahead = ahead') : Finds c c' ahead ahead' :=
  ⟨[], by rw [hFound, List.append_nil], hAhead⟩

theorem Finds.trans {c c₁ c' : Cursor} {ahead ahead₁ ahead' : List Event}
    (h : Finds c c₁ ahead ahead₁) (h' : Finds c₁ c' ahead₁ ahead') : Finds c c' ahead ahead' := by
  obtain ⟨es, hFound, rfl⟩ := h
  obtain ⟨es', hFound', rfl⟩ := h'
  exact ⟨es ++ es', by rw [hFound', hFound, List.append_assoc], (List.append_assoc _ _ _).symm⟩

section Upcoming

variable {c c' : Cursor} {ch : Char} {s s' : State (List Char)} {es : List Event}

theorem upcoming_eq_finish (h : c.current text = none) :
    upcoming text limit s c.position = s.finish := by
  rw [upcoming, List.drop_eq_nil_of_le (Cursor.length_le_of_current h)]
  rfl

theorem upcoming_eq_cons (h : c.current text = some ch) :
    upcoming text limit s c.position =
      eventsFrom limit ⟨c.position, s⟩ (ch :: text.drop (c.position + 1)) := by
  obtain ⟨hLess, rfl⟩ := List.getElem?_eq_some_iff.mp h
  rw [upcoming, List.drop_eq_getElem_cons hLess]

theorem upcoming_eq_append (h : c.current text = some ch)
    (hStep : s.step limit c.position ch = (s', es)) :
    upcoming text limit s c.position = es ++ upcoming text limit s' (c.advance text).position := by
  rw [upcoming_eq_cons h, eventsFrom, Scan.Config.step]
  simp only [hStep]
  rw [Cursor.position_advance h]
  rfl

/-- One character is read by both. -/
theorem Finds.read (h : c.current text = some ch) (hStep : s.step limit c.position ch = (s', es))
    (hFound : c'.found = c.found ++ es) (hPosition : c'.position = (c.advance text).position) :
    Finds c c' (upcoming text limit s c.position) (upcoming text limit s' c'.position) :=
  ⟨es, hFound, by rw [upcoming_eq_append h hStep, hPosition]⟩

/-- One character is read by both and nothing is found yet. -/
theorem Finds.pass (h : c.current text = some ch) (hStep : s.step limit c.position ch = (s', [])) :
    Finds c (c.advance text) (upcoming text limit s c.position)
      (upcoming text limit s' (c.advance text).position) :=
  .read h hStep (List.append_nil _).symm rfl

/-- The text ends for both. -/
theorem Finds.finish (h : c.current text = none)
    (hFinish : s.finish = es ++ s'.finish) (hFound : c'.found = c.found ++ es)
    (hPosition : c'.position = c.position) :
    Finds c c' (upcoming text limit s c.position) (upcoming text limit s' c'.position) :=
  ⟨es, hFound, by rw [hPosition, upcoming_eq_finish h, upcoming_eq_finish h, hFinish]⟩

/-- Two states that read the next character alike find the same. -/
theorem upcoming_congr
    (hStep : ∀ ch, c.current text = some ch →
      s.step limit c.position ch = s'.step limit c.position ch) (hFinish : s.finish = s'.finish) :
    upcoming text limit s c.position = upcoming text limit s' c.position := by
  cases hCurrent : c.current text with
  | none => rw [upcoming_eq_finish hCurrent, upcoming_eq_finish hCurrent, hFinish]
  | some ch =>
    rw [upcoming_eq_append hCurrent (hStep ch hCurrent), upcoming_eq_append hCurrent rfl]

/-- What is pending outside quotes is found where the next character does not go on with it. -/
theorem upcoming_of_endsBefore {p : Plain (List Char)}
    (hEnds : ∀ ch, c.current text = some ch → p.EndsBefore ch) :
    upcoming text limit (.plain p) c.position =
      p.finish ++ upcoming text limit (.plain .nothing) c.position := by
  cases hCurrent : c.current text with
  | none =>
    rw [upcoming_eq_finish hCurrent, upcoming_eq_finish hCurrent]
    exact (List.append_nil _).symm
  | some ch =>
    have hStep : State.step limit c.position ch (.plain p) =
        ((Plain.enter c.position ch).1, p.finish ++ (Plain.enter c.position ch).2) :=
      Plain.step_of_endsBefore (hEnds ch hCurrent) c.position
    rw [upcoming_eq_append hCurrent hStep, upcoming_eq_append hCurrent rfl, List.append_assoc]
    rfl

end Upcoming

/-! ## Words -/

/-- Nothing is pending but the literal text of double quotes. -/
inductive Settled : State (List Char) → Prop
  | plain : Settled (.plain .nothing)
  | quoted {start : Nat} {read : List Char} {commands : List Command} :
      Settled (.quoted ⟨start, read, commands, .nothing⟩)

/-- The state in the middle of a word. -/
def inWord (w : List Char) : State (List Char) → State (List Char)
  | .plain _ => .plain (.word w)
  | .quoted q => .quoted (q.setInner (.word w))

section Words

variable {c c' : Cursor} {ch : Char} {s : State (List Char)} {w : List Char}

theorem Settled.step_inWord (h : Settled s) (hName : isNameChar ch) (n : Nat) :
    (inWord w s).step limit n ch = (inWord (w ++ [ch]) s, []) := by
  cases h with
  | plain => exact if_pos hName
  | quoted => exact if_pos hName

theorem Settled.upcoming_inWord (h : Settled s)
    (hEnds : ∀ ch, c.current text = some ch → ¬ isNameChar ch) :
    upcoming text limit (inWord w s) c.position =
      .token (wordToken w) :: upcoming text limit s c.position := by
  cases h with
  | plain => exact upcoming_of_endsBefore hEnds
  | quoted =>
    refine Scan.eventsFrom_wordEnd ?_
    rw [Template.startsWithName, List.head?_drop]
    show (c.current text).any isNameChar = false
    cases hCurrent : c.current text with
    | none => rfl
    | some ch => exact Bool.eq_false_iff.mpr (hEnds ch hCurrent)

/-- A word is called for in front of its first character. -/
theorem Settled.upcoming_callWord {back : State (List Char)} (h : Settled back)
    (hCurrent : c.current text = some ch) (hName : isNameChar ch)
    (hStep : s.step limit c.position ch = (inWord [ch] back, [])) :
    upcoming text limit s c.position = upcoming text limit (inWord [] back) c.position := by
  rw [upcoming_eq_append hCurrent hStep, upcoming_eq_append hCurrent (h.step_inWord hName _)]
  rfl

end Words

/-! ## Where control and the scan stand -/

/-- The state outside quotes with these blanks pending. -/
def ofBlanks (pending : List Char) : Plain (List Char) :=
  if pending.isEmpty then .nothing else .blanks pending

/-- The substitutions that are open where one has so many parentheses open. -/
def inCommand (start : Nat) (outer : List Command) : Nat → List Command
  | 0 => outer
  | nested + 1 => ⟨start, nested⟩ :: outer

/-- The state inside the braces of an expansion in double quotes. -/
def inBraces (start : Nat) (read : List Char) (commands : List Command)
    (p : Scan.Parameter (List Char)) : State (List Char) :=
  .quoted ⟨start, read, commands, .parameter p⟩

/-- Control stands at a point with a cursor.  The scan finds `ahead` from there on, and is in the
state `back` when control returns.  Control counts an expansion from its `$` on, the scan only the
command substitutions around it.  In front of a `$` the literal text has been found already, so what
the scan finds there begins with the `$` itself. -/
inductive Stands (text : List Char) (limit : Option Nat) :
    Point → Cursor → State (List Char) → List Event → Prop
  | script {c : Cursor} (depth : c.depth = 0) :
      Stands text limit .script c (.plain .nothing)
        (upcoming text limit (.plain .nothing) c.position)
  | callOutside {s : Procedure} {c : Cursor} (depth : c.depth = 0)
      (outside : s = .layout ∨ s = .punctuation ∨ s = .singleQuotes ∨ s = .doubleQuotes) :
      Stands text limit (.call s) c (.plain .nothing)
        (upcoming text limit (.plain .nothing) c.position)
  | layout {c : Cursor} {pending : List Char} :
      Stands text limit (.layout pending) c (.plain .nothing)
        (upcoming text limit (.plain (ofBlanks pending)) c.position)
  | callWord {c : Cursor} {back : State (List Char)} (settled : Settled back) :
      Stands text limit (.call .word) c back (upcoming text limit (inWord [] back) c.position)
  | word {c : Cursor} {pending : List Char} {back : State (List Char)} (settled : Settled back)
      (nonempty : pending ≠ []) :
      Stands text limit (.word pending) c back
        (upcoming text limit (inWord pending back) c.position)
  | singleQuotes {c : Cursor} {start : Nat} {pending : List Char} :
      Stands text limit (.singleQuotes start pending) c (.plain .nothing)
        (upcoming text limit (.plain (.singleQuoted start pending)) c.position)
  | doubleQuotes {c : Cursor} {start : Nat} {pending : List Char} (depth : c.depth = 0) :
      Stands text limit (.doubleQuotes start pending) c (.plain .nothing)
        (upcoming text limit (.quoted ⟨start, pending, [], .nothing⟩) c.position)
  | callDollar {c : Cursor} {start : Nat} {read : List Char} {commands : List Command}
      (depth : c.depth = commands.length) :
      Stands text limit (.call .dollar) c (.quoted ⟨start, read, commands, .nothing⟩)
        ((Quoted.dollar limit c.position ⟨start, read, commands, .nothing⟩).2 ++
          upcoming text limit
            (.quoted (Quoted.dollar limit c.position ⟨start, read, commands, .nothing⟩).1)
            (c.advance text).position)
  | dollarEnd {c : Cursor} {start : Nat} {read : List Char} {commands : List Command} :
      Stands text limit .dollarEnd c (.quoted ⟨start, read, commands, .nothing⟩)
        (upcoming text limit (.quoted ⟨start, read, commands, .nothing⟩) c.position)
  | callCommand {c : Cursor} {start : Nat} {read : List Char} {commands : List Command}
      (depth : c.depth = commands.length + 1) :
      Stands text limit (.call .command) c (.quoted ⟨start, read, commands, .nothing⟩)
        (.punctuation .leftParen :: upcoming text limit
          (.quoted ⟨start, read, ⟨c.position, 0⟩ :: commands, .nothing⟩)
          (c.advance text).position)
  | command {c : Cursor} {start : Nat} {read : List Char} {commands : List Command}
      {commandStart opened : Nat} (depth : c.depth = commands.length + 1) :
      Stands text limit (.command commandStart opened) c
        (.quoted ⟨start, read, commands, .nothing⟩)
        (upcoming text limit
          (.quoted ⟨start, read, inCommand commandStart commands opened, .nothing⟩) c.position)
  | callParameter {c : Cursor} {start : Nat} {read : List Char} {commands : List Command} :
      Stands text limit (.call .parameter) c (.quoted ⟨start, read, commands, .nothing⟩)
        (.punctuation .leftBrace :: upcoming text limit
          (inBraces start read commands (.opened c.position [])) (c.advance text).position)
  | parameter {c : Cursor} {start : Nat} {read : List Char} {commands : List Command}
      {brace : Nat} {pending : List Char} {split : Bool} :
      Stands text limit (.parameter brace pending split) c
        (.quoted ⟨start, read, commands, .nothing⟩)
        (upcoming text limit (inBraces start read commands ⟨brace, pending, split, .text⟩)
          c.position)

/-- What a step does is what the scan finds next. -/
inductive Agrees (text : List Char) (limit : Option Nat) (c : Cursor) (back : State (List Char))
    (ahead : List Event) : Outcome → Prop
  | returns {c' : Cursor} (finds : Finds c c' ahead (upcoming text limit back c'.position)) :
      Agrees text limit c back ahead (.returns c')
  | goes {p' : Point} {c' : Cursor} {ahead' : List Event} (finds : Finds c c' ahead ahead')
      (stands : Stands text limit p' c' back ahead') : Agrees text limit c back ahead (.goes p' c')
  | calls {s : Procedure} {c₁ : Cursor} {p : Point} {ahead₁ : List Event}
      {inner : State (List Char)} (finds : Finds c c₁ ahead ahead₁)
      (stands : Stands text limit (.call s) c₁ inner ahead₁)
      (resumes : ∀ c₂ : Cursor, c₂.depth = c₁.depth →
        Stands text limit p c₂ back (upcoming text limit inner c₂.position)) :
      Agrees text limit c back ahead (.calls s c₁ p)

end ShellLexer.Descent
