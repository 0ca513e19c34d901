import ShellLexer.Scan.Run

/-!
# What a scan does not depend on

The events of a scan depend neither on how its buffers keep their text nor on
the position it counts from.  `State.transport f k` replaces every buffer `b`
of a state by `f b` and adds `k` to every position in it.

* `eventsFrom_transport`: where `f` respects the operations of buffers, a scan
  from the transported configuration finds the same events, `k` further on.
* `eventsFrom_shift`: the case of the same buffers.
* `events_of_hom`: the case of the same positions.
-/

namespace ShellLexer

variable {β γ : Type} [TextBuffer β] [TextBuffer γ]

/-- `f` respects the operations of buffers, and reads the same from them. -/
structure TextBuffer.IsHom (f : β → γ) : Prop where
  withCapacity (n : Nat) : f (TextBuffer.withCapacity n) = TextBuffer.withCapacity n
  push (b : β) (c : Char) : f (TextBuffer.push b c) = TextBuffer.push (f b) c
  clear (b : β) : f (TextBuffer.clear b) = TextBuffer.clear (f b)
  isEmpty (b : β) : TextBuffer.isEmpty (f b) = TextBuffer.isEmpty b
  startsWithDigit (b : β) : TextBuffer.startsWithDigit (f b) = TextBuffer.startsWithDigit b
  text (b : β) : TextBuffer.text (f b) = TextBuffer.text b

theorem TextBuffer.isHom_id : TextBuffer.IsHom (id : β → β) :=
  ⟨fun _ => rfl, fun _ _ => rfl, fun _ => rfl, fun _ => rfl, fun _ => rfl, fun _ => rfl⟩

/-- The same diagnostic, `k` characters further on. -/
def Diagnostic.shift (k : Nat) (d : Diagnostic) : Diagnostic := ⟨d.fault, d.position + k⟩

namespace Scan

/-- The same event, `k` characters further on. -/
def Event.shift (k : Nat) : Event → Event
  | token t => token t
  | diagnostic d => diagnostic (d.shift k)

@[simp] theorem Event.shift_token (k : Nat) (t : Token) : (Event.token t).shift k = .token t := rfl

@[simp] theorem Event.shift_punctuation (k : Nat) (p : Punctuation) :
    (Event.punctuation p).shift k = .punctuation p := rfl

@[simp] theorem Event.shift_segment (k : Nat) (s : String) :
    (Event.segment s).shift k = .segment s := rfl

@[simp] theorem Event.shift_fault (k : Nat) (f : Fault) (n : Nat) :
    (Event.fault f n).shift k = .fault f (n + k) := rfl

theorem Event.shift_zero (e : Event) : e.shift 0 = e := by cases e <;> rfl

def Plain.transport (f : β → γ) (k : Nat) : Plain β → Plain γ
  | nothing => nothing
  | blanks text => blanks (f text)
  | word text => word (f text)
  | operator start first => operator (start + k) first
  | doubleLess => doubleLess
  | singleQuoted start text => singleQuoted (start + k) (f text)

def Command.shift (k : Nat) (command : Command) : Command := ⟨command.start + k, command.nested⟩

def Parameter.transport (f : β → γ) (k : Nat) (p : Parameter β) : Parameter γ :=
  ⟨p.start + k, f p.text, p.hasOperator, p.phase⟩

def Inner.transport (f : β → γ) (k : Nat) : Inner β → Inner γ
  | nothing => nothing
  | backslash => backslash
  | dollar start => dollar (start + k)
  | word text => word (f text)
  | parameter p => parameter (p.transport f k)

def Quoted.transport (f : β → γ) (k : Nat) (q : Quoted β) : Quoted γ :=
  ⟨q.start + k, f q.text, q.commands.map (Command.shift k), q.inner.transport f k⟩

def State.transport (f : β → γ) (k : Nat) : State β → State γ
  | plain p => plain (p.transport f k)
  | quoted q => quoted (q.transport f k)

def Config.transport (f : β → γ) (k : Nat) (config : Config β) : Config γ :=
  ⟨config.position + k, config.state.transport f k⟩

/-- What a step from a transported state has to give. -/
def transported (f : β → γ) (k : Nat) (result : State β × List Event) : State γ × List Event :=
  (result.1.transport f k, result.2.map (Event.shift k))

variable {f : β → γ} (hf : TextBuffer.IsHom f) (k position : Nat) (c : Char) (limit : Option Nat)
include hf

/-! ## Outside double quotes -/

theorem oneChar_hom : oneChar c = f (oneChar c) := by
  rw [oneChar, oneChar, hf.push, hf.withCapacity]

theorem wordToken_hom (text : β) : wordToken (f text) = wordToken text := by
  rw [wordToken, wordToken, hf.startsWithDigit, hf.text]

omit hf in
theorem singleEvent_shift (start : Nat) :
    singleEvent (start + k) c = (singleEvent start c).shift k := by
  unfold singleEvent
  split <;> rfl

theorem Plain.enter_transport :
    (Plain.enter (position + k) c : State γ × List Event) =
      transported f k (Plain.enter position c) := by
  unfold Plain.enter
  repeat' split
  all_goals simp [transported, State.transport, Plain.transport, Quoted.transport,
    Inner.transport, oneChar_hom hf c, hf.withCapacity, Event.shift_fault]

theorem Plain.enterAfter_transport (es : List Event) :
    (Plain.enterAfter (es.map (Event.shift k)) (position + k) c : State γ × List Event) =
      transported f k (Plain.enterAfter es position c) := by
  simp only [Plain.enterAfter, Plain.enter_transport hf, transported, List.map_append]

theorem Plain.step_transport (p : Plain β) :
    (p.transport f k).step (position + k) c = transported f k (p.step position c) := by
  cases p with
  | nothing => exact Plain.enter_transport hf k position c
  | blanks text =>
    simp only [Plain.transport, Plain.step, hf.text, ← hf.push]
    split
    · rfl
    · exact Plain.enterAfter_transport hf k position c [.token ⟨.whitespace, TextBuffer.text text⟩]
  | word text =>
    simp only [Plain.transport, Plain.step, wordToken_hom hf, ← hf.push]
    split
    · rfl
    · exact Plain.enterAfter_transport hf k position c [.token (wordToken text)]
  | operator start first =>
    simp only [Plain.transport, Plain.step, singleEvent_shift]
    split
    · rfl
    · rfl
    · exact Plain.enterAfter_transport hf k position c [singleEvent start first]
  | doubleLess =>
    simp only [Plain.transport, Plain.step]
    split
    · rfl
    · exact Plain.enterAfter_transport hf k position c [.punctuation .doubleLess]
  | singleQuoted start text =>
    simp only [Plain.transport, Plain.step, hf.text, ← hf.push]
    split <;> rfl

theorem Plain.finish_transport (p : Plain β) :
    (p.transport f k).finish = p.finish.map (Event.shift k) := by
  cases p <;> simp [Plain.transport, Plain.finish, hf.text, wordToken_hom hf, singleEvent_shift]

/-! ## Inside parameter expansions -/

theorem Parameter.push_transport (p : Parameter β) :
    (p.transport f k).push c = (p.push c).transport f k := by
  simp only [Parameter.push, Parameter.transport, hf.push]

theorem Parameter.split_transport (p : Parameter β) (phase : Parameter.Phase) :
    (p.transport f k).split phase = (p.split phase).transport f k := by
  simp only [Parameter.split, Parameter.transport, hf.clear]

theorem Parameter.nameEvent_transport (text : β) :
    Parameter.nameEvent (f text) (position + k) =
      (Parameter.nameEvent text position).shift k := by
  unfold Parameter.nameEvent
  rw [hf.isEmpty, hf.text]
  split <;> rfl

theorem Parameter.optionalName_transport (text : β) :
    Parameter.optionalName (f text) = (Parameter.optionalName text).map (Event.shift k) := by
  unfold Parameter.optionalName
  rw [hf.isEmpty, hf.text]
  split <;> rfl

/-- What a step of a transported parameter expansion has to give. -/
def Parameter.transported (f : β → γ) (k : Nat) (result : Option (Parameter β) × List Event) :
    Option (Parameter γ) × List Event :=
  (result.1.map (Parameter.transport f k), result.2.map (Event.shift k))

theorem Parameter.read_transport (p : Parameter β) :
    (p.transport f k).read (position + k) c =
      Parameter.transported f k (p.read position c) := by
  have hText : (p.transport f k).text = f p.text := rfl
  have hOperator : (p.transport f k).hasOperator = p.hasOperator := rfl
  simp only [Parameter.read, hText, hOperator, hf.text, Parameter.push_transport hf,
    Parameter.split_transport hf, Parameter.nameEvent_transport hf,
    Parameter.optionalName_transport hf k]
  split
  · rfl
  · split
    · rfl
    · split
      · rfl
      · split
        · rfl
        · split
          · rfl
          · split
            · simp [Parameter.transported]
            · rfl

theorem Parameter.step_transport (p : Parameter β) :
    (p.transport f k).step (position + k) c =
      Parameter.transported f k (p.step position c) := by
  have hPhase : (p.transport f k).phase = p.phase := rfl
  have hText : { p.transport f k with phase := .text } = { p with phase := .text }.transport f k :=
    rfl
  unfold Parameter.step
  rw [hPhase]
  cases p.phase with
  | text => exact Parameter.read_transport hf k position c p
  | backslash =>
    simp only [Parameter.push_transport hf, Parameter.read_transport hf]
    split <;> rfl
  | colon =>
    simp only [hText, Parameter.read_transport hf]
    split <;> rfl
  | trim o =>
    simp only [hText, Parameter.read_transport hf]
    split <;> rfl

/-! ## Inside double quotes -/

theorem Quoted.pushText_transport (q : Quoted β) :
    (q.transport f k).pushText c = (q.pushText c).transport f k := by
  simp only [Quoted.pushText, Quoted.transport, hf.push, Inner.transport]

/-- What a step that stays inside double quotes has to give. -/
def Quoted.transported (f : β → γ) (k : Nat) (result : Quoted β × List Event) :
    Quoted γ × List Event :=
  (result.1.transport f k, result.2.map (Event.shift k))

omit [TextBuffer β] [TextBuffer γ] hf in
theorem Quoted.dollar_transport (q : Quoted β) :
    (q.transport f k).dollar limit (position + k) =
      Quoted.transported f k (q.dollar limit position) := by
  simp only [Quoted.dollar, Quoted.transport, List.length_map]
  split <;> rfl

theorem Quoted.readText_transport (q : Quoted β) :
    (q.transport f k).readText limit (position + k) c =
      Scan.transported f k (q.readText limit position c) := by
  have hText : (q.transport f k).text = f q.text := rfl
  have hClear : { q.transport f k with text := TextBuffer.clear (f q.text) } =
      { q with text := TextBuffer.clear q.text }.transport f k := by
    simp only [Quoted.transport, hf.clear]
  simp only [Quoted.readText, hText, hClear, hf.text, hf.isEmpty, Quoted.dollar_transport,
    Quoted.pushText_transport hf]
  split
  · split <;> rfl
  · split
    · rfl
    · split <;> rfl

theorem Quoted.readCommand_transport (command : Command) (outer : List Command) (q : Quoted β) :
    (q.transport f k).readCommand limit (position + k) c (command.shift k)
        (outer.map (Command.shift k)) =
      Quoted.transported f k (q.readCommand limit position c command outer) := by
  simp only [Quoted.readCommand, Quoted.dollar_transport]
  split
  · rfl
  · split
    · rfl
    · split
      · obtain ⟨start, nested⟩ := command
        cases nested <;> rfl
      · split
        · rw [oneChar_hom hf c]
          rfl
        · rfl

theorem Quoted.enter_transport (q : Quoted β) :
    (q.transport f k).enter limit (position + k) c =
      Scan.transported f k (q.enter limit position c) := by
  have hCommands : (q.transport f k).commands = q.commands.map (Command.shift k) := rfl
  unfold Quoted.enter
  rw [hCommands]
  cases hq : q.commands with
  | nil => exact Quoted.readText_transport hf k position c limit q
  | cons command outer =>
    simp only [List.map_cons, Quoted.readCommand_transport hf]
    rfl

theorem Quoted.enterAfter_transport (es : List Event) (q : Quoted β) :
    (q.transport f k).enterAfter (es.map (Event.shift k)) limit (position + k) c =
      Scan.transported f k (q.enterAfter es limit position c) := by
  simp only [Quoted.enterAfter, Quoted.enter_transport hf, Scan.transported, List.map_append]

theorem Quoted.afterDollar_transport (start : Nat) (q : Quoted β) :
    (q.transport f k).afterDollar limit (position + k) c (start + k) =
      Scan.transported f k (q.afterDollar limit position c start) := by
  simp only [Quoted.afterDollar, ← hf.withCapacity]
  split
  · rfl
  · split
    · rfl
    · split
      · rw [oneChar_hom hf c]
        rfl
      · exact Quoted.enterAfter_transport hf k position c limit
          [.fault (.invalidExpansion c) start] q

theorem Quoted.afterBackslash_transport (q : Quoted β) :
    (q.transport f k).afterBackslash c = (q.afterBackslash c).transport f k := by
  simp only [Quoted.afterBackslash, Quoted.pushText_transport hf]
  split
  · rfl
  · split <;> rfl

theorem Quoted.step_transport (q : Quoted β) :
    (q.transport f k).step limit (position + k) c =
      Scan.transported f k (q.step limit position c) := by
  obtain ⟨start, text, commands, inner⟩ := q
  let q : Quoted β := ⟨start, text, commands, .nothing⟩
  cases inner with
  | nothing => exact Quoted.enter_transport hf k position c limit q
  | backslash =>
    have hAfter := Quoted.afterBackslash_transport hf k c q
    exact congrArg (fun q => (State.quoted q, [])) hAfter
  | dollar dollarStart => exact Quoted.afterDollar_transport hf k position c limit dollarStart q
  | word name =>
    simp only [Quoted.transport, Inner.transport, Quoted.step, wordToken_hom hf, ← hf.push]
    split
    · rfl
    · exact Quoted.enterAfter_transport hf k position c limit [.token (wordToken name)] q
  | parameter p =>
    simp only [Quoted.transport, Inner.transport, Quoted.step, Parameter.step_transport hf]
    rcases p.step position c with ⟨_ | p, es⟩ <;> rfl

theorem Quoted.finish_transport (q : Quoted β) :
    (q.transport f k).finish = q.finish.map (Event.shift k) := by
  obtain ⟨start, text, commands, inner⟩ := q
  cases inner <;>
    simp [Quoted.transport, Inner.transport, Quoted.finish, wordToken_hom hf, Command.shift,
      Parameter.transport, Function.comp_def]

/-! ## Whole scans -/

theorem State.step_transport (s : State β) :
    (s.transport f k).step limit (position + k) c =
      transported f k (s.step limit position c) := by
  cases s with
  | plain p => exact Plain.step_transport hf k position c p
  | quoted q => exact Quoted.step_transport hf k position c limit q

theorem State.finish_transport (s : State β) :
    (s.transport f k).finish = s.finish.map (Event.shift k) := by
  cases s with
  | plain p => exact Plain.finish_transport hf k p
  | quoted q => exact Quoted.finish_transport hf k q

theorem Config.step_transport (config : Config β) :
    (config.transport f k).step limit c =
      ((config.step limit c).1.transport f k, (config.step limit c).2.map (Event.shift k)) := by
  simp only [Config.step, Config.transport, State.step_transport hf, transported,
    Nat.add_right_comm]

/-- **A scan from a transported configuration** finds the same events, `k` further on. -/
theorem eventsFrom_transport (config : Config β) (cs : List Char) :
    eventsFrom limit (config.transport f k) cs =
      (eventsFrom limit config cs).map (Event.shift k) := by
  induction cs generalizing config with
  | nil => exact State.finish_transport hf k config.state
  | cons c cs ih =>
    simp only [eventsFrom, Config.step_transport hf, ih, List.map_append]

/-- Buffers that read the same give the same events. -/
theorem events_of_hom (text : String) : events γ limit text = events β limit text := by
  have h := eventsFrom_transport hf 0 limit (Config.initial : Config β) text.toList
  rw [List.map_congr_left fun e _ => Event.shift_zero e, List.map_id'] at h
  exact h

omit hf in
/-- A scan that starts at another position finds the same events there. -/
theorem eventsFrom_shift (state : State β) (position : Nat) (cs : List Char) :
    eventsFrom limit ⟨position + k, state.transport id k⟩ cs =
      (eventsFrom limit ⟨position, state⟩ cs).map (Event.shift k) :=
  eventsFrom_transport TextBuffer.isHom_id k limit ⟨position, state⟩ cs

end Scan

end ShellLexer
