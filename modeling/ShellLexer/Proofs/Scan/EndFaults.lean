import ShellLexer.Proofs.Scan.Reading
import ShellLexer.Proofs.Scan.Transition

/-!
# Faults that only the end of a text shows

Quotes and expansions left open, and a `$` with nothing after it, are reported
when the text ends (`Quoted.finish_eq`) and not before (`found_beforeEnd`).
-/

namespace ShellLexer

/-- The faults that a scan reports at the end of the text. -/
def Fault.atEnd : Fault → Bool
  | unclosedSingleQuote | unclosedDoubleQuote | unclosedCommand | unclosedParameter
  | endAfterDollar => true
  | _ => false

namespace Scan

variable {β : Type} [TextBuffer β]

def Event.atEnd : Event → Bool
  | token _ => false
  | diagnostic d => d.fault.atEnd

/-- None of the events is a fault of the end of the text. -/
def BeforeEnd (es : List Event) : Prop := ∀ e ∈ es, e.atEnd = false

theorem BeforeEnd.nil : BeforeEnd [] := fun _ h => absurd h List.not_mem_nil

theorem BeforeEnd.cons {e : Event} {es : List Event} (he : e.atEnd = false) (h : BeforeEnd es) :
    BeforeEnd (e :: es) := List.forall_mem_cons.mpr ⟨he, h⟩

theorem BeforeEnd.one {e : Event} (he : e.atEnd = false) : BeforeEnd [e] := .cons he .nil

theorem BeforeEnd.append {es fs : List Event} (h : BeforeEnd es) (g : BeforeEnd fs) :
    BeforeEnd (es ++ fs) := List.forall_mem_append.mpr ⟨h, g⟩

/-! ## What the end of a text reports -/

/-- The constructs left open around what is pending, innermost first. -/
def Quoted.unclosed (q : Quoted β) : List Event :=
  q.commands.map (fun command => .fault .unclosedCommand command.start) ++
    [.fault .unclosedDoubleQuote q.start]

/-- What the end of the text adds for what is pending. -/
def Inner.finish : Inner β → List Event
  | nothing | backslash => []
  | dollar start => [.fault .endAfterDollar start]
  | word name => [.token (wordToken name)]
  | parameter p => [.fault .unclosedParameter p.start]

theorem Quoted.finish_eq (q : Quoted β) : q.finish = q.inner.finish ++ q.unclosed := by
  obtain ⟨start, text, commands, inner⟩ := q
  cases inner <;> exact List.append_assoc _ _ _

/-! ## What is found before it -/

theorem singleEvent_atEnd (start : Nat) (c : Char) : (singleEvent start c).atEnd = false := by
  unfold singleEvent
  split <;> rfl

section Steps

variable {limit : Option Nat} {position start : Nat} {text : List Char} {commands : List Command}
variable {c : Char} {s : State (List Char)} {es : List Event}

theorem Plain.Enters.beforeEnd (h : Plain.Enters position c s es) : BeforeEnd es := by
  cases h with
  | blank | name | singleQuote | operator => exact .nil
  | newline | doubleQuote | unexpected => exact .one rfl

theorem Plain.finish_beforeEnd {p : Plain (List Char)}
    (h : ∀ start text, p ≠ .singleQuoted start text) : BeforeEnd p.finish := by
  cases p with
  | nothing => exact .nil
  | blanks | word | doubleLess => exact .one rfl
  | operator start first => exact .one (singleEvent_atEnd start first)
  | singleQuoted => exact absurd rfl (h _ _)

theorem Plain.Steps.beforeEnd {p : Plain (List Char)} (h : Plain.Steps position p c s es) :
    BeforeEnd es := by
  cases h with
  | ended hEnds hEnters => exact (finish_beforeEnd hEnds.not_singleQuoted).append hEnters.beforeEnd
  | blank | name | doubleLess | quotedChar => exact .nil
  | pair | doubleLessDash | closingQuote => exact .one rfl

theorem Parameter.nameEvent_atEnd (text : List Char) :
    (nameEvent text position).atEnd = false := by
  unfold nameEvent
  split <;> rfl

theorem Parameter.optionalName_beforeEnd (text : List Char) : BeforeEnd (optionalName text) := by
  unfold optionalName
  split
  · exact .nil
  · exact .one rfl

theorem Parameter.Reads.beforeEnd {p : Parameter (List Char)}
    {next : Option (Parameter (List Char))} (h : Parameter.Reads position p c next es) :
    BeforeEnd es := by
  cases h with
  | close => exact .cons rfl (.one rfl)
  | backslash | collect => exact .nil
  | colon | choice => exact .cons (nameEvent_atEnd p.text) (.one rfl)
  | trim => exact (optionalName_beforeEnd p.text).append (.one rfl)

theorem Parameter.Steps.beforeEnd {p : Parameter (List Char)}
    {next : Option (Parameter (List Char))} (h : Parameter.Steps position p c next es) :
    BeforeEnd es := by
  cases h with
  | read hReads => exact hReads.beforeEnd
  | escaped => exact .nil
  | afterColon | twice => exact .one rfl

theorem Quoted.Dollars.beforeEnd {depth : Nat} {inner : Inner (List Char)}
    (h : Quoted.Dollars limit position depth inner es) : BeforeEnd es := by
  cases h with
  | opens => exact .one rfl
  | deep => exact .cons rfl (.one rfl)

theorem Quoted.Enters.beforeEnd (h : Quoted.Enters limit position start text commands c s es) :
    BeforeEnd es := by
  cases h with
  | close =>
    refine BeforeEnd.append ?_ (.one rfl)
    unfold lastSegment
    split
    · exact .nil
    · exact .one rfl
  | textDollar hDollars => exact .cons rfl hDollars.beforeEnd
  | commandDollar hDollars => exact hDollars.beforeEnd
  | backslash | literal | name => exact .nil
  | openParen | closeParen | closeCommand | unhandled => exact .one rfl

theorem Quoted.Steps.beforeEnd {inner : Inner (List Char)}
    (h : Quoted.Steps limit position start text commands inner c s es) : BeforeEnd es := by
  cases h with
  | enter hEnters => exact hEnters.beforeEnd
  | invalid _ _ _ hEnters => exact .cons rfl hEnters.beforeEnd
  | nameEnd _ hEnters => exact .cons rfl hEnters.beforeEnd
  | parameter hSteps => exact hSteps.beforeEnd
  | parameterEnd hSteps => exact hSteps.beforeEnd
  | escaped | continued | unescaped | dollarName | name => exact .nil
  | openCommand | openParameter => exact .one rfl

theorem State.Steps.beforeEnd {s' : State (List Char)} (h : State.Steps limit position s c s' es) :
    BeforeEnd es := by
  cases h with
  | plain hSteps => exact hSteps.beforeEnd
  | quoted hSteps => exact hSteps.beforeEnd

end Steps

/-- **Nothing is reported as unclosed before the end of the text.** -/
theorem found_beforeEnd (limit : Option Nat) (config : Config (List Char)) (cs : List Char) :
    BeforeEnd (config.found limit cs) := by
  induction cs generalizing config with
  | nil => exact .nil
  | cons c cs ih =>
    have hStep := (config.state.steps limit config.position c).beforeEnd
    exact BeforeEnd.append hStep (ih _)

end Scan

end ShellLexer
