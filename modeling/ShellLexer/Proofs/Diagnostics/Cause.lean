import ShellLexer.Proofs.Diagnostics.Order
import ShellLexer.Proofs.Reconstruct.Account
import Mathlib.Data.Bool.AllAny

/-!
# What a diagnostic points at

Every kind of fault has its place in the text: the character itself, the quote
or the bracket of the construct that is open, the dollar in front
(`Fault.CausedAt`).  Positions are taken when a construct begins and reported
much later, so the induction carries what stands in the text where each pending
construct starts (`State.Founded`), and for single quotes and parameter
expansions that nothing has closed them since.

* `State.Steps.grounded`: a step keeps that, and what it reports has its cause.
* `causedAt_of_mem_diagnostics`: every diagnostic points at its cause.
-/

namespace ShellLexer

open Scan

/-- At `n` stands a bracket with a dollar in front of it. -/
def Expands (cs : List Char) (bracket : Char) (n : Nat) : Prop :=
  ∃ m, n = m + 1 ∧ cs[m]? = some '$' ∧ cs[m + 1]? = some bracket

/-- What stands in a text where a fault is reported. -/
def Fault.CausedAt (cs : List Char) (n : Nat) : Fault → Prop
  | unexpectedChar c =>
    cs[n]? = some c ∧ ¬ isWhitespace c ∧ ¬ isNameChar c ∧ ¬ isShellPunctuation c
  | unhandledPunctuation c => cs[n]? = some c ∧ c ∈ [':', '@', '^', ',', '.']
  | unhandledInCommand c => cs[n]? = some c ∧ ¬ isNameChar c ∧ c ∉ ['$', '(', ')']
  | unclosedSingleQuote => cs[n]? = some '\'' ∧ '\'' ∉ cs.drop (n + 1)
  | unclosedDoubleQuote => cs[n]? = some '"'
  | unclosedCommand => Expands cs '(' n
  | unclosedParameter => Expands cs '{' n ∧ '}' ∉ cs.drop (n + 1)
  | nestedTooDeeply => cs[n]? = some '$'
  | missingParameter => ∃ m c, n = m + 1 ∧ Expands cs '{' m ∧ cs[n]? = some c ∧
      c ∈ [':', '+', '-', '=', '?']
  | invalidExpansion c => cs[n]? = some '$' ∧ cs[n + 1]? = some c ∧ ¬ isLetter c ∧
      c ∉ ['_', '(', '{']
  | endAfterDollar => cs[n]? = some '$' ∧ n + 1 = cs.length

/-! ## Texts that grow -/

section Append

variable {cs : List Char} {n : Nat} {c : Char}

theorem getElem?_append_some {d : Char} (h : cs[n]? = some d) (ds : List Char) :
    (cs ++ ds)[n]? = some d := by
  rw [List.getElem?_append_left (List.getElem?_eq_some_iff.mp h).1, h]

theorem Expands.append {bracket : Char} (h : Expands cs bracket n) (ds : List Char) :
    Expands (cs ++ ds) bracket n := by
  obtain ⟨m, rfl, hDollar, hBracket⟩ := h
  exact ⟨m, rfl, getElem?_append_some hDollar ds, getElem?_append_some hBracket ds⟩

theorem Expands.lt_length {bracket : Char} (h : Expands cs bracket n) : n < cs.length := by
  obtain ⟨m, rfl, -, hBracket⟩ := h
  exact (List.getElem?_eq_some_iff.mp hBracket).1

/-- The bracket behind a dollar at the end of what is read. -/
theorem Expands.concat (hLast : n + 1 = cs.length) (hDollar : cs[n]? = some '$') (bracket : Char) :
    Expands (cs ++ [bracket]) bracket cs.length := by
  refine ⟨n, hLast.symm, getElem?_append_some hDollar _, ?_⟩
  rw [hLast]
  exact List.getElem?_concat_length

theorem not_mem_drop_concat {d : Char} (h : d ∉ cs.drop (n + 1)) (hLt : n < cs.length)
    (hc : c ≠ d) : d ∉ (cs ++ [c]).drop (n + 1) := by
  rw [List.drop_append_of_le_length hLt]
  intro hMem
  rcases List.mem_append.mp hMem with hMem | hMem
  · exact h hMem
  · exact hc (List.mem_singleton.mp hMem).symm

theorem succ_length_eq (cs : List Char) (c : Char) : cs.length + 1 = (cs ++ [c]).length := by
  rw [List.length_append, List.length_singleton]

theorem not_mem_drop_length (c d : Char) : d ∉ (cs ++ [c]).drop (cs.length + 1) := by
  rw [succ_length_eq cs c, List.drop_length]
  exact List.not_mem_nil

/-- A cause stays where it is, unless the fault is about the end of the text. -/
theorem Fault.CausedAt.append {f : Fault} (h : f.CausedAt cs n) (hEarly : f.atEnd = false)
    (ds : List Char) : f.CausedAt (cs ++ ds) n := by
  cases f with
  | unexpectedChar | unhandledPunctuation | unhandledInCommand =>
    exact ⟨getElem?_append_some h.1 ds, h.2⟩
  | nestedTooDeeply => exact getElem?_append_some h ds
  | invalidExpansion =>
    exact ⟨getElem?_append_some h.1 ds, getElem?_append_some h.2.1 ds, h.2.2⟩
  | missingParameter =>
    obtain ⟨m, c, hPosition, hExpands, hChar, hMem⟩ := h
    exact ⟨m, c, hPosition, hExpands.append ds, getElem?_append_some hChar ds, hMem⟩
  | unclosedSingleQuote | unclosedDoubleQuote | unclosedCommand | unclosedParameter
  | endAfterDollar => cases hEarly

theorem Fault.CausedAt.lt_length {f : Fault} (h : f.CausedAt cs n) : n < cs.length := by
  have hLt : ∀ {d}, cs[n]? = some d → n < cs.length := fun hChar =>
    (List.getElem?_eq_some_iff.mp hChar).1
  cases f with
  | unexpectedChar | unhandledPunctuation | unhandledInCommand | unclosedSingleQuote
  | invalidExpansion | endAfterDollar => exact hLt h.1
  | unclosedDoubleQuote | nestedTooDeeply => exact hLt h
  | unclosedCommand => exact Expands.lt_length h
  | unclosedParameter => exact Expands.lt_length h.1
  | missingParameter =>
    obtain ⟨m, c, -, -, hChar, -⟩ := h
    exact hLt hChar

end Append

namespace Scan

/-! ## What a scan knows of its text -/

def Event.Caused (cs : List Char) : Event → Prop
  | token _ => True
  | diagnostic d => d.fault.CausedAt cs d.position

/-- What is reported has its cause in the text. -/
def AllCaused (cs : List Char) (es : List Event) : Prop := ∀ e ∈ es, e.Caused cs

def Plain.Founded (cs : List Char) : Plain (List Char) → Prop
  | operator start first => cs[start]? = some first ∧ isShellPunctuation first ∧ first ≠ '\'' ∧
      first ≠ '"'
  | singleQuoted start _ => cs[start]? = some '\'' ∧ '\'' ∉ cs.drop (start + 1)
  | nothing | blanks _ | word _ | doubleLess => True

def Inner.Founded (cs : List Char) : Inner (List Char) → Prop
  | dollar start => cs[start]? = some '$' ∧ start + 1 = cs.length
  | parameter p => Expands cs '{' p.start ∧ '}' ∉ cs.drop (p.start + 1) ∧
      (p.Fresh ∧ p.start + 1 = cs.length ∨ p.Named)
  | nothing | backslash | word _ => True

structure Quoted.Founded (cs : List Char) (q : Quoted (List Char)) : Prop where
  quote : cs[q.start]? = some '"'
  commands : ∀ command ∈ q.commands, Expands cs '(' command.start
  inner : q.inner.Founded cs

/-- The constructs that are pending behind the characters `cs` start where they should. -/
def State.Founded (cs : List Char) : State (List Char) → Prop
  | .plain p => p.Founded cs
  | .quoted q => q.Founded cs

section Steps

variable {limit : Option Nat} {cs text : List Char} {start : Nat} {commands : List Command}
variable {c : Char} {s s' : State (List Char)} {es fs : List Event}

theorem AllCaused.nil : AllCaused cs [] := fun _ h => absurd h List.not_mem_nil

theorem AllCaused.token {t : Token} (h : AllCaused cs es) : AllCaused cs (.token t :: es) :=
  List.forall_mem_cons.mpr ⟨trivial, h⟩

theorem AllCaused.fault {f : Fault} {n : Nat} (hCause : f.CausedAt cs n) (h : AllCaused cs es) :
    AllCaused cs (.fault f n :: es) := List.forall_mem_cons.mpr ⟨hCause, h⟩

theorem AllCaused.append (h : AllCaused cs es) (g : AllCaused cs fs) : AllCaused cs (es ++ fs) :=
  List.forall_mem_append.mpr ⟨h, g⟩

theorem Clean.allCaused (h : Clean es) : AllCaused cs es := by
  intro e he
  cases e with
  | token => trivial
  | diagnostic => cases h _ he

/-- What is reported before the end of a text keeps its cause. -/
theorem AllCaused.grow (h : AllCaused cs es) (hEarly : BeforeEnd es) (ds : List Char) :
    AllCaused (cs ++ ds) es := by
  intro e he
  have hCause := h e he
  have hNotEnd := hEarly e he
  cases e with
  | token => trivial
  | diagnostic d => exact Fault.CausedAt.append hCause hNotEnd ds

/-- What a step leaves pending starts where it should, and what it reports has its cause. -/
structure Grounded (cs : List Char) (s : State (List Char)) (es : List Event) : Prop where
  founded : s.Founded cs
  caused : AllCaused cs es

theorem Grounded.after (hFront : AllCaused cs fs) (h : Grounded cs s es) :
    Grounded cs s (fs ++ es) := ⟨h.founded, hFront.append h.caused⟩

theorem getElem?_concat (cs : List Char) (c : Char) : (cs ++ [c])[cs.length]? = some c :=
  List.getElem?_concat_length

/-! ### Outside double quotes -/

theorem Plain.Enters.grounded (h : Plain.Enters cs.length c s es) :
    Grounded (cs ++ [c]) s es := by
  have hChar := getElem?_concat cs c
  cases h with
  | newline => exact ⟨trivial, .token .nil⟩
  | blank | name => exact ⟨trivial, .nil⟩
  | singleQuote => exact ⟨⟨hChar, not_mem_drop_length '\'' '\''⟩, .nil⟩
  | doubleQuote => exact ⟨⟨hChar, nofun, trivial⟩, .token .nil⟩
  | operator _ _ hPunctuation hSingle hDouble =>
    exact ⟨⟨hChar, hPunctuation, hSingle, hDouble⟩, .nil⟩
  | unexpected hWhite hName hPunctuation =>
    exact ⟨trivial, .fault ⟨hChar, hWhite, hName, hPunctuation⟩ .nil⟩

/-- Punctuation that is neither a quote nor an operator. -/
theorem mem_of_ofChar?_eq_none (hPunctuation : isShellPunctuation c) (hSingle : c ≠ '\'')
    (hDouble : c ≠ '"') (hNone : Punctuation.ofChar? c = none) :
    c ∈ [':', '@', '^', ',', '.'] := by
  have hAll : ∀ d ∈ shellPunctuation.toList, d ≠ '\'' → d ≠ '"' →
      Punctuation.ofChar? d = none → d ∈ [':', '@', '^', ',', '.'] :=
    List.all_iff_forall_prop.mp (by decide)
  exact hAll c (by simpa [isShellPunctuation, isOneOf] using hPunctuation) hSingle hDouble hNone

theorem Plain.Founded.finish {p : Plain (List Char)} (h : p.Founded cs) :
    AllCaused cs p.finish := by
  cases p with
  | nothing => exact .nil
  | blanks | word | doubleLess => exact .token .nil
  | operator start first =>
    obtain ⟨hChar, hPunctuation, hSingle, hDouble⟩ := h
    show AllCaused cs [singleEvent start first]
    unfold singleEvent
    split
    · exact .token .nil
    · rename_i hNone
      exact .fault ⟨hChar, mem_of_ofChar?_eq_none hPunctuation hSingle hDouble hNone⟩ .nil
  | singleQuoted => exact .fault h .nil

theorem Plain.Steps.grounded {p : Plain (List Char)} (h : Plain.Steps cs.length p c s es)
    (hFounded : p.Founded cs) : Grounded (cs ++ [c]) s es := by
  cases h with
  | ended hEnds hEnters =>
    have hFinish := hFounded.finish.grow (Plain.finish_beforeEnd hEnds.not_singleQuoted) [c]
    exact hEnters.grounded.after hFinish
  | blank | name | doubleLess => exact ⟨trivial, .nil⟩
  | pair | doubleLessDash | closingQuote => exact ⟨trivial, .token .nil⟩
  | quotedChar hOther =>
    obtain ⟨hQuote, hOpen⟩ := hFounded
    have hLt := (List.getElem?_eq_some_iff.mp hQuote).1
    exact ⟨⟨getElem?_append_some hQuote _, not_mem_drop_concat hOpen hLt hOther⟩, .nil⟩

/-! ### Inside a parameter expansion -/

theorem Parameter.Reads.isToken_or {p : Parameter (List Char)}
    {next : Option (Parameter (List Char))} {position : Nat}
    (h : Parameter.Reads position p c next es) :
    ∀ e ∈ es, e.isToken ∨ e = .fault .missingParameter position := by
  have hName : ∀ o : Punctuation, ∀ e ∈ [nameEvent p.text position, .punctuation o],
      e.isToken ∨ e = .fault .missingParameter position := by
    intro o e he
    rcases List.mem_cons.mp he with rfl | he
    · unfold nameEvent
      split
      · exact Or.inr rfl
      · exact Or.inl rfl
    · obtain rfl := List.mem_singleton.mp he
      exact Or.inl rfl
  cases h with
  | colon | choice => exact hName _
  | close => exact fun e he => Or.inl ((Clean.cons rfl (.one rfl)) e he)
  | backslash | collect => exact nofun
  | trim =>
    exact fun e he => Or.inl (clean_append.mpr ⟨clean_optionalName p.text, .one rfl⟩ e he)

/-- Only a missing name is reported, at the character that is read. -/
theorem Parameter.Steps.isToken_or {p : Parameter (List Char)}
    {next : Option (Parameter (List Char))} {position : Nat}
    (h : Parameter.Steps position p c next es) :
    ∀ e ∈ es, e.isToken ∨ e = .fault .missingParameter position := by
  cases h with
  | read hReads => exact hReads.isToken_or
  | escaped => exact nofun
  | afterColon | twice =>
    intro e he
    obtain rfl := List.mem_singleton.mp he
    exact Or.inl rfl

/-- The name is missing right behind the brace. -/
theorem Parameter.Steps.allCaused {p : Parameter (List Char)}
    {next : Option (Parameter (List Char))} (h : Parameter.Steps cs.length p c next es)
    (hFounded : Inner.Founded cs (.parameter p)) : AllCaused (cs ++ [c]) es := by
  obtain ⟨hExpands, -, hFresh | hNamed⟩ := hFounded
  · by_cases hc : c ∈ Grammar.namedOperators
    · intro e he
      rcases h.isToken_or e he with hToken | rfl
      · cases e with
        | token => trivial
        | diagnostic => cases hToken
      · exact ⟨p.start, c, hFresh.2.symm, hExpands.append [c], getElem?_concat cs c, hc⟩
    · exact (h.clean (Or.inr hc)).allCaused
  · exact (h.clean (Or.inl hNamed)).allCaused

/-! ### Inside double quotes -/

variable (hQuote : cs[start]? = some '"')
  (hCommands : ∀ command ∈ commands, Expands cs '(' command.start)
include hQuote hCommands

/-- The quote and the command substitutions stay where they are. -/
theorem Quoted.founded_append {text' : List Char} {inner : Inner (List Char)}
    (hInner : inner.Founded (cs ++ [c])) :
    State.Founded (cs ++ [c]) (.quoted ⟨start, text', commands, inner⟩) :=
  ⟨getElem?_append_some hQuote _, fun command hMem => (hCommands command hMem).append _, hInner⟩

theorem Quoted.Dollars.grounded {depth : Nat} {inner : Inner (List Char)} {text' : List Char}
    (h : Quoted.Dollars limit cs.length depth inner es) :
    Grounded (cs ++ ['$']) (.quoted ⟨start, text', commands, inner⟩) es := by
  have hDollar := getElem?_concat cs '$'
  cases h with
  | opens =>
    exact ⟨founded_append hQuote hCommands ⟨hDollar, succ_length_eq cs '$'⟩, .token .nil⟩
  | deep => exact ⟨founded_append hQuote hCommands trivial, .token (.fault hDollar .nil)⟩

theorem Quoted.Enters.grounded (h : Quoted.Enters limit cs.length start text commands c s es) :
    Grounded (cs ++ [c]) s es := by
  have hSame : ∀ text', State.Founded (cs ++ [c]) (.quoted ⟨start, text', commands, .nothing⟩) :=
    fun _ => founded_append hQuote hCommands trivial
  cases h with
  | close =>
    refine ⟨trivial, AllCaused.append ?_ (.token .nil)⟩
    unfold lastSegment
    split
    · exact .nil
    · exact .token .nil
  | backslash => exact ⟨founded_append hQuote hCommands trivial, .nil⟩
  | literal => exact ⟨hSame _, .nil⟩
  | textDollar hDollars =>
    have hGrounded : Grounded (cs ++ ['$']) (.quoted ⟨start, [], [], _⟩) _ :=
      hDollars.grounded hQuote hCommands
    exact ⟨hGrounded.founded, .token hGrounded.caused⟩
  | commandDollar hDollars => exact hDollars.grounded hQuote hCommands
  | openParen | closeParen =>
    refine ⟨founded_append hQuote ?_ trivial, .token .nil⟩
    exact List.forall_mem_cons.mpr (List.forall_mem_cons.mp hCommands)
  | closeCommand =>
    exact ⟨founded_append hQuote (List.forall_mem_cons.mp hCommands).2 trivial, .token .nil⟩
  | name => exact ⟨founded_append hQuote hCommands trivial, .nil⟩
  | unhandled hDollar hOpen hClose hName =>
    refine ⟨hSame _, .fault ⟨getElem?_concat cs c, hName, ?_⟩ .nil⟩
    simp [hDollar, hOpen, hClose]

omit hQuote hCommands

theorem Quoted.Steps.grounded {inner : Inner (List Char)}
    (h : Quoted.Steps limit cs.length start text commands inner c s es)
    (hFounded : Quoted.Founded cs ⟨start, text, commands, inner⟩) : Grounded (cs ++ [c]) s es := by
  obtain ⟨hQuote, hCommands, hInner⟩ := hFounded
  have hSame : ∀ text', State.Founded (cs ++ [c]) (.quoted ⟨start, text', commands, .nothing⟩) :=
    fun _ => founded_append hQuote hCommands trivial
  cases h with
  | enter hEnters => exact hEnters.grounded hQuote hCommands
  | escaped | continued | unescaped => exact ⟨hSame _, .nil⟩
  | openCommand =>
    obtain ⟨hDollar, hLast⟩ := hInner
    refine ⟨⟨getElem?_append_some hQuote _, ?_, trivial⟩, .token .nil⟩
    refine List.forall_mem_cons.mpr ⟨.concat hLast hDollar '(', ?_⟩
    exact fun command hMem => (hCommands command hMem).append _
  | openParameter =>
    obtain ⟨hDollar, hLast⟩ := hInner
    refine ⟨founded_append hQuote hCommands ⟨.concat hLast hDollar '{', ?_, ?_⟩, .token .nil⟩
    · exact not_mem_drop_length '{' '}'
    · exact Or.inl ⟨⟨rfl, rfl, rfl⟩, succ_length_eq cs '{'⟩
  | dollarName => exact ⟨founded_append hQuote hCommands trivial, .nil⟩
  | invalid hParen hBrace hName hEnters =>
    obtain ⟨hDollar, hLast⟩ := hInner
    have hGrounded := hEnters.grounded hQuote hCommands
    have hChar := getElem?_concat cs c
    rw [← hLast] at hChar
    obtain ⟨hLetter, hUnderscore⟩ : ¬ isLetter c ∧ c ≠ '_' := by
      simpa [isNameStart] using hName
    refine ⟨hGrounded.founded, .fault ⟨getElem?_append_some hDollar _, hChar, hLetter, ?_⟩
      hGrounded.caused⟩
    simp [hUnderscore, hParen, hBrace]
  | name => exact ⟨founded_append hQuote hCommands trivial, .nil⟩
  | nameEnd _ hEnters =>
    have hGrounded := hEnters.grounded hQuote hCommands
    exact ⟨hGrounded.founded, .token hGrounded.caused⟩
  | parameter hSteps =>
    refine ⟨founded_append hQuote hCommands ?_, hSteps.allCaused hInner⟩
    obtain ⟨hExpands, hOpen, hNamed⟩ := hInner
    show Expands _ _ _ ∧ _ ∉ List.drop _ _ ∧ _
    rw [hSteps.start_eq]
    refine ⟨hExpands.append [c], ?_, Or.inr (hSteps.named (hNamed.imp_left And.left))⟩
    exact not_mem_drop_concat hOpen hExpands.lt_length hSteps.ne_brace
  | parameterEnd hSteps => exact ⟨hSame _, hSteps.allCaused hInner⟩

/-- **A step keeps every construct where it starts**, and what it reports has its cause. -/
theorem State.Steps.grounded (h : State.Steps limit cs.length s c s' es)
    (hFounded : s.Founded cs) : Grounded (cs ++ [c]) s' es := by
  cases h with
  | plain hStep => exact hStep.grounded hFounded
  | quoted hStep => exact hStep.grounded hFounded

/-! ### Whole texts -/

theorem Inner.Founded.finish {inner : Inner (List Char)} (h : inner.Founded cs) :
    AllCaused cs inner.finish := by
  cases inner with
  | nothing | backslash => exact .nil
  | word => exact .token .nil
  | dollar => exact .fault h .nil
  | parameter => exact .fault ⟨h.1, h.2.1⟩ .nil

theorem Quoted.Founded.unclosed {q : Quoted (List Char)} (h : q.Founded cs) :
    AllCaused cs q.unclosed := by
  refine AllCaused.append ?_ (.fault h.quote .nil)
  intro e he
  obtain ⟨command, hMem, rfl⟩ := List.mem_map.mp he
  exact h.commands command hMem

theorem State.Founded.finish (h : s.Founded cs) : AllCaused cs s.finish := by
  cases s with
  | plain p => exact Plain.Founded.finish h
  | quoted q =>
    show AllCaused cs q.finish
    rw [q.finish_eq]
    exact (Quoted.Founded.inner h).finish.append (Quoted.Founded.unclosed h)

/-- Behind the characters `cs`, whatever is pending starts where it should and whatever was
reported has its cause. -/
structure GroundedBehind (cs : List Char) (now : Config (List Char)) (es : List Event) : Prop where
  position : now.position = cs.length
  founded : now.state.Founded cs
  caused : AllCaused cs es
  early : BeforeEnd es

theorem GroundedBehind.initial : GroundedBehind [] Config.initial [] := ⟨rfl, trivial, .nil, .nil⟩

theorem GroundedBehind.step {now : Config (List Char)} (h : GroundedBehind cs now es) (c : Char) :
    GroundedBehind (cs ++ [c]) (now.step limit c).1 (es ++ (now.step limit c).2) := by
  obtain ⟨position, s⟩ := now
  obtain ⟨hPosition, hFounded, hCaused, hEarly⟩ := h
  obtain rfl : position = cs.length := hPosition
  have hStep := s.steps limit cs.length c
  have hGrounded := hStep.grounded hFounded
  exact ⟨succ_length_eq cs c, hGrounded.founded, (hCaused.grow hEarly [c]).append hGrounded.caused,
    hEarly.append hStep.beforeEnd⟩

/-- **Everything found in a text has its cause in it.** -/
theorem allCaused_eventsFrom (limit : Option Nat) (cs : List Char) :
    AllCaused cs (eventsFrom limit (Config.initial : Config (List Char)) cs) := by
  have hAll : GroundedBehind cs (Config.after limit (Config.initial : Config (List Char)) cs)
      (Config.found limit (Config.initial : Config (List Char)) cs) :=
    Config.after_found_induction (P := GroundedBehind) .initial (fun c h => h.step c) cs
  rw [eventsFrom_eq_found_append_finish]
  exact hAll.caused.append hAll.founded.finish

end Steps

end Scan

/-- What is reported of a text has its cause where it is reported. -/
theorem causedAt_of_mem_tokenize {text : String} {d : Diagnostic}
    (hd : d ∈ (tokenize text).diagnostics) : d.fault.CausedAt text.toList d.position := by
  rw [mem_diagnostics_tokenize, events_eq] at hd
  exact allCaused_eventsFrom _ text.toList _ hd

/-- **Every diagnostic points at its cause**, which is a character of the text. -/
theorem causedAt_of_mem_diagnostics (text : String) :
    ∀ d ∈ (tokenize text).diagnostics,
      d.position < text.length ∧ d.fault.CausedAt text.toList d.position := by
  intro d hd
  have hCause := causedAt_of_mem_tokenize hd
  rw [← String.length_toList]
  exact ⟨hCause.lt_length, hCause⟩

/-- A missing name in an expansion that is left open, inside a command substitution with a fault
of its own. -/
theorem causedAt_missingParameter :
    ⟨.missingParameter, 7⟩ ∈ (tokenize "a\"$(@$\x7b:'").diagnostics ∧
      7 < "a\"$(@$\x7b:'".length ∧ Fault.missingParameter.CausedAt "a\"$(@$\x7b:'".toList 7 := by
  have hMem : ⟨.missingParameter, 7⟩ ∈ (tokenize "a\"$(@$\x7b:'").diagnostics := by decide
  exact ⟨hMem, causedAt_of_mem_diagnostics _ _ hMem⟩

end ShellLexer
