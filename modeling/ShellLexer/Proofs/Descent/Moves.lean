import ShellLexer.Proofs.Descent.Procedure
import ShellLexer.Proofs.Scan.Clean

/-!
# A step of the descent

No procedure is called in front of a character it cannot begin with, so a step
that goes on reads at least one character, and so does a call.  A step also
keeps within the text, only adds to what has been found, and leaves the count
of open expansions as it will be restored (`Moves`).

* `Standing.moves`: that is so from every point where control can stand.
-/

namespace ShellLexer.Descent

variable {text : List Char} {limit : Option Nat}

/-! ## From one cursor to another -/

namespace Cursor

variable {c c' : Cursor}

@[simp] theorem position_emit (t : Token) : (c.emit t).position = c.position := rfl

@[simp] theorem position_report (f : Fault) (n : Nat) : (c.report f n).position = c.position := rfl

@[simp] theorem position_emitBlanks (pending : List Char) :
    (c.emitBlanks pending).position = c.position := by
  unfold emitBlanks
  split <;> rfl

@[simp] theorem position_emitNonempty (pending : List Char) :
    (c.emitNonempty pending).position = c.position := by
  unfold emitNonempty
  split <;> rfl

@[simp] theorem position_emitName (pending : List Char) :
    (c.emitName pending).position = c.position := by
  unfold emitName
  split <;> rfl

theorem position_advance {ch : Char} (h : c.current text = some ch) :
    (c.advance text).position = c.position + 1 :=
  if_pos (List.getElem?_eq_some_iff.mp h).1

theorem position_lt_of_current {ch : Char} (h : c.current text = some ch) :
    c.position < text.length := (List.getElem?_eq_some_iff.mp h).1

theorem length_le_of_current (h : c.current text = none) : text.length ≤ c.position :=
  List.getElem?_eq_none_iff.mp h

theorem current_congr (h : c'.position = c.position) : c'.current text = c.current text := by
  rw [current, current, h]

@[simp] theorem current_emitBlanks (pending : List Char) :
    (c.emitBlanks pending).current text = c.current text :=
  current_congr (position_emitBlanks pending)

@[simp] theorem current_emitNonempty (pending : List Char) :
    (c.emitNonempty pending).current text = c.current text :=
  current_congr (position_emitNonempty pending)

@[simp] theorem current_emitName (pending : List Char) :
    (c.emitName pending).current text = c.current text :=
  current_congr (position_emitName pending)

@[simp] theorem depth_emit (t : Token) : (c.emit t).depth = c.depth := rfl

@[simp] theorem depth_report (f : Fault) (n : Nat) : (c.report f n).depth = c.depth := rfl

@[simp] theorem depth_advance : (c.advance text).depth = c.depth := rfl

@[simp] theorem depth_emitBlanks (pending : List Char) :
    (c.emitBlanks pending).depth = c.depth := by
  unfold emitBlanks
  split <;> rfl

@[simp] theorem depth_emitNonempty (pending : List Char) :
    (c.emitNonempty pending).depth = c.depth := by
  unfold emitNonempty
  split <;> rfl

@[simp] theorem depth_emitName (pending : List Char) :
    (c.emitName pending).depth = c.depth := by
  unfold emitName
  split <;> rfl

end Cursor

/-- `c'` is `k` characters or more ahead of `c`, and what was found up to `c` comes first in what is
found up to `c'`. -/
structure Leads (text : List Char) (k : Nat) (c c' : Cursor) : Prop where
  position_le : c.position + k ≤ c'.position
  within : c.position ≤ text.length → c'.position ≤ text.length
  found : c.found <+: c'.found

namespace Leads

variable {j k : Nat} {c c₁ c' : Cursor}

theorem refl (c : Cursor) : Leads text 0 c c := ⟨Nat.le_refl _, id, List.prefix_rfl⟩

theorem trans (h : Leads text j c c₁) (h' : Leads text k c₁ c') : Leads text (j + k) c c' where
  position_le := by
    have hFirst := h.position_le
    have hSecond := h'.position_le
    omega
  within := h'.within ∘ h.within
  found := h.found.trans h'.found

theorem mono (h : Leads text k c c') (hLe : j ≤ k) : Leads text j c c' :=
  ⟨Nat.le_trans (Nat.add_le_add_left hLe _) h.position_le, h.within, h.found⟩

theorem any (h : Leads text k c c') : Leads text 0 c c' := h.mono (Nat.zero_le k)

/-- Without a step forward. -/
theorem of_found {es : List Scan.Event} (h : Leads text k c c₁)
    (hPosition : c'.position = c₁.position) (hFound : c'.found = c₁.found ++ es) :
    Leads text k c c' where
  position_le := hPosition ▸ h.position_le
  within := hPosition ▸ h.within
  found := h.found.trans (hFound ▸ List.prefix_append _ _)

theorem emit (h : Leads text k c c₁) (t : Token) : Leads text k c (c₁.emit t) :=
  h.of_found rfl rfl

theorem report (h : Leads text k c c₁) (f : Fault) (n : Nat) : Leads text k c (c₁.report f n) :=
  h.of_found rfl rfl

theorem deeper (h : Leads text k c c₁) : Leads text k c c₁.deeper :=
  h.of_found rfl (List.append_nil _).symm

theorem shallower (h : Leads text k c c₁) : Leads text k c c₁.shallower :=
  h.of_found rfl (List.append_nil _).symm

theorem emitBlanks (h : Leads text k c c₁) (pending : List Char) :
    Leads text k c (c₁.emitBlanks pending) := by
  unfold Cursor.emitBlanks
  split
  · exact h
  · exact h.emit _

theorem emitNonempty (h : Leads text k c c₁) (pending : List Char) :
    Leads text k c (c₁.emitNonempty pending) := by
  unfold Cursor.emitNonempty
  split
  · exact h
  · exact h.emit _

theorem emitName (h : Leads text k c c₁) (pending : List Char) :
    Leads text k c (c₁.emitName pending) := by
  unfold Cursor.emitName
  split
  · exact h.report _ _
  · exact h.emit _

theorem advance {ch : Char} (h : Leads text k c c₁) (hCurrent : c₁.current text = some ch) :
    Leads text (k + 1) c (c₁.advance text) where
  position_le := by
    rw [Cursor.position_advance hCurrent]
    exact Nat.succ_le_succ h.position_le
  within _ := by
    rw [Cursor.position_advance hCurrent]
    exact Cursor.position_lt_of_current hCurrent
  found := h.found

end Leads

/-! ## Where control can stand -/

/-- The characters that a procedure begins with. -/
def Procedure.Starts (ch : Char) : Procedure → Prop
  | layout => isWhitespace ch
  | word => isNameChar ch
  | punctuation => isShellPunctuation ch ∧ ch ≠ '\'' ∧ ch ≠ '"'
  | singleQuotes => ch = '\''
  | doubleQuotes => ch = '"'
  | dollar => ch = '$'
  | command => ch = '('
  | parameter => ch = '{'

namespace Point

/-- How many characters at least are read before control returns from there. -/
def least : Point → Nat
  | call _ => 1
  | _ => 0

/-- How many expansions are open when control returns from there. -/
def depthBehind (depth : Nat) : Point → Nat
  | dollarEnd => depth - 1
  | _ => depth

/-- A procedure is called where it can begin. -/
def Ready (text : List Char) (c : Cursor) : Point → Prop
  | call s => ∃ ch, c.current text = some ch ∧ s.Starts ch
  | _ => True

theorem least_le_one (p : Point) : p.least ≤ 1 := by
  cases p with
  | call s => exact Nat.le_refl 1
  | _ => exact Nat.zero_le 1

end Point

/-- So many expansions may be open. -/
def Allowed (limit : Option Nat) (depth : Nat) : Prop := ∀ n ∈ limit, depth ≤ n

/-- What holds where control stands in a text whose expansions nest no deeper than `limit`. -/
structure Standing (text : List Char) (limit : Option Nat) (p : Point) (c : Cursor) : Prop where
  position_le : c.position ≤ text.length
  allowed : Allowed limit c.depth
  ready : p.Ready text c

/-- What a step from a point with a cursor may do. -/
inductive Moves (text : List Char) (limit : Option Nat) (p : Point) (c : Cursor) : Outcome → Prop
  | returns {c' : Cursor} (leads : Leads text p.least c c')
      (depth : c'.depth = p.depthBehind c.depth) : Moves text limit p c (.returns c')
  | goes {p' : Point} {c' : Cursor} (leads : Leads text 1 c c')
      (depth : p'.depthBehind c'.depth = p.depthBehind c.depth)
      (allowed : Allowed limit c'.depth) (ready : p'.Ready text c') :
      Moves text limit p c (.goes p' c')
  | calls {s : Procedure} {c₁ : Cursor} {back : Point} {ch : Char} (leads : Leads text p.least c c₁)
      (depth : back.depthBehind c₁.depth = p.depthBehind c.depth)
      (allowed : Allowed limit c₁.depth) (current : c₁.current text = some ch)
      (starts : s.Starts ch) (ready : ∀ c₂, back.Ready text c₂) :
      Moves text limit p c (.calls s c₁ back)

/-! ## One step -/

section Steps

variable {c : Cursor} {start opened : Nat} {pending : List Char} {split : Bool}

theorem moves_script (hDepth : Allowed limit c.depth) :
    Moves text limit .script c (script text c) := by
  unfold script
  cases hCurrent : c.current text with
  | none => exact .returns (.refl c) rfl
  | some ch =>
    have hCall {s : Procedure} (hStarts : s.Starts ch) :
        Moves text limit .script c (.calls s c .script) :=
      .calls (.refl c) rfl hDepth hCurrent hStarts fun _ => trivial
    dsimp only
    by_cases hWhite : isWhitespace ch
    · rw [if_pos hWhite]
      exact hCall hWhite
    rw [if_neg hWhite]
    by_cases hName : isNameChar ch
    · rw [if_pos hName]
      exact hCall hName
    rw [if_neg hName]
    by_cases hSingle : ch = '\''
    · rw [if_pos hSingle]
      exact hCall hSingle
    rw [if_neg hSingle]
    by_cases hDouble : ch = '"'
    · rw [if_pos hDouble]
      exact hCall hDouble
    rw [if_neg hDouble]
    by_cases hPunctuation : isShellPunctuation ch
    · rw [if_pos hPunctuation]
      exact hCall ⟨hPunctuation, hSingle, hDouble⟩
    · rw [if_neg hPunctuation]
      exact .goes (((Leads.refl c).report _ _).advance hCurrent) rfl hDepth trivial

theorem moves_layout (hDepth : Allowed limit c.depth) :
    Moves text limit (.layout pending) c (layout text pending c) := by
  unfold layout
  have hEnd : Moves text limit (.layout pending) c (.returns (c.emitBlanks pending)) :=
    .returns ((Leads.refl c).emitBlanks pending) (by simp [Point.depthBehind])
  cases hCurrent : c.current text with
  | none => exact hEnd
  | some ch =>
    dsimp only
    by_cases hNewline : ch = '\n'
    · rw [if_pos hNewline]
      have hCurrent' : (c.emitBlanks pending).current text = some ch := by simpa using hCurrent
      exact .goes ((((Leads.refl c).emitBlanks pending).emit _).advance hCurrent')
        (by simp [Point.depthBehind]) (by simpa using hDepth) trivial
    rw [if_neg hNewline]
    by_cases hWhite : isWhitespace ch
    · rw [if_pos hWhite]
      exact .goes ((Leads.refl c).advance hCurrent) rfl hDepth trivial
    · rw [if_neg hWhite]
      exact hEnd

theorem moves_word (hDepth : Allowed limit c.depth) :
    Moves text limit (.word pending) c (word text pending c) := by
  unfold word
  have hEnd : Moves text limit (.word pending) c
      (.returns (if pending.isEmpty then c else c.emit (Scan.wordToken pending))) := by
    split
    · exact .returns (.refl c) rfl
    · exact .returns ((Leads.refl c).emit _) rfl
  cases hCurrent : c.current text with
  | none => exact hEnd
  | some ch =>
    dsimp only
    by_cases hName : isNameChar ch
    · rw [if_pos hName]
      exact .goes ((Leads.refl c).advance hCurrent) rfl hDepth trivial
    · rw [if_neg hName]
      exact hEnd

theorem moves_punctuation {first : Char} (hCurrent : c.current text = some first) :
    Moves text limit (.call .punctuation) c (punctuation text c) := by
  have hFirst : Leads text 1 c (c.advance text) := (Leads.refl c).advance hCurrent
  simp only [punctuation, hCurrent]
  cases hPair : ((c.advance text).current text).bind (Punctuation.ofPair? first) with
  | some o =>
    obtain ⟨second, hSecond, -⟩ := Option.bind_eq_some_iff.mp hPair
    have hBehind := hFirst.advance hSecond
    dsimp only
    split
    · next hDash =>
      exact .returns (((hBehind.advance hDash.2).emit _).mono (by decide)) rfl
    · exact .returns ((hBehind.emit _).mono (by decide)) rfl
  | none =>
    dsimp only
    split
    · exact .returns (hFirst.emit _) rfl
    · exact .returns (hFirst.report _ _) rfl

theorem moves_singleQuotes (hDepth : Allowed limit c.depth) :
    Moves text limit (.singleQuotes start pending) c (singleQuotes text start pending c) := by
  unfold singleQuotes
  cases hCurrent : c.current text with
  | none => exact .returns ((Leads.refl c).report _ _) rfl
  | some ch =>
    have hNext : Leads text 1 c (c.advance text) := (Leads.refl c).advance hCurrent
    dsimp only
    split
    · exact .returns (hNext.any.emit _) rfl
    · exact .goes hNext rfl hDepth trivial

theorem moves_doubleQuotes (hDepth : Allowed limit c.depth) :
    Moves text limit (.doubleQuotes start pending) c (doubleQuotes text start pending c) := by
  unfold doubleQuotes
  cases hCurrent : c.current text with
  | none => exact .returns ((Leads.refl c).report _ _) rfl
  | some ch =>
    have hNext : Leads text 1 c (c.advance text) := (Leads.refl c).advance hCurrent
    dsimp only
    by_cases hQuote : ch = '"'
    · rw [if_pos hQuote]
      have hCurrent' : (c.emitNonempty pending).current text = some ch := by simpa using hCurrent
      exact .returns ((((Leads.refl c).emitNonempty pending).emit _).advance hCurrent').any
        (by simp [Point.depthBehind])
    rw [if_neg hQuote]
    by_cases hBackslash : ch = '\\'
    · rw [if_pos hBackslash]
      cases hBehind : (c.advance text).current text with
      | none => exact .goes hNext rfl hDepth trivial
      | some d =>
        have hTwo := (hNext.advance hBehind).mono (by decide : 1 ≤ 2)
        dsimp only
        split
        · exact .goes hTwo rfl hDepth trivial
        · split
          · exact .goes hTwo rfl hDepth trivial
          · exact .goes hNext rfl hDepth trivial
    rw [if_neg hBackslash]
    by_cases hDollar : ch = '$'
    · rw [if_pos hDollar]
      exact .calls ((Leads.refl c).emit _) rfl hDepth hCurrent hDollar fun _ => trivial
    · rw [if_neg hDollar]
      exact .goes hNext rfl hDepth trivial

/-- Where a `$` opens an expansion, one more may be open than before. -/
theorem allowed_of_not_tooDeep {depth : Nat} (hOpen : ¬ Scan.Quoted.tooDeep limit depth) :
    Allowed limit (depth + 1) := by
  rintro n rfl
  simpa [Scan.Quoted.tooDeep, Nat.succ_le_iff] using hOpen

theorem moves_dollar {ch : Char} (hCurrent : c.current text = some ch) :
    Moves text limit (.call .dollar) c (dollar text limit c) := by
  have hBehind : Leads text 1 c ((c.advance text).emit (.punctuation .dollar)) :=
    ((Leads.refl c).advance hCurrent).emit _
  unfold dollar
  dsimp only
  split
  · exact .returns (hBehind.report _ _) rfl
  next hDeep =>
  have hDepth : Allowed limit (c.depth + 1) := allowed_of_not_tooDeep hDeep
  split
  · exact .goes (hBehind.deeper.report _ _) rfl hDepth trivial
  next d hNext =>
  have hCall {s : Procedure} (hStarts : s.Starts d) : Moves text limit (.call .dollar) c
      (.calls s ((c.advance text).emit (.punctuation .dollar)).deeper .dollarEnd) :=
    .calls hBehind.deeper rfl hDepth hNext hStarts fun _ => trivial
  by_cases hParen : d = '('
  · rw [if_pos hParen]
    exact hCall hParen
  rw [if_neg hParen]
  by_cases hBrace : d = '{'
  · rw [if_pos hBrace]
    exact hCall hBrace
  rw [if_neg hBrace]
  by_cases hName : isNameStart d
  · rw [if_pos hName]
    exact hCall (isNameChar_of_isNameStart hName)
  · rw [if_neg hName]
    exact .goes (hBehind.deeper.report _ _) rfl hDepth trivial

theorem moves_command (hDepth : Allowed limit c.depth) :
    Moves text limit (.command start opened) c (command text start opened c) := by
  unfold command
  by_cases hDone : opened = 0
  · rw [if_pos hDone]
    exact .returns (.refl c) rfl
  rw [if_neg hDone]
  cases hCurrent : c.current text with
  | none => exact .returns ((Leads.refl c).report _ _) rfl
  | some ch =>
    have hCall {s : Procedure} (hStarts : s.Starts ch) :
        Moves text limit (.command start opened) c (.calls s c (.command start opened)) :=
      .calls (.refl c) rfl hDepth hCurrent hStarts fun _ => trivial
    have hNext : Leads text 1 c (c.advance text) := (Leads.refl c).advance hCurrent
    have hGo {n : Nat} {c' : Cursor} (hLeads : Leads text 1 c c') (hSame : c'.depth = c.depth) :
        Moves text limit (.command start opened) c (.goes (.command start n) c') :=
      .goes hLeads hSame (hSame ▸ hDepth) trivial
    dsimp only
    by_cases hDollar : ch = '$'
    · rw [if_pos hDollar]
      exact hCall hDollar
    rw [if_neg hDollar]
    by_cases hOpen : ch = '('
    · rw [if_pos hOpen]
      exact hGo (((Leads.refl c).emit _).advance hCurrent) rfl
    rw [if_neg hOpen]
    by_cases hClose : ch = ')'
    · rw [if_pos hClose]
      exact hGo (((Leads.refl c).emit _).advance hCurrent) rfl
    rw [if_neg hClose]
    by_cases hName : isNameChar ch
    · rw [if_pos hName]
      exact hCall hName
    · rw [if_neg hName]
      exact hGo (((Leads.refl c).report _ _).advance hCurrent) rfl

theorem exists_choiceOperator? {ch : Char} (hNamed : ch ∈ Grammar.namedOperators)
    (hColon : ch ≠ ':') : ∃ o, Scan.Parameter.choiceOperator? ch = some o := by
  have hMem := List.mem_of_ne_of_mem hColon hNamed
  exact Option.ne_none_iff_exists'.mp (Scan.Parameter.choiceOperator?_ne_none hMem)

theorem moves_parameter (hDepth : Allowed limit c.depth) :
    Moves text limit (.parameter start pending split) c
      (parameter text start pending split c) := by
  unfold parameter
  cases hCurrent : c.current text with
  | none => exact .returns ((Leads.refl c).report _ _) rfl
  | some ch =>
    have hNext : Leads text 1 c (c.advance text) := (Leads.refl c).advance hCurrent
    have hGo {read : List Char} {b : Bool} {c' : Cursor} (hLeads : Leads text 1 c c')
        (hSame : c'.depth = c.depth) :
        Moves text limit (.parameter start pending split) c (.goes (.parameter start read b) c') :=
      .goes hLeads hSame (hSame ▸ hDepth) trivial
    dsimp only
    by_cases hBrace : ch = '}'
    · rw [if_pos hBrace]
      exact .returns (((Leads.refl c).emit _).emit _ |>.advance hCurrent).any rfl
    rw [if_neg hBrace]
    by_cases hBackslash : ch = '\\'
    · rw [if_pos hBackslash]
      split
      · next hEscaped => exact hGo ((hNext.advance hEscaped).mono (by decide)) rfl
      · exact hGo hNext rfl
    rw [if_neg hBackslash]
    split
    · next hNamed =>
      have hCurrent' : (c.emitName pending).current text = some ch := by simpa using hCurrent
      have hName : Leads text 0 c (c.emitName pending) := (Leads.refl c).emitName pending
      by_cases hColon : ch = ':'
      · have hBehind := (hName.emit (.punctuation .colon)).advance hCurrent'
        rw [if_pos hColon]
        split
        · next hChoice =>
          obtain ⟨d, hd, -⟩ := Option.bind_eq_some_iff.mp hChoice
          exact hGo (((hBehind.emit _).advance hd).mono (by decide)) (by simp)
        · exact hGo hBehind (by simp)
      · -- Without a colon the operator itself is there to be read.
        obtain ⟨o, ho⟩ := exists_choiceOperator? hNamed.1 hColon
        rw [if_neg hColon, hCurrent', Option.bind_some, ho]
        exact hGo ((hName.emit _).advance hCurrent') (by simp)
    · split
      · next o ho =>
        have hCurrent' : (c.emitNonempty pending).current text = some ch := by
          simpa using hCurrent
        have hBehind := (((Leads.refl c).emitNonempty pending).emit (.punctuation o)).advance
          hCurrent'
        split
        · next hTwice => exact hGo (((hBehind.emit _).advance hTwice).mono (by decide)) (by simp)
        · exact hGo hBehind (by simp)
      · exact hGo hNext rfl

/-- A word that is called for has a first character. -/
theorem step_call_word {ch : Char} (hCurrent : c.current text = some ch) (hName : isNameChar ch) :
    step text limit (.call .word) c = .goes (.word [ch]) (c.advance text) := by
  simp only [step, word, hCurrent]
  exact if_pos hName

theorem moves_call_layout {ch : Char} (hCurrent : c.current text = some ch)
    (hWhite : isWhitespace ch) (hDepth : Allowed limit c.depth) :
    Moves text limit (.call .layout) c (layout text [] c) := by
  simp only [layout, hCurrent]
  rw [if_pos hWhite]
  split
  · exact .goes (((Leads.refl c).emit _).advance hCurrent) rfl hDepth trivial
  · exact .goes ((Leads.refl c).advance hCurrent) rfl hDepth trivial

end Steps

variable {p : Point} {c : Cursor}

/-- **A step makes progress** from every point where control can stand. -/
theorem Standing.moves (h : Standing text limit p c) :
    Moves text limit p c (step text limit p c) := by
  have hDepth := h.allowed
  cases p with
  | script => exact moves_script hDepth
  | layout pending => exact moves_layout hDepth
  | word pending => exact moves_word hDepth
  | singleQuotes start pending => exact moves_singleQuotes hDepth
  | doubleQuotes start pending => exact moves_doubleQuotes hDepth
  | command start opened => exact moves_command hDepth
  | parameter start pending split => exact moves_parameter hDepth
  | dollarEnd => exact .returns (Leads.refl c).shallower rfl
  | call s =>
    obtain ⟨ch, hCurrent, hStarts⟩ := h.ready
    have hNext : Leads text 1 c (c.advance text) := (Leads.refl c).advance hCurrent
    cases s with
    | layout => exact moves_call_layout hCurrent hStarts hDepth
    | word =>
      rw [step_call_word hCurrent hStarts]
      exact .goes hNext rfl hDepth trivial
    | punctuation => exact moves_punctuation hCurrent
    | dollar => exact moves_dollar hCurrent
    | singleQuotes => exact .goes hNext rfl hDepth trivial
    | doubleQuotes | command | parameter => exact .goes (hNext.emit _) rfl hDepth trivial

theorem Standing.moves_of_eq {o : Outcome} (h : Standing text limit p c)
    (hStep : step text limit p c = o) : Moves text limit p c o := hStep ▸ h.moves

end ShellLexer.Descent
