import ShellLexer.Token.Kind

/-!
# Bracket words

Parentheses and braces as they nest inside double quotes.  `Balanced` is the
language of properly nested words.  `Opened w opened` says of the beginning `w`
of such a word which brackets it leaves open, innermost first.

* `Opened.append_left`, `Opened.append_right`: one more bracket.
* `Opened.exists_balanced_append`: a word that leaves brackets open is the
  beginning of a balanced one.
* `Opened.eq_nil_of_balanced`: a balanced word leaves none open.
-/

namespace ShellLexer

/-- The pairs of brackets that nest. -/
inductive Bracket
  | paren
  | brace
  deriving DecidableEq

namespace Bracket

def left : Bracket → Punctuation
  | paren => .leftParen
  | brace => .leftBrace

def right : Bracket → Punctuation
  | paren => .rightParen
  | brace => .rightBrace

end Bracket

/-- The properly nested words of parentheses and braces. -/
inductive Balanced : List Punctuation → Prop
  | nil : Balanced []
  | wrap {u v : List Punctuation} (b : Bracket) (inner : Balanced u) (rest : Balanced v) :
      Balanced (b.left :: u ++ b.right :: v)

theorem Balanced.append {u v : List Punctuation} (hu : Balanced u) (hv : Balanced v) :
    Balanced (u ++ v) := by
  induction hu with
  | nil => exact hv
  | @wrap w x b hInner _ _ ih =>
    rw [List.append_assoc]
    exact .wrap b hInner ih

/-- The word `w` leaves the brackets `opened` open, innermost first. -/
inductive Opened : List Punctuation → List Bracket → Prop
  | balanced {w : List Punctuation} (balanced : Balanced w) : Opened w []
  | inside {u v : List Punctuation} {opened : List Bracket} (b : Bracket) (outer : Opened u opened)
      (inner : Balanced v) : Opened (u ++ b.left :: v) (b :: opened)

namespace Opened

variable {w v : List Punctuation} {opened : List Bracket} {b : Bracket}

theorem balanced_of_nil (h : Opened w []) : Balanced w := by
  cases h with
  | balanced hw => exact hw

theorem append_balanced (h : Opened w opened) (hv : Balanced v) : Opened (w ++ v) opened := by
  cases h with
  | balanced hw => exact .balanced (hw.append hv)
  | inside b hOuter hInner =>
    rw [List.append_assoc]
    exact .inside b hOuter (hInner.append hv)

theorem append_left (h : Opened w opened) (b : Bracket) :
    Opened (w ++ [b.left]) (b :: opened) := .inside b h .nil

theorem append_right (h : Opened w (b :: opened)) : Opened (w ++ [b.right]) opened := by
  cases h with
  | @inside u v _ _ hOuter hInner =>
    have hWrap : Balanced (b.left :: v ++ [b.right]) := .wrap b hInner .nil
    rw [List.append_assoc]
    exact hOuter.append_balanced hWrap

theorem exists_balanced_append (h : Opened w opened) : ∃ rest, Balanced (w ++ rest) := by
  induction opened generalizing w with
  | nil =>
    refine ⟨[], ?_⟩
    rw [List.append_nil]
    exact h.balanced_of_nil
  | cons b opened ih =>
    obtain ⟨rest, hRest⟩ := ih h.append_right
    refine ⟨b.right :: rest, ?_⟩
    rwa [List.append_assoc] at hRest

end Opened

/-! ## Counting brackets -/

/-- The number of left brackets less the number of right ones. -/
def depth : List Punctuation → Int
  | [] => 0
  | .leftParen :: w | .leftBrace :: w => depth w + 1
  | .rightParen :: w | .rightBrace :: w => depth w - 1
  | _ :: w => depth w

theorem depth_left_cons (b : Bracket) (w : List Punctuation) :
    depth (b.left :: w) = depth w + 1 := by
  cases b <;> rfl

theorem depth_right_cons (b : Bracket) (w : List Punctuation) :
    depth (b.right :: w) = depth w - 1 := by
  cases b <;> rfl

theorem depth_append (w v : List Punctuation) : depth (w ++ v) = depth w + depth v := by
  induction w with
  | nil => simp [depth]
  | cons p w ih => cases p <;> simp only [List.cons_append, depth, ih] <;> omega

theorem Balanced.depth_eq_zero {w : List Punctuation} (h : Balanced w) : depth w = 0 := by
  induction h with
  | nil => rfl
  | wrap b _ _ ihInner ihRest =>
    rw [depth_append, depth_left_cons, depth_right_cons, ihInner, ihRest]
    rfl

theorem Opened.depth_eq {w : List Punctuation} {opened : List Bracket} (h : Opened w opened) :
    depth w = opened.length := by
  induction h with
  | balanced hw => exact hw.depth_eq_zero
  | inside b _ hInner ih =>
    rw [depth_append, depth_left_cons, ih, hInner.depth_eq_zero, List.length_cons]
    omega

/-- Nothing is open behind a balanced word. -/
theorem Opened.eq_nil_of_balanced {w : List Punctuation} {opened : List Bracket}
    (h : Opened w opened) (hw : Balanced w) : opened = [] := by
  have hLength : (opened.length : Int) = 0 := by rw [← h.depth_eq, hw.depth_eq_zero]
  exact List.eq_nil_of_length_eq_zero (Int.ofNat_inj.mp hLength)

end ShellLexer
