import ShellLexer.TokenStream
import ShellLexer.Proofs.Stream.Bracket
import Mathlib.Algebra.Ring.Parity

/-!
# The shape of token streams

Double quotes come in pairs, and what stands between them is made of a few
kinds of tokens in which brackets nest.  `TokenStream.WellQuoted` says what a
reader of the stream can rely on without looking at the diagnostics.

A stream is read token by token.  A `Place` is what matters of the tokens
behind it, `Place.Next` what one more token may be there, and `Place.Path` the
streams that lead from one place to another.

* `Path.odd_quotes_iff`: a path changes sides with every double quote.
* `Path.exists_inside`: between two double quotes a path keeps account of the
  brackets that are open.
* `Path.wellQuoted`: the streams that begin outside double quotes have the
  shape.
-/

namespace ShellLexer

/-! ## Tokens inside double quotes -/

namespace Kind

/-- The kinds that may stand inside double quotes. -/
def mayBeQuoted : Kind → Bool
  | segment | word | name | reserved _ => true
  | punctuation p =>
    p ∈ [.colon, .dollar, .leftParen, .rightParen, .leftBrace, .rightBrace, .plus, .dash, .equals,
      .question, .hash, .percent]
  | newline | whitespace | singleQuotedString => false

/-- Those that neither begin an expansion nor open or close a bracket. -/
def isQuotedText : Kind → Bool
  | segment | word | name | reserved _ => true
  | punctuation p => p ∈ [.colon, .plus, .dash, .equals, .question, .hash, .percent]
  | newline | whitespace | singleQuotedString => false

/-- The kinds that only stand inside double quotes, and the double quote. -/
def isOfQuotes : Kind → Bool
  | segment | punctuation .colon | punctuation .doubleQuote => true
  | _ => false

/-- The parenthesis or brace that a kind is. -/
def bracket? : Kind → Option Punctuation
  | punctuation p =>
    if p ∈ [.leftParen, .rightParen, .leftBrace, .rightBrace] then some p else none
  | _ => none

theorem mayBeQuoted_of_isQuotedText {k : Kind} (h : k.isQuotedText) : k.mayBeQuoted := by
  cases k with
  | punctuation p => cases p <;> first | rfl | cases h
  | _ => exact h

theorem bracket?_of_isQuotedText {k : Kind} (h : k.isQuotedText) : k.bracket? = none := by
  cases k with
  | punctuation p => cases p <;> first | rfl | cases h
  | _ => rfl

@[simp] theorem bracket?_left (b : Bracket) : (punctuation b.left).bracket? = some b.left := by
  cases b <;> rfl

@[simp] theorem bracket?_right (b : Bracket) : (punctuation b.right).bracket? = some b.right := by
  cases b <;> rfl

@[simp] theorem mayBeQuoted_left (b : Bracket) : (punctuation b.left).mayBeQuoted := by
  cases b <;> rfl

@[simp] theorem mayBeQuoted_right (b : Bracket) : (punctuation b.right).mayBeQuoted := by
  cases b <;> rfl

end Kind

namespace Token

def isQuote (t : Token) : Bool := t.kind = .punctuation .doubleQuote

/-- A segment without text. -/
def emptySegment : Token := ⟨.segment, ""⟩

end Token

namespace TokenStream

/-- The number of double quotes. -/
def quotes (ts : TokenStream) : Nat := ts.countP Token.isQuote

/-- The parentheses and braces. -/
def brackets (ts : TokenStream) : List Punctuation := ts.filterMap fun t => t.kind.bracket?

theorem quotes_cons (t : Token) (ts : TokenStream) :
    quotes (t :: ts) = quotes ts + if t.isQuote then 1 else 0 := List.countP_cons

theorem brackets_append (ts us : TokenStream) :
    brackets (ts ++ us) = brackets ts ++ brackets us := List.filterMap_append

/-- The shape of a token stream.  A token is quoted if an odd number of double quotes precede it;
between double quotes there are none. -/
structure WellQuoted (ts : TokenStream) : Prop where
  /-- Segments and colons are quoted. -/
  odd_quotes : ∀ {before after : TokenStream} {t : Token}, ts = before ++ t :: after →
    t.kind = .segment ∨ t.kind = .punctuation .colon → Odd (quotes before)
  /-- What is quoted is of one of a few kinds. -/
  mayBeQuoted : ∀ {before after : TokenStream} {t : Token}, ts = before ++ t :: after →
    Odd (quotes before) → ¬ t.isQuote → t.kind.mayBeQuoted
  /-- Between an opening and a closing double quote the brackets are balanced. -/
  balanced : ∀ {before body after : TokenStream} {opening closing : Token},
    ts = before ++ opening :: (body ++ closing :: after) → Even (quotes before) →
      opening.isQuote → quotes body = 0 → closing.isQuote → Balanced (brackets body)
  /-- Behind an opening double quote they are the beginning of a balanced word. -/
  beginsBalanced : ∀ {before body : TokenStream} {opening : Token},
    ts = before ++ opening :: body → Even (quotes before) → opening.isQuote → quotes body = 0 →
      ∃ rest, Balanced (brackets body ++ rest)
  /-- A quoted dollar outside all brackets directly follows a segment. -/
  segment_before_dollar : ∀ {before body after : TokenStream} {opening dollar : Token},
    ts = before ++ opening :: (body ++ dollar :: after) → Even (quotes before) →
      opening.isQuote → quotes body = 0 → dollar.kind = .punctuation .dollar →
        Balanced (brackets body) → ∃ segment, body.getLast? = some segment ∧ segment.kind = .segment
  /-- An empty segment is directly followed by a dollar or by a closing brace. -/
  after_emptySegment : ∀ {before after : TokenStream}, ts = before ++ Token.emptySegment :: after →
    ∃ next, after.head? = some next ∧
      (next.kind = .punctuation .dollar ∨ next.kind = .punctuation .rightBrace)

end TokenStream

open TokenStream

/-! ## Places -/

/-- Where a token stream is read: outside double quotes, or inside them behind the token `last`
with the brackets `opened` open, innermost first. -/
inductive Place
  | outside
  | inside (opened : List Bracket) (last : Token)

namespace Place

def isInside : Place → Prop
  | outside => False
  | inside _ _ => True

/-- A token may stand at a place and leads to the next. -/
inductive Next : Place → Token → Place → Prop
  | outer {t : Token} (kind : t.kind.isOfQuotes = false) : Next .outside t .outside
  | opening {t : Token} (quote : t.isQuote) : Next .outside t (.inside [] t)
  | closing {last t : Token} (quote : t.isQuote) (settled : last ≠ .emptySegment) :
      Next (.inside [] last) t .outside
  | text {opened : List Bracket} {last t : Token} (kind : t.kind.isQuotedText)
      (settled : last ≠ .emptySegment) : Next (.inside opened last) t (.inside opened t)
  | dollar {opened : List Bracket} {last t : Token} (kind : t.kind = .punctuation .dollar)
      (preceded : opened = [] → last.kind = .segment) :
      Next (.inside opened last) t (.inside opened t)
  | left {opened : List Bracket} {last t : Token} (b : Bracket)
      (kind : t.kind = .punctuation b.left) (settled : last ≠ .emptySegment) :
      Next (.inside opened last) t (.inside (b :: opened) t)
  | right {opened : List Bracket} {last t : Token} {b : Bracket}
      (kind : t.kind = .punctuation b.right) (settled : last = .emptySegment → b = .brace) :
      Next (.inside (b :: opened) last) t (.inside opened t)

/-- The streams that lead from one place to another. -/
inductive Path : Place → TokenStream → Place → Prop
  | nil (p : Place) : Path p [] p
  | cons {p q r : Place} {t : Token} {ts : TokenStream} (next : p.Next t q) (rest : Path q ts r) :
      Path p (t :: ts) r

namespace Path

variable {p q r : Place} {ts us : TokenStream} {t : Token}

theorem one (h : p.Next t q) : Path p [t] q := .cons h (.nil q)

theorem append (h : Path p ts q) (g : Path q us r) : Path p (ts ++ us) r := by
  induction h with
  | nil => exact g
  | cons hNext _ ih => exact .cons hNext (ih g)

theorem exists_of_append (h : Path p (ts ++ us) r) : ∃ q, Path p ts q ∧ Path q us r := by
  induction ts generalizing p with
  | nil => exact ⟨p, .nil p, h⟩
  | cons t ts ih =>
    cases h with
    | cons hNext hRest =>
      obtain ⟨q, hFirst, hSecond⟩ := ih hRest
      exact ⟨q, .cons hNext hFirst, hSecond⟩

theorem exists_of_append_cons (h : Path p (ts ++ t :: us) r) :
    ∃ q q', Path p ts q ∧ q.Next t q' ∧ Path q' us r := by
  obtain ⟨q, hFirst, hSecond⟩ := h.exists_of_append
  cases hSecond with
  | cons hNext hRest => exact ⟨q, _, hFirst, hNext, hRest⟩

end Path

/-! ## Double quotes -/

variable {p q : Place} {ts : TokenStream} {t : Token}

theorem Next.isQuote_iff (h : p.Next t q) : t.isQuote ↔ (q.isInside ↔ ¬ p.isInside) := by
  have hNot : t.kind ≠ .punctuation .doubleQuote → ¬ t.isQuote := fun hKind => by
    simpa [Token.isQuote] using hKind
  cases h with
  | outer hKind =>
    have hQuote := hNot fun h => absurd (h ▸ hKind) (by decide)
    simp [isInside, hQuote]
  | opening hQuote => simp [isInside, hQuote]
  | closing hQuote => simp [isInside, hQuote]
  | text hKind =>
    have hQuote := hNot fun h => absurd (h ▸ hKind) (by decide)
    simp [isInside, hQuote]
  | dollar hKind =>
    have hQuote := hNot fun h => absurd (h ▸ hKind) (by decide)
    simp [isInside, hQuote]
  | left b hKind =>
    have hQuote := hNot fun h => absurd (h ▸ hKind) (by cases b <;> decide)
    simp [isInside, hQuote]
  | @right _ _ _ b hKind =>
    have hQuote := hNot fun h => absurd (h ▸ hKind) (by cases b <;> decide)
    simp [isInside, hQuote]

/-- A path changes sides with every double quote. -/
theorem Path.odd_quotes_iff (h : p.Path ts q) :
    Odd (quotes ts) ↔ (q.isInside ↔ ¬ p.isInside) := by
  induction h with
  | nil p => simp [quotes]
  | @cons p q r t ts hNext _ ih =>
    have hSides := hNext.isQuote_iff
    rw [quotes_cons]
    by_cases hQuote : t.isQuote
    · rw [if_pos hQuote, Nat.odd_add_one, ih]
      grind
    · rw [if_neg hQuote, Nat.add_zero, ih]
      grind

theorem Path.odd_quotes_iff_isInside (h : outside.Path ts q) : Odd (quotes ts) ↔ q.isInside := by
  rw [h.odd_quotes_iff]
  simp [isInside]

/-- Behind an even number of double quotes, one more opens the inside. -/
theorem Path.exists_opening {before rest : TokenStream} {opening : Token}
    (h : outside.Path (before ++ opening :: rest) q) (hEven : Even (quotes before))
    (hOpening : opening.isQuote) : (inside [] opening).Path rest q := by
  obtain ⟨m, m', hBefore, hNext, hRest⟩ := h.exists_of_append_cons
  have hOutside : ¬ m.isInside := by
    rwa [← hBefore.odd_quotes_iff_isInside, Nat.not_odd_iff_even]
  have hInside := hNext.isQuote_iff.mp hOpening
  cases hNext with
  | opening => exact hRest
  | outer => exact absurd (hInside.mpr hOutside) id
  | closing | text | dollar | left | right => exact absurd trivial hOutside

/-! ## Brackets -/

/-- One token inside double quotes. -/
theorem Next.exists_inside {opened : List Bracket} {last : Token}
    (h : (inside opened last).Next t q) (hQuote : ¬ t.isQuote) :
    ∃ opened', q = .inside opened' t ∧
      ∀ w, Opened w opened → Opened (w ++ brackets [t]) opened' := by
  cases h with
  | closing h => exact absurd h hQuote
  | text hKind =>
    refine ⟨opened, rfl, ?_⟩
    intro w hw
    simpa [brackets, Kind.bracket?_of_isQuotedText hKind] using hw
  | dollar hKind =>
    refine ⟨opened, rfl, ?_⟩
    intro w hw
    simpa [brackets, hKind, Kind.bracket?] using hw
  | left b hKind =>
    refine ⟨b :: opened, rfl, ?_⟩
    intro w hw
    simpa [brackets, hKind] using hw.append_left b
  | right hKind =>
    refine ⟨_, rfl, ?_⟩
    intro w hw
    simpa [brackets, hKind] using hw.append_right

/-- Between two double quotes a path keeps account of the brackets that are open, and of the last
token. -/
theorem Path.exists_inside {opened : List Bracket} {last : Token} {w : List Punctuation}
    (h : (inside opened last).Path ts q) (hQuotes : quotes ts = 0) (hw : Opened w opened) :
    ∃ opened' last', q = .inside opened' last' ∧ Opened (w ++ brackets ts) opened' ∧
      (last :: ts).getLast? = some last' := by
  induction ts generalizing opened last w with
  | nil =>
    cases h with
    | nil => exact ⟨opened, last, rfl, by simpa [brackets] using hw, rfl⟩
  | cons t ts ih =>
    cases h with
    | cons hNext hRest =>
      obtain ⟨hRestQuotes, hQuote⟩ : quotes ts = 0 ∧ ¬ t.isQuote := by
        simpa [quotes_cons] using hQuotes
      obtain ⟨opened', rfl, hOpened⟩ := hNext.exists_inside hQuote
      obtain ⟨opened'', last', hEnd, hWord, hLast⟩ := ih hRest hRestQuotes (hOpened w hw)
      refine ⟨opened'', last', hEnd, ?_, ?_⟩
      · rwa [List.append_assoc, ← brackets_append, List.singleton_append] at hWord
      · rwa [List.getLast?_cons_cons]

/-! ## The shape -/

/-- No empty segment has just been read. -/
def Settled : Place → Prop
  | outside => True
  | inside _ last => last ≠ .emptySegment

theorem Next.isInside_of_isOfQuotes (h : p.Next t q)
    (hKind : t.kind = .segment ∨ t.kind = .punctuation .colon) : p.isInside := by
  cases h with
  | outer hOuter => rcases hKind with hKind | hKind <;> exact absurd (hKind ▸ hOuter) (by decide)
  | opening hQuote => rcases hKind with hKind | hKind <;> simp [Token.isQuote, hKind] at hQuote
  | closing | text | dollar | left | right => trivial

theorem Next.mayBeQuoted (h : p.Next t q) (hInside : p.isInside) (hQuote : ¬ t.isQuote) :
    t.kind.mayBeQuoted := by
  cases h with
  | outer | opening => exact hInside.elim
  | closing h => exact absurd h hQuote
  | text hKind => exact Kind.mayBeQuoted_of_isQuotedText hKind
  | dollar hKind =>
    rw [hKind]
    rfl
  | left _ hKind | right hKind => simp [hKind]

/-- An empty segment leads to a place that is not settled. -/
theorem Next.emptySegment (h : p.Next .emptySegment q) : ¬ q.Settled := by
  cases h with
  | text | dollar | left | right => exact fun hSettled => hSettled rfl
  | outer hKind => cases hKind
  | opening hQuote | closing hQuote => exact absurd hQuote (by decide)

/-- From there only two kinds of token lead on. -/
theorem Next.of_not_settled (h : p.Next t q) (hSettled : ¬ p.Settled) :
    t.kind = .punctuation .dollar ∨ t.kind = .punctuation .rightBrace := by
  cases h with
  | outer | opening => exact absurd trivial hSettled
  | closing _ h | text _ h | left _ _ h => exact absurd h hSettled
  | dollar hKind => exact Or.inl hKind
  | right hKind hBrace =>
    obtain rfl := hBrace (not_not.mp hSettled)
    exact Or.inr hKind

theorem Next.segment_of_dollar {last : Token} (h : (inside [] last).Next t q)
    (hKind : t.kind = .punctuation .dollar) : last.kind = .segment := by
  cases h with
  | dollar _ hPreceded => exact hPreceded rfl
  | closing hQuote => simp [Token.isQuote, hKind] at hQuote
  | text hText => exact absurd (hKind ▸ hText) (by decide)
  | left b hLeft => cases b <;> rw [hKind] at hLeft <;> cases hLeft

/-- **The streams that begin outside double quotes have the shape.** -/
theorem Path.wellQuoted (h : outside.Path ts q) (hSettled : q.Settled) : ts.WellQuoted where
  odd_quotes := by
    rintro before after t rfl hKind
    obtain ⟨m, m', hBefore, hNext, -⟩ := h.exists_of_append_cons
    exact hBefore.odd_quotes_iff_isInside.mpr (hNext.isInside_of_isOfQuotes hKind)
  mayBeQuoted := by
    rintro before after t rfl hOdd hQuote
    obtain ⟨m, m', hBefore, hNext, -⟩ := h.exists_of_append_cons
    exact hNext.mayBeQuoted (hBefore.odd_quotes_iff_isInside.mp hOdd) hQuote
  balanced := by
    rintro before body after opening closing rfl hEven hOpening hQuotes hClosing
    obtain ⟨m, m', hBody, hNext, -⟩ := (h.exists_opening hEven hOpening).exists_of_append_cons
    obtain ⟨opened, last, rfl, hOpened, -⟩ := hBody.exists_inside hQuotes (.balanced .nil)
    have hOutside : ¬ m'.isInside := fun hIn => (hNext.isQuote_iff.mp hClosing).mp hIn trivial
    cases hNext with
    | closing => exact hOpened.balanced_of_nil
    | text | dollar | left | right => exact absurd trivial hOutside
  beginsBalanced := by
    rintro before body opening rfl hEven hOpening hQuotes
    have hBody := h.exists_opening hEven hOpening
    obtain ⟨opened, last, rfl, hOpened, -⟩ := hBody.exists_inside hQuotes (.balanced .nil)
    exact hOpened.exists_balanced_append
  segment_before_dollar := by
    rintro before body after opening dollar rfl hEven hOpening hQuotes hKind hBalanced
    obtain ⟨m, m', hBody, hNext, -⟩ := (h.exists_opening hEven hOpening).exists_of_append_cons
    obtain ⟨opened, last, rfl, hOpened, hLast⟩ := hBody.exists_inside hQuotes (.balanced .nil)
    obtain rfl := hOpened.eq_nil_of_balanced hBalanced
    have hSegment := hNext.segment_of_dollar hKind
    cases body with
    | nil =>
      -- The last token is the opening quote, which is no segment.
      have hSame : opening = last := Option.some.inj hLast
      simp [Token.isQuote, hSame, hSegment] at hOpening
    | cons t body =>
      rw [List.getLast?_cons_cons] at hLast
      exact ⟨last, hLast, hSegment⟩
  after_emptySegment := by
    rintro before after rfl
    obtain ⟨m, m', -, hNext, hAfter⟩ := h.exists_of_append_cons
    cases hAfter with
    | nil => exact absurd hSettled hNext.emptySegment
    | @cons _ _ _ t ts hFollowing _ =>
      exact ⟨t, rfl, hFollowing.of_not_settled hNext.emptySegment⟩

end Place

end ShellLexer
