import ShellLexer.Token.Kind

/-!
# Operators

The tables of the operators that are read outside quotes, by length.  Quotes
are in neither table since they open a string, and the colon is punctuation
only inside a parameter expansion.  The one operator of three characters,
`<<-`, is the pair `<<` with a dash after it.
-/

namespace ShellLexer.Punctuation

/-- The operators of one character. -/
def singles : List Punctuation :=
  [pipe, ampersand, semicolon, less, greater, leftParen, rightParen, dollar, backtick, backslash,
   plus, dash, asterisk, slash, question, leftBracket, rightBracket, hash, tilde, equals, percent,
   leftBrace, rightBrace, bang]

/-- The operators of two characters. -/
def pairs : List Punctuation :=
  [doubleLess, andIf, orIf, doubleSemicolon, doubleGreater, lessAnd, greaterAnd, lessGreater,
   clobber, doubleLeftBracket, doubleRightBracket]

/-- The operator that `c` is on its own. -/
def ofChar? (c : Char) : Option Punctuation := singles.find? (·.chars == [c])

/-- The operator that `c` makes with `d` after it. -/
def ofPair? (c d : Char) : Option Punctuation := pairs.find? (·.chars == [c, d])

theorem chars_of_ofChar? {c : Char} {p : Punctuation} (hOp : ofChar? c = some p) :
    p.chars = [c] := by
  simpa using List.find?_some hOp

theorem chars_of_ofPair? {c d : Char} {p : Punctuation} (hOp : ofPair? c d = some p) :
    p.chars = [c, d] := by
  simpa using List.find?_some hOp

/-- An operator of two characters is made of two that are operators on their own. -/
theorem isSome_ofChar?_of_ofPair? {c d : Char} {p : Punctuation} (hOp : ofPair? c d = some p) :
    (ofChar? c).isSome ∧ (ofChar? d).isSome := by
  have hAll : pairs.all (fun p => p.chars.all fun x => (ofChar? x).isSome) := by decide
  have hChars := List.all_eq_true.mp hAll p (List.mem_of_find?_eq_some hOp)
  rw [chars_of_ofPair? hOp] at hChars
  have hMem := List.all_eq_true.mp hChars
  exact ⟨hMem c List.mem_cons_self, hMem d (List.mem_cons_of_mem c List.mem_cons_self)⟩

end ShellLexer.Punctuation
