import ShellLexer.Dump
import ShellLexer.Proofs.Dump.SelfDelimiting

/-!
# What a text dump tells

A text dump shows each token as its escaped text in double quotes and its label.
No label has a parenthesis, and no escaped text shows its closing quote before
its end, so a dump can be cut into its tokens again.  A character may be escaped
at the start of a text and stand for itself further on; both are read the same
way, which is why `EscapeRules` leaves open how a character is written.

* `selfDelimiting_display`: a token ends by itself in a dump.
* `dump_text_inj`: a text dump determines the tokens.
-/

namespace ShellLexer

namespace Text

/-! ## Escaped texts -/

/-- The rules of escaped text, first and later characters alike. -/
def escapeRules : EscapeRules where
  letters := [('0', '\x00'), ('t', '\t'), ('r', '\r'), ('n', '\n'), ('\\', '\\'), ('"', '"'),
    ('\'', '\'')]
  code c := '{' :: (Nat.toDigits 16 c.toNat ++ ['}'])
  IsCoded _ := True
  letters_nodup := by decide
  u_not_mem := by decide
  code_append_inj := by
    intro c d s t _ _ h
    simp only [List.cons_append, List.append_assoc, List.nil_append] at h
    have hBrace := not_mem_toDigits (b := 16) (c := '}') (by decide) (by decide)
    obtain ⟨hCode, hRest⟩ := append_cons_inj_of_not_mem (hBrace _) (hBrace _) (List.cons.inj h).2
    exact ⟨Char.toNat_inj.mp (toDigits_injective (by decide) (by decide) hCode), hRest⟩

theorem escapeRules_writes (isFirst : Bool) (c : Char) :
    escapeRules.Writes c (escapeChar isFirst c) := by
  unfold escapeChar
  split_ifs with hNul hTab hReturn hNewline hQuote hCode
  · exact .of_letter hNul (by decide)
  · exact .of_letter hTab (by decide)
  · exact .of_letter hReturn (by decide)
  · exact .of_letter hNewline (by decide)
  · simp only [Bool.or_eq_true, beq_iff_eq] at hQuote
    obtain (rfl | rfl) | rfl := hQuote <;> exact .letter (by decide)
  · exact .code trivial
  · have hSlash : c ≠ '\\' := by
      rintro rfl
      exact hQuote rfl
    have hDouble : c ≠ '"' := by
      rintro rfl
      exact hQuote rfl
    exact .raw hSlash hDouble

theorem escapeRules_writesText (cs : List Char) : escapeRules.WritesText cs (escapeChars cs) := by
  cases cs with
  | nil => exact .nil
  | cons c cs =>
    exact .cons (escapeRules_writes true c)
      (EscapeRules.writesText_flatMap (escapeRules_writes false) cs)

end Text

/-! ## Labels -/

/-- The kind can be told from its label. -/
theorem Kind.ofLabel?_label (k : Kind) : ofLabel? k.label = some k := by
  have hAll : ∀ k ∈ all, ofLabel? k.label = some k := by decide +kernel
  exact hAll k k.mem_all

theorem Kind.label_injective : Function.Injective Kind.label := by
  intro k l h
  have hSome : some k = some l := by rw [← ofLabel?_label k, h, ofLabel?_label]
  exact Option.some.inj hSome

theorem Kind.closingParen_not_mem_label (k : Kind) : ')' ∉ k.label.toList := by
  have hAll : ∀ k ∈ all, ')' ∉ k.label.toList := by decide +kernel
  exact hAll k k.mem_all

/-! ## Tokens -/

theorem Token.toList_display (t : Token) :
    t.display.toList = '(' :: '"' ::
      (Text.escapeChars t.text.toList ++ '"' :: ' ' :: (t.kind.label.toList ++ [')'])) := by
  simp [display, Text.escape]

/-- **A token ends by itself**: its kind, its text and what stands behind it can be told. -/
theorem Token.selfDelimiting_display : SelfDelimiting fun t : Token => t.display.toList := by
  intro t u xs ys h
  simp only [toList_display, List.cons_append, List.append_assoc, List.nil_append] at h
  have hTexts := (List.cons.inj (List.cons.inj h).2).2
  obtain ⟨hText, hLabels⟩ := (Text.escapeRules_writesText t.text.toList).append_quote_inj
    (Text.escapeRules_writesText u.text.toList) hTexts
  obtain ⟨hKind, hRest⟩ := append_cons_inj_of_not_mem t.kind.closingParen_not_mem_label
    u.kind.closingParen_not_mem_label (List.cons.inj hLabels).2
  obtain ⟨kind, text⟩ := t
  obtain rfl := Kind.label_injective (String.toList_inj.mp hKind)
  obtain rfl := String.toList_inj.mp hText
  exact ⟨rfl, hRest⟩

theorem TokenStream.toList_display (ts : TokenStream) :
    ts.display.toList = ts.flatMap fun t => t.display.toList := by
  rw [display, String.toList_join, List.flatMap_map]

theorem TokenStream.display_injective : Function.Injective TokenStream.display := by
  intro ts us h
  have hChars := congrArg String.toList h
  rw [toList_display, toList_display] at hChars
  refine Token.selfDelimiting_display.flatMap_injective ?_ hChars
  intro t
  rw [Token.toList_display]
  exact List.cons_ne_nil _ _

/-- **A text dump determines the tokens**: their number, their kinds and their texts. -/
theorem dump_text_inj (a b : Lexed) : a.dump .text = b.dump .text ↔ a.tokens = b.tokens :=
  TokenStream.display_injective.eq_iff

end ShellLexer
