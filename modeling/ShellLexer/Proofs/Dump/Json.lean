import ShellLexer.Proofs.Diagnostics.Message
import ShellLexer.Proofs.Dump.Text

/-!
# What a JSON dump tells

A JSON dump holds the tokens as objects and the diagnostics as the messages that
people read.  Strings, arrays and objects of two fields end by themselves
wherever the values in them do, so the dump determines the tokens and the
messages, and a message determines its diagnostic.

* `dump_json_inj`: a JSON dump determines the whole scan.
-/

namespace ShellLexer

namespace Text.Json

/-! ## Strings -/

/-- The rules of strings. -/
def escapeRules : EscapeRules where
  letters := [('"', '"'), ('\\', '\\'), ('b', '\x08'), ('f', '\x0c'), ('n', '\n'), ('r', '\r'),
    ('t', '\t')]
  code c := ['0', '0', Nat.digitChar (c.toNat / 16), Nat.digitChar (c.toNat % 16)]
  IsCoded c := c.toNat < 0x20
  letters_nodup := by decide
  u_not_mem := by decide
  code_append_inj := by
    intro c d s t hc hd h
    simp only [List.cons_append, List.nil_append, List.cons.injEq, true_and] at h
    obtain ⟨hHigh, hLow, hRest⟩ := h
    have hDiv : c.toNat / 16 = d.toNat / 16 := digitChar_inj (by omega) (by omega) hHigh
    have hMod : c.toNat % 16 = d.toNat % 16 := digitChar_inj (by omega) (by omega) hLow
    exact ⟨Char.toNat_inj.mp (by omega), hRest⟩

theorem escapeRules_writes (c : Char) : escapeRules.Writes c (escapeChar c) := by
  unfold escapeChar
  split_ifs with hQuote hSlash hBackspace hFeed hNewline hReturn hTab hControl
  · exact .of_letter hQuote (by decide)
  · exact .of_letter hSlash (by decide)
  · exact .of_letter hBackspace (by decide)
  · exact .of_letter hFeed (by decide)
  · exact .of_letter hNewline (by decide)
  · exact .of_letter hReturn (by decide)
  · exact .of_letter hTab (by decide)
  · exact .code hControl
  · exact .raw (mt beq_iff_eq.mpr hSlash) (mt beq_iff_eq.mpr hQuote)

theorem toList_string (s : String) :
    (string s).toList = '"' :: (s.toList.flatMap escapeChar ++ ['"']) := by
  simp [string]

theorem selfDelimiting_string : SelfDelimiting fun s => (string s).toList := by
  intro a b s t h
  simp only [toList_string, List.cons_append, List.append_assoc, List.nil_append] at h
  have hWrites := EscapeRules.writesText_flatMap escapeRules_writes
  obtain ⟨hText, hRest⟩ :=
    (hWrites a.toList).append_quote_inj (hWrites b.toList) (List.cons.inj h).2
  exact ⟨String.toList_inj.mp hText, hRest⟩

/-! ## Arrays and objects -/

section Compound

variable {α β : Type} {write : α → String}

theorem toList_array (as : List α) :
    (array (as.map write)).toList =
      '[' :: ([','].intercalate (as.map fun a => (write a).toList) ++ [']']) := by
  simp [array, Function.comp_def]

/-- An array ends by itself if its values do and none of them begins with its closing bracket. -/
theorem selfDelimiting_array (h : SelfDelimiting fun a => (write a).toList)
    (hFirst : ∀ a, BeginsUnlike ']' (write a).toList) :
    SelfDelimiting fun as : List α => (array (as.map write)).toList := by
  have hBody := (h.intercalate_concat hFirst ',' (by decide)).cons '['
  simpa only [toList_array] using hBody

theorem toList_object_pair (k l v w : String) :
    (object [(k, v), (l, w)]).toList = '{' :: ((string k).toList ++ ':' :: (v.toList ++
      ',' :: ((string l).toList ++ ':' :: (w.toList ++ ['}'])))) := by
  simp [object, field]

/-- An object of two fields ends by itself if its two values do. -/
theorem selfDelimiting_object (k l : String) {other : β → String}
    (h : SelfDelimiting fun a => (write a).toList)
    (hOther : SelfDelimiting fun b => (other b).toList) :
    SelfDelimiting fun p : α × β => (object [(k, write p.1), (l, other p.2)]).toList := by
  rintro ⟨a, b⟩ ⟨c, d⟩ s t hab
  simp only [toList_object_pair, List.cons_append, List.append_assoc, List.nil_append] at hab
  have hFirst := List.append_cancel_left (List.cons.inj hab).2
  obtain ⟨rfl, hBehind⟩ := h (List.cons.inj hFirst).2
  have hSecond := List.append_cancel_left (List.cons.inj hBehind).2
  obtain ⟨rfl, hEnd⟩ := hOther (List.cons.inj hSecond).2
  exact ⟨rfl, (List.cons.inj hEnd).2⟩

end Compound

end Text.Json

open Text

/-! ## Scans -/

theorem Token.selfDelimiting_toJson : SelfDelimiting fun t : Token => t.toJson.toList := by
  have hParts : Function.Injective fun t : Token => (t.kind.label, t.text) := by
    rintro ⟨kind, text⟩ ⟨kind', text'⟩ h
    obtain ⟨hLabel, hText⟩ := Prod.mk.inj h
    exact congrArg₂ Token.mk (Kind.label_injective hLabel) hText
  have hObject := (Json.selfDelimiting_object "type" "value" Json.selfDelimiting_string
    Json.selfDelimiting_string).comp hParts
  exact hObject

theorem Diagnostic.selfDelimiting_message :
    SelfDelimiting fun d : Diagnostic => (Json.string d.message).toList :=
  Json.selfDelimiting_string.comp Diagnostic.message_injective

theorem Lexed.selfDelimiting_toJson : SelfDelimiting fun lexed : Lexed => lexed.toJson.toList := by
  have hParts : Function.Injective fun lexed : Lexed => (lexed.diagnostics, lexed.tokens) := by
    rintro ⟨tokens, diagnostics⟩ ⟨tokens', diagnostics'⟩ h
    obtain ⟨hDiagnostics, hTokens⟩ := Prod.mk.inj h
    exact congrArg₂ Lexed.mk hTokens hDiagnostics
  have hDiagnostics := Json.selfDelimiting_array Diagnostic.selfDelimiting_message fun d =>
    ⟨'"', _, Json.toList_string d.message, by decide⟩
  have hTokens := Json.selfDelimiting_array Token.selfDelimiting_toJson fun t =>
    ⟨'{', _, Json.toList_object_pair _ _ _ _, by decide⟩
  have hObject :=
    (Json.selfDelimiting_object "diagnostics" "tokens" hDiagnostics hTokens).comp hParts
  exact hObject

/-- **A JSON dump determines the whole scan**: the kinds and texts of the tokens, and the faults,
characters and positions of the diagnostics. -/
theorem dump_json_inj (a b : Lexed) : a.dump .json = b.dump .json ↔ a = b := by
  constructor
  · intro h
    exact Lexed.selfDelimiting_toJson.injective (congrArg String.toList h)
  · rintro rfl
    rfl

end ShellLexer
