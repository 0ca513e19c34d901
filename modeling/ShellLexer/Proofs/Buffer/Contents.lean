import ShellLexer.Proofs.Buffer.Capacity
import ShellLexer.Proofs.Buffer.Decoding
import ShellLexer.Proofs.Buffer.Encoded
import Mathlib.Data.List.DropRight

/-!
# The text in a buffer

What a buffer holds depends on nothing but the bytes appended since it was last
emptied: not on the pieces they came in, on what was in the buffer before, or on
when it was read in between (`bytes_applyAll`).  If they encode a text, that
text is what is read (`Holds`).

A scan appends whole characters to its buffers and takes texts out of them
again.  `tokenizeIn` is `tokenize` with buffers of any type.

* `tokenize_eq_tokenizeIn_chars`: bytes give what lists of characters give.
* `wordToken_wordBuffer`: the first byte of a word decides as its first
  character does.
* `buffer_faithful`: all of it in one statement.
-/

namespace ShellLexer

namespace Buffer

/-! ## Contents -/

/-- Whether an operation leaves nothing in the buffer. -/
def Operation.empties : Operation → Bool
  | clear | take => true
  | append _ | appendString _ | appendChar _ | snapshot => false

/-- The bytes that operations append after the last of them that empties the buffer. -/
def appended (ops : List Operation) : ByteArray :=
  ((ops.rtakeWhile fun op => !op.empties).filterMap Operation.data?).foldl (· ++ ·)
    ByteArray.empty

/-- The buffer after operations, one after the other. -/
def applyAll (b : Buffer) (ops : List Operation) : Buffer := ops.foldl apply b

theorem bytes_apply (b : Buffer) (op : Operation) :
    (b.apply op).bytes =
      if op.empties then ByteArray.empty else b.bytes ++ op.data?.getD ByteArray.empty := by
  cases op with
  | append data | appendString s | appendChar c => rfl
  | clear | take => rfl
  | snapshot => exact ByteArray.append_empty.symm

theorem appended_concat (ops : List Operation) (op : Operation) :
    appended (ops ++ [op]) =
      if op.empties then ByteArray.empty else appended ops ++ op.data?.getD ByteArray.empty := by
  unfold appended
  cases hEmpties : op.empties with
  | true =>
    rw [List.rtakeWhile_concat_neg _ _ _ (by simp [hEmpties])]
    rfl
  | false =>
    rw [List.rtakeWhile_concat_pos _ _ _ (by simp [hEmpties]), List.filterMap_append,
      List.foldl_append]
    cases hData : op.data? with
    | none =>
      rw [List.filterMap_cons_none hData]
      exact ByteArray.append_empty.symm
    | some data =>
      rw [List.filterMap_cons_some hData]
      rfl

/-- **A buffer holds what was appended since it was last emptied.** -/
theorem bytes_applyAll (capacity : Nat) (ops : List Operation) :
    ((withCapacity capacity).applyAll ops).bytes = appended ops := by
  -- from the last operation back, which is how the ones behind an emptying one are found
  induction ops using List.reverseRecOn with
  | nil => rfl
  | append_singleton ops op ih =>
    rw [applyAll, List.foldl_append, appended_concat, ← ih]
    exact bytes_apply _ op

/-! ## Reading -/

/-- A buffer that holds the text `s` and gives just that when it is read, at once or character by
character. -/
structure Holds (b : Buffer) (s : String) : Prop where
  bytes : b.bytes = s.toUTF8
  snapshot : b.snapshot = s
  unreplaced : Text.Utf8.decodeBytes b.bytes.toList = s.toList
  kept : b.apply .snapshot = b
  taken : b.take.1 = s
  emptied : (b.apply .take).isEmpty = true

theorem holds_of_bytes_eq {b : Buffer} {s : String} (h : b.bytes = s.toUTF8) : b.Holds s := by
  have hUnreplaced : Text.Utf8.decodeBytes b.bytes.toList = s.toList := by
    rw [h, Text.Utf8.toList_toUTF8, Text.Utf8.decodeBytes_encode]
  have hSnapshot : b.snapshot = s := by
    rw [snapshot, Text.Utf8.decode_eq_decodeBytes, hUnreplaced, String.ofList_toList]
  exact ⟨h, hSnapshot, hUnreplaced, rfl, hSnapshot, rfl⟩

end Buffer

/-! ## Scans with buffers of any type -/

/-- The tokens and the diagnostics of a text, collected in buffers of type `β`. -/
def tokenizeIn (β : Type) [TextBuffer β] (text : String) : Lexed :=
  let (tokens, diagnostics) :=
    Scan.run β (some Scan.maxExpansionDepth) (collect Array.push) (#[], #[]) text
  ⟨tokens.toList, diagnostics.toList⟩

theorem tokenizeIn_buffer (text : String) : tokenizeIn Buffer text = tokenize text := by
  rw [tokenizeIn, tokenize, tokenizeInto]

namespace Scan

variable {α β γ : Type} [TextBuffer β] [TextBuffer γ]

theorem run_buffer_eq (limit : Option Nat) (record : α → Event → α) (a : α) (text : String) :
    run Buffer limit record a text = run (List Char) limit record a text := by
  rw [run_eq_foldl, run_eq_foldl, events_buffer_eq]

/-- The buffer in which the characters of a word were collected. -/
def wordBuffer (cs : List Char) : β :=
  cs.foldl TextBuffer.push (TextBuffer.withCapacity Buffer.wordCapacity)

theorem wordBuffer_concat (cs : List Char) (c : Char) :
    (wordBuffer (cs ++ [c]) : β) = TextBuffer.push (wordBuffer cs) c := by
  rw [wordBuffer, List.foldl_append]
  rfl

theorem wordBuffer_hom {f : β → γ} (hf : TextBuffer.IsHom f) (cs : List Char) :
    wordBuffer cs = f (wordBuffer cs) := by
  induction cs using List.reverseRecOn with
  | nil => exact (hf.withCapacity _).symm
  | append_singleton cs c ih => rw [wordBuffer_concat, wordBuffer_concat, hf.push, ih]

theorem wordBuffer_chars (cs : List Char) : (wordBuffer cs : List Char) = cs := by
  induction cs using List.reverseRecOn with
  | nil => rfl
  | append_singleton cs c ih =>
    rw [wordBuffer_concat, ih]
    rfl

/-- **The first byte of a word decides its kind** as the first character does. -/
theorem wordToken_wordBuffer (c : Char) (cs : List Char) :
    wordToken (wordBuffer (c :: cs) : Buffer) =
      if isDigit c then ⟨.word, String.ofList (c :: cs)⟩
      else Token.ofName (String.ofList (c :: cs)) := by
  rw [wordBuffer_hom EncodedBuffer.isHom_buffer, wordToken_hom EncodedBuffer.isHom_buffer,
    ← wordToken_hom EncodedBuffer.isHom_chars, ← wordBuffer_hom EncodedBuffer.isHom_chars,
    wordBuffer_chars]
  rfl

end Scan

theorem tokenize_eq_tokenizeIn_chars (text : String) :
    tokenize text = tokenizeIn (List Char) text := by
  rw [← tokenizeIn_buffer, tokenizeIn, tokenizeIn, Scan.run_buffer_eq]

/-- **Byte buffers are faithful to text.**  Whatever is done with a buffer, if the bytes appended
since it was last emptied encode a text, in pieces cut anywhere, then the buffer holds that text.
So a scan with byte buffers finds the tokens and the diagnostics of one with lists of characters,
down to the words it tells from names by a byte. -/
theorem buffer_faithful :
    (∀ capacity ops s, Buffer.appended ops = s.toUTF8 →
      ((Buffer.withCapacity capacity).applyAll ops).Holds s) ∧
    (∀ text, tokenize text = tokenizeIn (List Char) text) ∧
    ∀ c cs, Scan.wordToken (Scan.wordBuffer (c :: cs) : Buffer) =
      if isDigit c then ⟨.word, String.ofList (c :: cs)⟩
      else Token.ofName (String.ofList (c :: cs)) := by
  refine ⟨fun capacity ops s hText => Buffer.holds_of_bytes_eq ?_, tokenize_eq_tokenizeIn_chars,
    Scan.wordToken_wordBuffer⟩
  rw [Buffer.bytes_applyAll, hText]

/-- A character in two pieces, with a buffer that was used before and is read between the pieces,
when it does not hold a text. -/
theorem buffer_faithful_split :
    let ops : List Buffer.Operation := [.appendString "ab", .take, .append ⟨#[0x61, 0xC3]⟩,
      .snapshot, .append ⟨#[0xA9]⟩, .appendChar '€']
    Buffer.appended ops = "aé€".toUTF8 ∧
      ((Buffer.withCapacity 1).applyAll ops).Holds "aé€" ∧
      ((Buffer.withCapacity 1).applyAll (ops.take 4)).snapshot =
        String.ofList ['a', Text.Utf8.replacement] := by
  intro ops
  have hText : Buffer.appended ops = "aé€".toUTF8 := by decide
  have hHalf : ((Buffer.withCapacity 1).applyAll (ops.take 4)).bytes =
      (Text.Utf8.encode ['a'] ++ [0xC3]).toByteArray := by
    rw [Buffer.bytes_applyAll]
    decide
  refine ⟨hText, buffer_faithful.1 1 ops "aé€" hText, ?_⟩
  rw [Buffer.snapshot, hHalf, Text.Utf8.decode_eq_decodeBytes, Text.Utf8.toList_toByteArray,
    Text.Utf8.decodeBytes_encode_append]
  simp [Text.Utf8.decodeBytes, Text.Utf8.followers?, Text.Utf8.matching]

end ShellLexer
