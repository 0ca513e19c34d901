import ShellLexer.Buffer
import ShellLexer.Lexed
import ShellLexer.Proofs.Scan.Transport

/-!
# Byte buffers that hold a text

A scan appends to its buffers the encodings of whole characters, so their bytes
are always the encoding of a text.  `EncodedBuffer` is a byte buffer together
with that text, and it is a buffer in two ways: by its bytes and by the list of
its characters.  Both readings respect every operation (`isHom_buffer`,
`isHom_chars`).

* `events_eq`: a scan that collects bytes finds the same events as a scan that
  collects lists of characters.
-/

namespace ShellLexer

/-! ## The first byte of a text -/

/-- The first byte of a character's encoding is a digit exactly if the character is. -/
theorem utf8EncodeChar_head_isDigit (c : Char) :
    ∃ b bs, String.utf8EncodeChar c = b :: bs ∧ (Char.ofNat b.toNat).isDigit = c.isDigit := by
  have hHigh : ∀ n, 0x80 ≤ n → n < 0x100 → 0x7f < c.toNat →
      (Char.ofNat (UInt8.ofNat n).toNat).isDigit = c.isDigit := by
    intro n hn hn' hc
    have hValid : n.isValidChar := Or.inl (by omega)
    have hByte : (Char.ofNat (UInt8.ofNat n).toNat).toNat = n := by
      rw [UInt8.toNat_ofNat', Nat.mod_eq_of_lt hn', Char.ofNat, dif_pos hValid]
      rfl
    have hDigit : ∀ d : Char, 0x39 < d.toNat → d.isDigit = false := by
      intro d hd
      have hVal : ¬ d.val ≤ 57 := by
        rw [UInt32.le_iff_toNat_le]
        exact Nat.not_le.mpr hd
      simp [Char.isDigit, hVal]
    rw [hDigit _ (by omega), hDigit _ (by omega)]
  have hc : c.val.toNat = c.toNat := rfl
  unfold String.utf8EncodeChar
  simp only [hc]
  split
  · refine ⟨_, _, rfl, ?_⟩
    have hSmall : (UInt8.ofNat c.toNat).toNat = c.toNat := by
      rw [UInt8.toNat_ofNat', Nat.mod_eq_of_lt (by omega)]
    rw [hSmall, Char.ofNat_toNat]
  · split
    · exact ⟨_, _, rfl, hHigh _ (by omega) (by omega) (by omega)⟩
    · split
      · exact ⟨_, _, rfl, hHigh _ (by omega) (by omega) (by omega)⟩
      · exact ⟨_, _, rfl, hHigh _ (by omega) (by omega) (by omega)⟩

theorem toUTF8_ofList_append (cs ds : List Char) :
    (String.ofList (cs ++ ds)).toUTF8 = (String.ofList cs).toUTF8 ++ (String.ofList ds).toUTF8 := by
  simp only [String.toUTF8_eq_toByteArray, String.ofList_append, String.toByteArray_append]

/-- Whether a text starts with a digit shows in its first byte. -/
theorem toUTF8_startsWithDigit (cs : List Char) :
    ((String.ofList cs).toUTF8[0]?.any fun b => (Char.ofNat b.toNat).isDigit) =
      cs.head?.any Char.isDigit := by
  cases cs with
  | nil => rfl
  | cons c cs =>
    obtain ⟨b, bs, hBytes, hDigit⟩ := utf8EncodeChar_head_isDigit c
    have hSize : ∀ bytes : ByteArray, 0 < ((b :: bs).toByteArray ++ bytes).size := by
      intro bytes
      rw [ByteArray.size_append, List.size_toByteArray, List.length_cons]
      omega
    have hFirst : (String.ofList (c :: cs)).toUTF8[0]? = some b := by
      rw [String.toUTF8_eq_toByteArray, String.toByteArray_ofList, List.utf8Encode_cons,
        List.utf8Encode_singleton, hBytes, getElem?_pos _ 0 (hSize _),
        ByteArray.getElem_append_left (by simp), List.getElem_toByteArray]
      rfl
    rw [hFirst]
    simpa using hDigit

/-! ## Bytes with the text they encode -/

/-- A byte buffer that holds the encoding of `chars`. -/
structure EncodedBuffer where
  buffer : Buffer
  chars : List Char
  bytes_eq : buffer.bytes = (String.ofList chars).toUTF8

namespace EncodedBuffer

/-- The text of a buffer is the text its bytes encode. -/
theorem snapshot_eq (b : EncodedBuffer) : b.buffer.snapshot = String.ofList b.chars := by
  rw [Buffer.snapshot, b.bytes_eq, Text.Utf8.decode_toUTF8]

theorem isEmpty_eq (b : EncodedBuffer) : b.buffer.isEmpty = b.chars.isEmpty := by
  rw [Buffer.isEmpty, b.bytes_eq]
  cases b.chars with
  | nil => rfl
  | cons c cs =>
    have hPos : 0 < c.utf8Size := c.utf8Size_pos
    have hSize : (String.ofList (c :: cs)).toUTF8.size ≠ 0 := by
      rw [String.toUTF8_eq_toByteArray, String.toByteArray_ofList, List.utf8Encode_cons,
        List.utf8Encode_singleton, ByteArray.size_append, List.size_toByteArray,
        String.length_utf8EncodeChar]
      omega
    exact beq_false_of_ne hSize

def withCapacity (n : Nat) : EncodedBuffer := ⟨Buffer.withCapacity n, [], rfl⟩

def push (b : EncodedBuffer) (c : Char) : EncodedBuffer where
  buffer := b.buffer.appendChar c
  chars := b.chars ++ [c]
  bytes_eq := by
    rw [Buffer.appendChar, Buffer.appendString, Buffer.bytes_append, b.bytes_eq,
      toUTF8_ofList_append, String.singleton_eq_ofList]

def clear (b : EncodedBuffer) : EncodedBuffer := ⟨b.buffer.clear, [], rfl⟩

instance : TextBuffer EncodedBuffer where
  withCapacity := withCapacity
  push := push
  clear := clear
  isEmpty b := b.chars.isEmpty
  startsWithDigit b := b.chars.head?.any Char.isDigit
  text b := String.ofList b.chars

theorem isHom_buffer : TextBuffer.IsHom buffer where
  withCapacity _ := rfl
  push _ _ := rfl
  clear _ := rfl
  isEmpty := isEmpty_eq
  startsWithDigit b := by
    show (b.buffer.bytes[0]?.any fun byte => (Char.ofNat byte.toNat).isDigit) = _
    rw [b.bytes_eq]
    exact toUTF8_startsWithDigit b.chars
  text := snapshot_eq

theorem isHom_chars : TextBuffer.IsHom chars where
  withCapacity _ := rfl
  push _ _ := rfl
  clear _ := rfl
  isEmpty _ := rfl
  startsWithDigit _ := rfl
  text _ := rfl

end EncodedBuffer

/-- **Collecting bytes is collecting characters.** -/
theorem Scan.events_buffer_eq (limit : Option Nat) (text : String) :
    Scan.events Buffer limit text = Scan.events (List Char) limit text := by
  rw [Scan.events_of_hom EncodedBuffer.isHom_buffer, Scan.events_of_hom EncodedBuffer.isHom_chars]

/-- The events of a text, collected as lists of characters. -/
theorem events_eq (text : String) :
    events text =
      Scan.eventsFrom (some Scan.maxExpansionDepth) (Scan.Config.initial : Scan.Config (List Char))
        text.toList :=
  Scan.events_buffer_eq _ text

end ShellLexer
