import ShellLexer.Text.Utf8
import Mathlib.Data.List.Induction

/-!
# The bytes of a text

`encode` lists the bytes of a text, and `decode?_eq_ok_iff` says that reading
bytes as text undoes it and nothing else.  A byte below `0x80` stands for one
character wherever it is met (`eq_of_mem_utf8EncodeChar`), so bytes can be cut
there without a look at what they encode: `decode?_append_ascii` reads the
bytes in front of such a byte on their own.
-/

namespace ShellLexer.Text.Utf8

/-- The bytes that encode a text. -/
def encode (cs : List Char) : List UInt8 := cs.flatMap String.utf8EncodeChar

theorem encode_append (cs ds : List Char) : encode (cs ++ ds) = encode cs ++ encode ds :=
  List.flatMap_append

theorem encode_concat (cs : List Char) (c : Char) :
    encode (cs ++ [c]) = encode cs ++ String.utf8EncodeChar c := by
  rw [encode_append]
  exact congrArg (encode cs ++ ·) (List.append_nil _)

/-! ## Arrays of bytes -/

theorem toList_loop (bytes : ByteArray) (i : Nat) (read : List UInt8) :
    ByteArray.toList.loop bytes i read = read.reverse ++ bytes.data.toList.drop i := by
  induction hLeft : bytes.size - i generalizing i read with
  | zero =>
    have hEnd : bytes.data.toList.drop i = [] := by
      apply List.drop_eq_nil_of_le
      show bytes.size ≤ i
      omega
    rw [ByteArray.toList.loop, if_neg (by omega), hEnd, List.append_nil]
  | succ n ih =>
    have hSize : i < bytes.size := by omega
    have hi : i < bytes.data.toList.length := hSize
    have hGet : bytes.get! i = bytes.data.toList[i] := by
      show bytes.data[i]! = _
      rw [getElem!_pos bytes.data i hi]
      rfl
    rw [ByteArray.toList.loop, if_pos hSize, ih (i + 1) (bytes.get! i :: read) (by omega),
      List.drop_eq_getElem_cons hi, List.reverse_cons, List.append_assoc, hGet]
    rfl

theorem toList_toByteArray (bs : List UInt8) : bs.toByteArray.toList = bs := by
  rw [ByteArray.toList, toList_loop, List.toList_data_toByteArray]
  rfl

theorem toUTF8_eq_encode (s : String) : s.toUTF8 = (encode s.toList).toByteArray := by
  conv_lhs => rw [← String.ofList_toList (s := s)]
  rw [String.toUTF8_eq_toByteArray, String.toByteArray_ofList]
  rfl

theorem toList_toUTF8 (s : String) : s.toUTF8.toList = encode s.toList := by
  rw [toUTF8_eq_encode, toList_toByteArray]

/-! ## Reading -/

theorem toUTF8_of_fromUTF8? {bytes : ByteArray} {s : String}
    (h : String.fromUTF8? bytes = some s) : s.toUTF8 = bytes := by
  unfold String.fromUTF8? at h
  split at h
  · obtain rfl := Option.some.inj h
    rfl
  · contradiction

/-- **Reading bytes undoes encoding a text**, and reads nothing else. -/
theorem decode?_eq_ok_iff {bs : List UInt8} {s : String} :
    decode? bs.toByteArray = .ok s ↔ bs = encode s.toList := by
  constructor
  · intro h
    unfold decode? at h
    split at h
    · rename_i t hRead
      obtain rfl : t = s := Except.ok.inj h
      have hBytes := toUTF8_of_fromUTF8? hRead
      rw [toUTF8_eq_encode] at hBytes
      exact (List.toByteArray_inj.mp hBytes).symm
    · contradiction
  · rintro rfl
    rw [← toUTF8_eq_encode]
    exact decode?_toUTF8 s

theorem decode?_encode (s : String) : decode? (encode s.toList).toByteArray = .ok s :=
  decode?_eq_ok_iff.mpr rfl

/-- Bytes that encode no text are refused in one way. -/
theorem eq_notUtf8_of_decode?_eq_error {bytes : ByteArray} {e : InvalidText}
    (_ : decode? bytes = .error e) : e = .notUtf8 := by
  cases e
  rfl

/-! ## Bytes below `0x80` -/

/-- Only the character of its own code point has a byte below `0x80` in its encoding, and no other
byte beside it. -/
theorem eq_of_mem_utf8EncodeChar {c : Char} {b : UInt8} (hb : b.toNat < 0x80)
    (h : b ∈ String.utf8EncodeChar c) : c.toNat = b.toNat ∧ String.utf8EncodeChar c = [b] := by
  have hHigh : ∀ n, 0x80 ≤ n → n < 0x100 → b ≠ UInt8.ofNat n := by
    rintro n hn hn' rfl
    rw [UInt8.toNat_ofNat', Nat.mod_eq_of_lt hn'] at hb
    omega
  have hc : c.val.toNat = c.toNat := rfl
  unfold String.utf8EncodeChar at h ⊢
  simp only [hc] at h ⊢
  split at h
  · rename_i hSmall
    obtain rfl := List.mem_singleton.mp h
    rw [if_pos hSmall, UInt8.toNat_ofNat', Nat.mod_eq_of_lt (by omega)]
    exact ⟨rfl, rfl⟩
  · exfalso
    split at h
    · simp only [List.mem_cons, List.not_mem_nil, or_false] at h
      rcases h with h | h <;> exact hHigh _ (by omega) (by omega) h
    · split at h
      · simp only [List.mem_cons, List.not_mem_nil, or_false] at h
        rcases h with h | h | h <;> exact hHigh _ (by omega) (by omega) h
      · simp only [List.mem_cons, List.not_mem_nil, or_false] at h
        rcases h with h | h | h | h <;> exact hHigh _ (by omega) (by omega) h

section Ascii

/-! `c` is a character whose encoding is the byte `b`. -/

variable {c : Char} {b : UInt8} (hb : b.toNat < 0x80) (hc : String.utf8EncodeChar c = [b])
include hb hc

theorem eq_of_byte_mem {d : Char} (h : b ∈ String.utf8EncodeChar d) : d = c := by
  have hMem : b ∈ String.utf8EncodeChar c := by
    rw [hc]
    exact List.mem_singleton.mpr rfl
  have hNat : d.toNat = c.toNat :=
    (eq_of_mem_utf8EncodeChar hb h).1.trans (eq_of_mem_utf8EncodeChar hb hMem).1.symm
  exact Char.toNat_inj.mp hNat

/-- The byte is met in a text exactly where the character is. -/
theorem mem_encode_iff {cs : List Char} : b ∈ encode cs ↔ c ∈ cs := by
  constructor
  · intro h
    obtain ⟨d, hd, hByte⟩ := List.mem_flatMap.mp h
    exact eq_of_byte_mem hb hc hByte ▸ hd
  · intro h
    refine List.mem_flatMap.mpr ⟨c, h, ?_⟩
    rw [hc]
    exact List.mem_singleton.mpr rfl

/-- Bytes that end with it encode a text that ends with the character. -/
theorem exists_of_encode_eq_concat {cs : List Char} {bs : List UInt8}
    (h : encode cs = bs ++ [b]) : ∃ ds, cs = ds ++ [c] ∧ encode ds = bs := by
  induction cs using List.reverseRecOn with
  | nil => exact absurd h.symm (List.append_ne_nil_of_right_ne_nil bs (List.cons_ne_nil b []))
  | append_singleton ds d _ =>
    rw [encode_concat] at h
    have hLast : b ∈ String.utf8EncodeChar d := by
      have hEnd := congrArg List.getLast? h
      rw [List.getLast?_append, List.getLast?_concat] at hEnd
      cases hTail : (String.utf8EncodeChar d).getLast? with
      | none => exact absurd (List.getLast?_eq_none_iff.mp hTail) String.utf8EncodeChar_ne_nil
      | some e =>
        rw [hTail] at hEnd
        obtain rfl : e = b := Option.some.inj hEnd
        exact List.mem_of_getLast? hTail
    obtain rfl := eq_of_byte_mem hb hc hLast
    rw [hc] at h
    exact ⟨ds, rfl, List.append_cancel_right h⟩

theorem getLast?_encode_eq_some_iff {cs : List Char} :
    (encode cs).getLast? = some b ↔ cs.getLast? = some c := by
  constructor
  · intro h
    obtain ⟨bs, hbs⟩ := List.getLast?_eq_some_iff.mp h
    obtain ⟨ds, rfl, -⟩ := exists_of_encode_eq_concat hb hc hbs
    exact List.getLast?_concat
  · intro h
    obtain ⟨ds, rfl⟩ := List.getLast?_eq_some_iff.mp h
    rw [encode_concat, hc]
    exact List.getLast?_concat

/-- **A byte below `0x80` at the end is read apart from the bytes in front of it.** -/
theorem decode?_append_ascii (bs : List UInt8) :
    decode? (bs ++ [b]).toByteArray =
      (decode? bs.toByteArray).map fun s => String.ofList (s.toList ++ [c]) := by
  cases hFront : decode? bs.toByteArray with
  | ok s =>
    refine decode?_eq_ok_iff.mpr ?_
    rw [decode?_eq_ok_iff.mp hFront, String.toList_ofList, encode_concat, hc]
  | error e =>
    cases hWhole : decode? (bs ++ [b]).toByteArray with
    | ok t =>
      obtain ⟨ds, -, hds⟩ := exists_of_encode_eq_concat hb hc (decode?_eq_ok_iff.mp hWhole).symm
      have hOk : decode? bs.toByteArray = .ok (String.ofList ds) := by
        refine decode?_eq_ok_iff.mpr ?_
        rw [String.toList_ofList, hds]
      rw [hFront] at hOk
      contradiction
    | error e' =>
      rw [eq_notUtf8_of_decode?_eq_error hFront, eq_notUtf8_of_decode?_eq_error hWhole]
      rfl

end Ascii

end ShellLexer.Text.Utf8
