import ShellLexer.Proofs.ReadLoop.Encoding
import Mathlib.Data.List.Forall2

/-!
# Reading encoded characters

Bytes that encode a text are read as that text without a replacement, and not
only when they are valid as a whole.  A character is encoded by a lead byte that
is in the table (`followers?`) and by as many bytes behind it as the table asks
for, each in its range (`Encodes`), so reading stops right behind the character
with the character.

* `decodeBytes_encode_append`: a text is read as it is, whatever bytes are
  behind it.
* `decode_eq_decodeBytes`: to take valid bytes as they are is to read them
  character by character.
-/

namespace ShellLexer.Text.Utf8

/-! ## What a lead byte asks for -/

theorem contains_iff {r : ByteRange} {b : UInt8} :
    r.contains b ↔ r.low.toNat ≤ b.toNat ∧ b.toNat ≤ r.high.toNat := by
  simp [ByteRange.contains, UInt8.le_iff_toNat_le]

/-- The table of lead bytes by their values. -/
theorem followers?_eq (lead : UInt8) :
    followers? lead =
      if lead.toNat ≤ 0x7F then some []
      else if lead.toNat < 0xC2 then none
      else if lead.toNat ≤ 0xDF then some [.continuation]
      else if lead.toNat = 0xE0 then some [⟨0xA0, 0xBF⟩, .continuation]
      else if lead.toNat = 0xED then some [⟨0x80, 0x9F⟩, .continuation]
      else if lead.toNat ≤ 0xEF then some [.continuation, .continuation]
      else if lead.toNat = 0xF0 then some [⟨0x90, 0xBF⟩, .continuation, .continuation]
      else if lead.toNat ≤ 0xF3 then some [.continuation, .continuation, .continuation]
      else if lead.toNat = 0xF4 then some [⟨0x80, 0x8F⟩, .continuation, .continuation]
      else none := by
  simp only [followers?, UInt8.le_iff_toNat_le, UInt8.lt_iff_toNat_lt, beq_iff_eq,
    ← UInt8.toNat_inj, UInt8.reduceToNat]

/-- The byte that carries the last six bits of `n` behind a lead byte. -/
def continuationByte (n : Nat) : UInt8 := UInt8.ofNat (n % 0x40 + 0x80)

theorem toNat_continuationByte (n : Nat) : (continuationByte n).toNat = n % 0x40 + 0x80 := by
  rw [continuationByte, UInt8.toNat_ofNat']
  omega

theorem contains_of_bounds {r : ByteRange} {n : Nat} (hLow : r.low.toNat ≤ n % 0x40 + 0x80)
    (hHigh : n % 0x40 + 0x80 ≤ r.high.toNat) : r.contains (continuationByte n) := by
  rw [contains_iff, toNat_continuationByte]
  exact ⟨hLow, hHigh⟩

theorem contains_continuationByte (n : Nat) :
    ByteRange.continuation.contains (continuationByte n) :=
  contains_of_bounds (show 0x80 ≤ _ by omega) (show _ ≤ 0xBF by omega)

theorem followers?_one {lead : UInt8} (h : lead.toNat ≤ 0x7F) : followers? lead = some [] := by
  rw [followers?_eq, if_pos h]

theorem followers?_two {lead : UInt8} (h : 0xC2 ≤ lead.toNat) (h' : lead.toNat ≤ 0xDF) :
    followers? lead = some [.continuation] := by
  rw [followers?_eq, if_neg (by omega), if_neg (by omega), if_pos h']

/-- Behind `E0` six small bits would be overlong, and behind `ED` great ones would make a
surrogate. -/
theorem exists_followers?_three {lead : UInt8} (h : lead.toNat / 0x10 = 0xE) :
    ∃ second, followers? lead = some [second, .continuation] ∧
      ∀ n, (lead.toNat = 0xE0 → 0x20 ≤ n % 0x40) → (lead.toNat = 0xED → n % 0x40 < 0x20) →
        second.contains (continuationByte n) := by
  rw [followers?_eq, if_neg (by omega), if_neg (by omega), if_neg (by omega)]
  split
  · exact ⟨_, rfl, fun n hLow _ =>
      contains_of_bounds (show 0xA0 ≤ _ by omega) (show _ ≤ 0xBF by omega)⟩
  · split
    · exact ⟨_, rfl, fun n _ hHigh =>
        contains_of_bounds (show 0x80 ≤ _ by omega) (show _ ≤ 0x9F by omega)⟩
    · rw [if_pos (by omega)]
      exact ⟨_, rfl, fun n _ _ => contains_continuationByte n⟩

/-- Behind `F0` six small bits would be overlong, and behind `F4` great ones would be past the last
code point. -/
theorem exists_followers?_four {lead : UInt8} (h : 0xF0 ≤ lead.toNat) (h' : lead.toNat ≤ 0xF4) :
    ∃ second, followers? lead = some [second, .continuation, .continuation] ∧
      ∀ n, (lead.toNat = 0xF0 → 0x10 ≤ n % 0x40) → (lead.toNat = 0xF4 → n % 0x40 < 0x10) →
        second.contains (continuationByte n) := by
  rw [followers?_eq, if_neg (by omega), if_neg (by omega), if_neg (by omega), if_neg (by omega),
    if_neg (by omega), if_neg (by omega)]
  split
  · exact ⟨_, rfl, fun n hLow _ =>
      contains_of_bounds (show 0x90 ≤ _ by omega) (show _ ≤ 0xBF by omega)⟩
  · split
    · exact ⟨_, rfl, fun n _ _ => contains_continuationByte n⟩
    · rw [if_pos (by omega)]
      exact ⟨_, rfl, fun n _ hHigh =>
        contains_of_bounds (show 0x80 ≤ _ by omega) (show _ ≤ 0x8F by omega)⟩

/-! ## The bytes of a character -/

/-- A lead byte and the bytes behind it encode `c`, and are what reading looks for. -/
structure Encodes (c : Char) (lead : UInt8) (tail : List UInt8) : Prop where
  bytes : String.utf8EncodeChar c = lead :: tail
  expected : ∃ ranges, followers? lead = some ranges ∧
    List.Forall₂ (fun r b => r.contains b) ranges tail
  value : character lead tail = c

section Encodes

/-! One case for each number of bytes; the bounds of the code point decide which bytes there are,
and with them how the branches of `String.utf8EncodeChar` are taken. -/

variable {c : Char}

theorem ofNat_eq_of_toNat {n : Nat} (h : n = c.toNat) : Char.ofNat n = c := by
  rw [h, Char.ofNat_toNat]

theorem encodes_one (h : c.toNat ≤ 0x7F) : Encodes c (UInt8.ofNat c.toNat) [] := by
  have hLead := UInt8.toNat_ofNat' (n := c.toNat)
  refine ⟨if_pos h, ⟨[], followers?_one (by omega), .nil⟩, ofNat_eq_of_toNat ?_⟩
  show (UInt8.ofNat _).toNat = _
  omega

theorem encodes_two (h : 0x7F < c.toNat) (h' : c.toNat ≤ 0x7FF) :
    Encodes c (UInt8.ofNat (c.toNat / 64 % 0x20 + 0xC0)) [continuationByte c.toNat] := by
  have hLead := UInt8.toNat_ofNat' (n := c.toNat / 64 % 0x20 + 0xC0)
  refine ⟨?_, ⟨_, followers?_two (by omega) (by omega), ?_⟩, ofNat_eq_of_toNat ?_⟩
  · exact (if_neg (Nat.not_le.mpr h)).trans (if_pos h')
  · exact .cons (contains_continuationByte _) .nil
  · show (UInt8.ofNat _).toNat % 0x20 * 0x40 + (continuationByte _).toNat % 0x40 = _
    rw [hLead, toNat_continuationByte]
    omega

theorem encodes_three (h : 0x7FF < c.toNat) (h' : c.toNat ≤ 0xFFFF) :
    Encodes c (UInt8.ofNat (c.toNat / 4096 % 0x10 + 0xE0))
      [continuationByte (c.toNat / 64), continuationByte c.toNat] := by
  have hValid : c.toNat < 0xD800 ∨ 0xDFFF < c.toNat ∧ c.toNat < 0x110000 := c.valid
  have hTwo : 0x7F < c.toNat := by omega
  have hLead := UInt8.toNat_ofNat' (n := c.toNat / 4096 % 0x10 + 0xE0)
  obtain ⟨second, hFollowers, hSecond⟩ := exists_followers?_three
    (show (UInt8.ofNat (c.toNat / 4096 % 0x10 + 0xE0)).toNat / 0x10 = 0xE by omega)
  refine ⟨?_, ⟨_, hFollowers, ?_⟩, ofNat_eq_of_toNat ?_⟩
  · exact (if_neg (Nat.not_le.mpr hTwo)).trans ((if_neg (Nat.not_le.mpr h)).trans (if_pos h'))
  · refine .cons (hSecond _ ?_ ?_) (.cons (contains_continuationByte _) .nil)
    -- three bytes are not needed below `0x800`, and `hValid` leaves no surrogate behind `ED`
    · omega
    · omega
  · show ((UInt8.ofNat _).toNat % 0x10 * 0x40 + (continuationByte _).toNat % 0x40) * 0x40 +
      (continuationByte _).toNat % 0x40 = _
    rw [hLead, toNat_continuationByte, toNat_continuationByte]
    omega

theorem encodes_four (h : 0xFFFF < c.toNat) :
    Encodes c (UInt8.ofNat (c.toNat / 262144 % 0x08 + 0xF0))
      [continuationByte (c.toNat / 4096), continuationByte (c.toNat / 64),
        continuationByte c.toNat] := by
  have hValid : c.toNat < 0xD800 ∨ 0xDFFF < c.toNat ∧ c.toNat < 0x110000 := c.valid
  have hTwo : 0x7F < c.toNat := by omega
  have hThree : 0x7FF < c.toNat := by omega
  have hLead := UInt8.toNat_ofNat' (n := c.toNat / 262144 % 0x08 + 0xF0)
  obtain ⟨second, hFollowers, hSecond⟩ := exists_followers?_four
    (show 0xF0 ≤ (UInt8.ofNat (c.toNat / 262144 % 0x08 + 0xF0)).toNat by omega) (by omega)
  refine ⟨?_, ⟨_, hFollowers, ?_⟩, ofNat_eq_of_toNat ?_⟩
  · exact (if_neg (Nat.not_le.mpr hTwo)).trans
      ((if_neg (Nat.not_le.mpr hThree)).trans (if_neg (Nat.not_le.mpr h)))
  · refine .cons (hSecond _ ?_ ?_)
      (.cons (contains_continuationByte _) (.cons (contains_continuationByte _) .nil))
    -- four bytes are not needed below `0x10000`, and `hValid` ends the code points behind `F4 8F`
    · omega
    · omega
  · show (((UInt8.ofNat _).toNat % 0x08 * 0x40 + (continuationByte _).toNat % 0x40) * 0x40 +
      (continuationByte _).toNat % 0x40) * 0x40 + (continuationByte _).toNat % 0x40 = _
    rw [hLead, toNat_continuationByte, toNat_continuationByte, toNat_continuationByte]
    omega

end Encodes

theorem exists_encodes (c : Char) : ∃ lead tail, Encodes c lead tail := by
  by_cases hOne : c.toNat ≤ 0x7F
  · exact ⟨_, _, encodes_one hOne⟩
  by_cases hTwo : c.toNat ≤ 0x7FF
  · exact ⟨_, _, encodes_two (Nat.not_le.mp hOne) hTwo⟩
  by_cases hThree : c.toNat ≤ 0xFFFF
  · exact ⟨_, _, encodes_three (Nat.not_le.mp hTwo) hThree⟩
  · exact ⟨_, _, encodes_four (Nat.not_le.mp hThree)⟩

/-! ## Texts -/

theorem matching_append {ranges : List ByteRange} {tail : List UInt8}
    (h : List.Forall₂ (fun r b => r.contains b) ranges tail) (rest : List UInt8) :
    matching ranges (tail ++ rest) = tail := by
  induction h with
  | nil => rfl
  | cons hFirst _ ih => rw [List.cons_append, matching, if_pos hFirst, ih]

theorem decodeBytes_utf8EncodeChar_append (c : Char) (rest : List UInt8) :
    decodeBytes (String.utf8EncodeChar c ++ rest) = c :: decodeBytes rest := by
  obtain ⟨lead, tail, hBytes, ⟨ranges, hFollowers, hRanges⟩, hValue⟩ := exists_encodes c
  have hMatching := matching_append hRanges rest
  have hLength : tail.length == ranges.length := beq_iff_eq.mpr hRanges.length_eq.symm
  rw [hBytes, List.cons_append, decodeBytes, hFollowers]
  simp only [hMatching, if_pos hLength, hValue, List.drop_left]

/-- **A text is read as it is**, whatever bytes are behind it. -/
theorem decodeBytes_encode_append (cs : List Char) (rest : List UInt8) :
    decodeBytes (encode cs ++ rest) = cs ++ decodeBytes rest := by
  induction cs with
  | nil => rfl
  | cons c cs ih =>
    show decodeBytes (String.utf8EncodeChar c ++ encode cs ++ rest) = c :: (cs ++ decodeBytes rest)
    rw [List.append_assoc, decodeBytes_utf8EncodeChar_append, ih]

theorem decodeBytes_encode (cs : List Char) : decodeBytes (encode cs) = cs := by
  have h := decodeBytes_encode_append cs []
  rwa [decodeBytes, List.append_nil, List.append_nil] at h

/-- **To take valid bytes as they are is to read them character by character.** -/
theorem decode_eq_decodeBytes (bytes : ByteArray) :
    decode bytes = String.ofList (decodeBytes bytes.toList) := by
  unfold decode
  cases hRead : String.fromUTF8? bytes with
  | none => rfl
  | some s =>
    rw [← toUTF8_of_fromUTF8? hRead, toList_toUTF8, decodeBytes_encode, String.ofList_toList]
    rfl

end ShellLexer.Text.Utf8
