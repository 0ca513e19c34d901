/-!
# Reading bytes as text

`decode?` refuses bytes that are not UTF-8, and `decode` reads bytes as UTF-8
whatever they are.  Valid bytes are the text they encode (`decode_toUTF8`).
Elsewhere each maximal invalid subpart is read as one replacement character: a
lead byte together with as many of the bytes after it as still begin the
encoding of a character, or a single byte that begins none.
-/

namespace ShellLexer.Text.Utf8

/-- What is read in place of bytes that encode nothing. -/
def replacement : Char := '\uFFFD'

/-- An interval of bytes, both ends included. -/
structure ByteRange where
  low : UInt8
  high : UInt8

namespace ByteRange

def contains (r : ByteRange) (b : UInt8) : Bool := r.low ≤ b && b ≤ r.high

/-- The bytes that continue a character where nothing narrower is asked for. -/
def continuation : ByteRange := ⟨0x80, 0xBF⟩

end ByteRange

open ByteRange in
/-- The bytes that may come after a lead byte, position by position; none if it is no lead byte.
The narrower second ranges keep out overlong forms, surrogates and code points above U+10FFFF. -/
def followers? (lead : UInt8) : Option (List ByteRange) :=
  if lead ≤ 0x7F then some []
  else if lead < 0xC2 then none
  else if lead ≤ 0xDF then some [continuation]
  else if lead == 0xE0 then some [⟨0xA0, 0xBF⟩, continuation]
  else if lead == 0xED then some [⟨0x80, 0x9F⟩, continuation]
  else if lead ≤ 0xEF then some [continuation, continuation]
  else if lead == 0xF0 then some [⟨0x90, 0xBF⟩, continuation, continuation]
  else if lead ≤ 0xF3 then some [continuation, continuation, continuation]
  else if lead == 0xF4 then some [⟨0x80, 0x8F⟩, continuation, continuation]
  else none

/-- The bytes at the front that lie in the ranges, as far as they all do. -/
def matching : List ByteRange → List UInt8 → List UInt8
  | r :: ranges, b :: bytes => if r.contains b then b :: matching ranges bytes else []
  | _, _ => []

/-- The code point carried by a lead byte with `n` bytes after it. -/
def leadBits (lead : UInt8) : Nat → Nat
  | 0 => lead.toNat
  | 1 => lead.toNat % 0x20
  | 2 => lead.toNat % 0x10
  | _ => lead.toNat % 0x08

/-- The character encoded by a lead byte and the bytes that belong to it. -/
def character (lead : UInt8) (tail : List UInt8) : Char :=
  Char.ofNat (tail.foldl (fun value b => value * 0x40 + b.toNat % 0x40) (leadBits lead tail.length))

/-- Valid encodings are read as their characters, and each maximal invalid subpart as a
replacement character. -/
def decodeBytes : List UInt8 → List Char
  | [] => []
  | lead :: rest =>
    match followers? lead with
    | none => replacement :: decodeBytes rest
    | some ranges =>
      let tail := matching ranges rest
      let c := if tail.length == ranges.length then character lead tail else replacement
      c :: decodeBytes (rest.drop tail.length)
termination_by bytes => bytes.length
decreasing_by
  · simp only [List.length_cons]; omega
  · simp only [List.length_drop, List.length_cons]; omega

/-- Bytes that should have been text and are not UTF-8. -/
inductive InvalidText
  | notUtf8
  deriving DecidableEq

def InvalidText.message : InvalidText → String
  | notUtf8 => "stream did not contain valid UTF-8"

/-- The text that the bytes encode, if they encode one. -/
def decode? (bytes : ByteArray) : Except InvalidText String :=
  match String.fromUTF8? bytes with
  | some s => .ok s
  | none => .error .notUtf8

/-- Bytes that are valid as a whole are taken as they are. -/
def decode (bytes : ByteArray) : String :=
  (String.fromUTF8? bytes).getD (String.ofList (decodeBytes bytes.toList))

theorem fromUTF8?_toUTF8 (s : String) : String.fromUTF8? s.toUTF8 = some s := by
  simp only [String.fromUTF8?, String.toUTF8_eq_toByteArray, dif_pos s.isValidUTF8]
  rfl

/-- Reading undoes encoding. -/
theorem decode_toUTF8 (s : String) : decode s.toUTF8 = s := by
  rw [decode, fromUTF8?_toUTF8, Option.getD_some]

theorem decode?_toUTF8 (s : String) : decode? s.toUTF8 = .ok s := by
  rw [decode?, fromUTF8?_toUTF8]

end ShellLexer.Text.Utf8
