import ShellLexer.TextBuffer
import ShellLexer.Text.Utf8

/-!
# Byte buffers

A buffer of bytes that keeps account of the room it has.  An append that needs
more room than there is makes room for half as much again, so that a run of
appends moves each byte a bounded number of times; room once made is kept.

Bytes may be appended in any pieces.  The text of a buffer is its bytes read as
UTF-8, so it is exact whenever they are the encoding of a text, however that
was cut up.
-/

namespace ShellLexer

/-- Bytes, and the number of bytes there is room for. -/
structure Buffer where
  bytes : ByteArray
  capacity : Nat

namespace Buffer

/-- The room words and blanks start with. -/
def wordCapacity : Nat := 40

/-- The room quoted strings start with. -/
def stringCapacity : Nat := 128

def withCapacity (capacity : Nat) : Buffer := ⟨ByteArray.empty, capacity⟩

def length (b : Buffer) : Nat := b.bytes.size

def isEmpty (b : Buffer) : Bool := b.bytes.size == 0

/-- The room to have when `needed` bytes must fit: unchanged if they do, else half as much again
as is needed. -/
def grow (capacity needed : Nat) : Nat :=
  if needed ≤ capacity then capacity else needed + needed / 2

def append (b : Buffer) (data : ByteArray) : Buffer :=
  let ⟨bytes, capacity⟩ := b
  ⟨bytes ++ data, grow capacity (bytes.size + data.size)⟩

def appendString (b : Buffer) (s : String) : Buffer := b.append s.toUTF8

def appendChar (b : Buffer) (c : Char) : Buffer := b.appendString (String.singleton c)

/-- The bytes read as text; the buffer stays as it is. -/
def snapshot (b : Buffer) : String := Text.Utf8.decode b.bytes

/-- A buffer with nothing in it that keeps its room. -/
def clear (b : Buffer) : Buffer := ⟨ByteArray.empty, b.capacity⟩

/-- The text of a buffer, and the buffer cleared. -/
def take (b : Buffer) : String × Buffer := (b.snapshot, b.clear)

theorem bytes_append (b : Buffer) (data : ByteArray) :
    (b.append data).bytes = b.bytes ++ data := rfl

theorem capacity_append (b : Buffer) (data : ByteArray) :
    (b.append data).capacity = grow b.capacity (b.length + data.size) := rfl

theorem length_append (b : Buffer) (data : ByteArray) :
    (b.append data).length = b.length + data.size := by
  simp [append, length]

theorem le_grow (capacity needed : Nat) : needed ≤ grow capacity needed := by
  unfold grow
  split <;> omega

end Buffer

instance : TextBuffer Buffer where
  withCapacity := Buffer.withCapacity
  push := Buffer.appendChar
  clear := Buffer.clear
  isEmpty := Buffer.isEmpty
  startsWithDigit b := b.bytes[0]?.any fun byte => (Char.ofNat byte.toNat).isDigit
  text := Buffer.snapshot

end ShellLexer
