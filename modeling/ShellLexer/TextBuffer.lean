/-!
# Text buffers

What a scan needs of a place to collect the text of a token in.  The text is
collected character by character and read out once the token is complete.
-/

namespace ShellLexer

/-- A place to collect characters in. -/
class TextBuffer (β : Type) where
  /-- An empty buffer, with room for so many bytes. -/
  withCapacity : Nat → β
  /-- The buffer with one more character at its end. -/
  push : β → Char → β
  /-- The same buffer with nothing in it. -/
  clear : β → β
  isEmpty : β → Bool
  /-- Whether the text in the buffer starts with an ASCII digit. -/
  startsWithDigit : β → Bool
  /-- The text that was collected. -/
  text : β → String

/-- The plainest buffer: the list of the characters themselves. -/
instance : TextBuffer (List Char) where
  withCapacity _ := []
  push cs c := cs ++ [c]
  clear _ := []
  isEmpty cs := cs.isEmpty
  startsWithDigit cs := cs.head?.any Char.isDigit
  text cs := String.ofList cs

end ShellLexer
