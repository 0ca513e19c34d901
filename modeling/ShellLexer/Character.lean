/-!
# Character classes

The classes of characters a shell command line is read by.  All of them are
sets of ASCII characters; a character outside every class is unexpected
wherever it stands outside quotes.

`isBlank` is white space within a line, and `isWhitespace` adds the newline.
`isNameChar` is what words and names are made of.  `shellPunctuation` lists the
punctuation of the shell; the underscore is missing there because it belongs
to names.
-/

namespace ShellLexer

/-- Space, tab and carriage return: the white space that does not end a line. -/
def isBlank (c : Char) : Bool := c == ' ' || c == '\t' || c == '\r'

/-- A blank or a newline. -/
def isWhitespace (c : Char) : Bool := isBlank c || c == '\n'

/-- The ASCII letters. -/
def isLetter (c : Char) : Bool := c.isAlpha

/-- The ASCII digits. -/
def isDigit (c : Char) : Bool := c.isDigit

/-- Letters and the underscore: the characters a name may start with. -/
def isNameStart (c : Char) : Bool := isLetter c || c == '_'

/-- Letters, digits and the underscore: the characters of words and names. -/
def isNameChar (c : Char) : Bool := isNameStart c || isDigit c

/-- The punctuation known to the shell, whether or not it has a token of its own. -/
def shellPunctuation : String := "`~!@#$%^&*()+-=\x7b\x7d[]|\\:;\"'<>,.?/"

/-- Whether `c` is one of the characters of `choices`. -/
def isOneOf (c : Char) (choices : String) : Bool := choices.toList.contains c

def isShellPunctuation (c : Char) : Bool := isOneOf c shellPunctuation

theorem isNameChar_of_isNameStart {c : Char} (hStart : isNameStart c) : isNameChar c := by
  simp [isNameChar, hStart]

end ShellLexer
