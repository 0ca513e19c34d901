/-!
# Kinds of tokens

A token is a word or a name, layout, a piece of quoted text, punctuation, or a
reserved word.  Punctuation and reserved words are spelled in exactly one way,
and so is the newline; every other kind has a text of its own in each token.

Each kind has a label, the upper-case name it is printed under, and the label
determines the kind (`Kind.ofLabel?`).
-/

namespace ShellLexer

/-- Punctuation that has a token of its own. -/
inductive Punctuation
  | pipe | ampersand | semicolon | less | greater
  | leftParen | rightParen | dollar | backtick | backslash
  | quote | doubleQuote | plus | dash | asterisk
  | slash | question | leftBracket | rightBracket | hash
  | tilde | equals | percent | leftBrace | rightBrace
  | bang | colon
  | andIf | orIf | doubleSemicolon | doubleLess | doubleGreater
  | lessAnd | greaterAnd | lessGreater | doubleLessDash | clobber
  | doubleLeftBracket | doubleRightBracket
  deriving DecidableEq

namespace Punctuation

/-- All punctuation, from one character to three. -/
def all : List Punctuation :=
  [pipe, ampersand, semicolon, less, greater, leftParen, rightParen, dollar, backtick, backslash,
   quote, doubleQuote, plus, dash, asterisk, slash, question, leftBracket, rightBracket, hash,
   tilde, equals, percent, leftBrace, rightBrace, bang, colon,
   andIf, orIf, doubleSemicolon, doubleLess, doubleGreater, lessAnd, greaterAnd, lessGreater,
   doubleLessDash, clobber, doubleLeftBracket, doubleRightBracket]

/-- The characters a piece of punctuation is written with. -/
def chars : Punctuation → List Char
  | pipe => ['|']
  | ampersand => ['&']
  | semicolon => [';']
  | less => ['<']
  | greater => ['>']
  | leftParen => ['(']
  | rightParen => [')']
  | dollar => ['$']
  | backtick => ['\x60']
  | backslash => ['\\']
  | quote => ['\'']
  | doubleQuote => ['"']
  | plus => ['+']
  | dash => ['-']
  | asterisk => ['*']
  | slash => ['/']
  | question => ['?']
  | leftBracket => ['[']
  | rightBracket => [']']
  | hash => ['#']
  | tilde => ['~']
  | equals => ['=']
  | percent => ['%']
  | leftBrace => ['{']
  | rightBrace => ['}']
  | bang => ['!']
  | colon => [':']
  | andIf => ['&', '&']
  | orIf => ['|', '|']
  | doubleSemicolon => [';', ';']
  | doubleLess => ['<', '<']
  | doubleGreater => ['>', '>']
  | lessAnd => ['<', '&']
  | greaterAnd => ['>', '&']
  | lessGreater => ['<', '>']
  | doubleLessDash => ['<', '<', '-']
  | clobber => ['>', '|']
  | doubleLeftBracket => ['[', '[']
  | doubleRightBracket => [']', ']']

def spelling (p : Punctuation) : String := String.ofList p.chars

/-- The upper-case name of a piece of punctuation. -/
def label : Punctuation → String
  | pipe => "PIPE"
  | ampersand => "AMPERSAND"
  | semicolon => "SEMI"
  | less => "LESS"
  | greater => "GREATER"
  | leftParen => "LPAREN"
  | rightParen => "RPAREN"
  | dollar => "DOLLAR"
  | backtick => "BACKTICK"
  | backslash => "BACKSLASH"
  | quote => "QUOTE"
  | doubleQuote => "DQUOTE"
  | plus => "PLUS"
  | dash => "DASH"
  | asterisk => "ASTERISK"
  | slash => "SLASH"
  | question => "QUESTION"
  | leftBracket => "LBRACKET"
  | rightBracket => "RBRACKET"
  | hash => "HASH"
  | tilde => "TILDE"
  | equals => "EQUALS"
  | percent => "PERCENT"
  | leftBrace => "LBRACE"
  | rightBrace => "RBRACE"
  | bang => "BANG"
  | colon => "COLON"
  | andIf => "AND_IF"
  | orIf => "OR_IF"
  | doubleSemicolon => "DSEMI"
  | doubleLess => "DLESS"
  | doubleGreater => "DGREAT"
  | lessAnd => "LESSAND"
  | greaterAnd => "GREATAND"
  | lessGreater => "LESSGREAT"
  | doubleLessDash => "DLESSDASH"
  | clobber => "CLOBBER"
  | doubleLeftBracket => "DLBRACKET"
  | doubleRightBracket => "DRBRACKET"

theorem mem_all (p : Punctuation) : p ∈ all := by cases p <;> decide

end Punctuation

/-- The words with a meaning of their own in the shell's grammar. -/
inductive ReservedWord
  | kwIf | kwThen | kwElse | kwElif | kwFi
  | kwDo | kwDone | kwCase | kwEsac | kwWhile
  | kwUntil | kwFor | kwIn | kwFunction | kwSelect
  deriving DecidableEq

namespace ReservedWord

def all : List ReservedWord :=
  [kwIf, kwThen, kwElse, kwElif, kwFi, kwDo, kwDone, kwCase, kwEsac, kwWhile,
   kwUntil, kwFor, kwIn, kwFunction, kwSelect]

def spelling : ReservedWord → String
  | kwIf => "if"
  | kwThen => "then"
  | kwElse => "else"
  | kwElif => "elif"
  | kwFi => "fi"
  | kwDo => "do"
  | kwDone => "done"
  | kwCase => "case"
  | kwEsac => "esac"
  | kwWhile => "while"
  | kwUntil => "until"
  | kwFor => "for"
  | kwIn => "in"
  | kwFunction => "function"
  | kwSelect => "select"

/-- The upper-case name of a reserved word: its spelling in capitals. -/
def label : ReservedWord → String
  | kwIf => "IF"
  | kwThen => "THEN"
  | kwElse => "ELSE"
  | kwElif => "ELIF"
  | kwFi => "FI"
  | kwDo => "DO"
  | kwDone => "DONE"
  | kwCase => "CASE"
  | kwEsac => "ESAC"
  | kwWhile => "WHILE"
  | kwUntil => "UNTIL"
  | kwFor => "FOR"
  | kwIn => "IN"
  | kwFunction => "FUNCTION"
  | kwSelect => "SELECT"

/-- The reserved word spelled exactly `s`. -/
def ofSpelling? (s : String) : Option ReservedWord := all.find? (·.spelling == s)

theorem mem_all (w : ReservedWord) : w ∈ all := by cases w <;> decide

theorem spelling_of_ofSpelling? {s : String} {w : ReservedWord} (hWord : ofSpelling? s = some w) :
    w.spelling = s := by
  simpa using List.find?_some hWord

end ReservedWord

/-- What sort of token a token is. -/
inductive Kind
  /-- A run of name characters that starts with a digit. -/
  | word
  /-- A run of name characters that does not, and that is no reserved word. -/
  | name
  | newline
  /-- A run of blanks. -/
  | whitespace
  | singleQuotedString
  /-- A stretch of plain text inside double quotes or inside a parameter expansion. -/
  | segment
  | punctuation (p : Punctuation)
  | reserved (w : ReservedWord)
  deriving DecidableEq

namespace Kind

def all : List Kind :=
  [word, name, newline, whitespace, singleQuotedString, segment]
    ++ Punctuation.all.map punctuation ++ ReservedWord.all.map reserved

/-- The upper-case name a kind is printed under. -/
def label : Kind → String
  | word => "WORD"
  | name => "NAME"
  | newline => "NEWLINE"
  | whitespace => "WHITESPACE"
  | singleQuotedString => "SINGLE_QUOTED_STRING"
  | segment => "STR_SEGMENT"
  | punctuation p => p.label
  | reserved w => w.label

def ofLabel? (s : String) : Option Kind := all.find? (·.label == s)

/-- The one text of a kind that is always spelled the same. -/
def spelling? : Kind → Option String
  | newline => some "\n"
  | punctuation p => some p.spelling
  | reserved w => some w.spelling
  | word | name | whitespace | singleQuotedString | segment => none

def isPunctuation : Kind → Bool
  | punctuation _ => true
  | _ => false

def isReserved : Kind → Bool
  | reserved _ => true
  | _ => false

theorem mem_all (k : Kind) : k ∈ all := by
  cases k with
  | punctuation p => simp [all, Punctuation.mem_all]
  | reserved w => simp [all, ReservedWord.mem_all]
  | _ => simp [all]

end Kind

instance : ToString Kind := ⟨Kind.label⟩

end ShellLexer
