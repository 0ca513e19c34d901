import ShellLexer.Character
import ShellLexer.Buffer
import ShellLexer.Token.Operator
import ShellLexer.Scan.State

/-!
# Reading outside double quotes

Blanks and name characters are collected into runs, a newline is a token of its
own, and punctuation is matched longest first: two characters that make an
operator are one token, and `<<` takes a dash as well.  Single quotes hold any
text without escapes.  A double quote is a token and opens the inside of a
double-quoted string.
-/

namespace ShellLexer.Scan

variable {β : Type} [TextBuffer β]

/-- A buffer that holds one character, with the room a word starts with. -/
def oneChar (c : Char) : β := TextBuffer.push (TextBuffer.withCapacity Buffer.wordCapacity) c

/-- A complete run of name characters: a word if it starts with a digit, else a name or a reserved
word. -/
def wordToken (text : β) : Token :=
  if TextBuffer.startsWithDigit text then ⟨.word, TextBuffer.text text⟩
  else Token.ofName (TextBuffer.text text)

/-- Punctuation at `start` that made no longer operator. -/
def singleEvent (start : Nat) (c : Char) : Event :=
  match Punctuation.ofChar? c with
  | some p => .punctuation p
  | none => .fault (.unhandledPunctuation c) start

/-- Reads `c` with nothing pending. -/
def Plain.enter (position : Nat) (c : Char) : State β × List Event :=
  if c == '\n' then (.plain .nothing, [.token .newline])
  else if isBlank c then (.plain (.blanks (oneChar c)), [])
  else if isNameChar c then (.plain (.word (oneChar c)), [])
  else if c == '\'' then
    (.plain (.singleQuoted position (TextBuffer.withCapacity Buffer.stringCapacity)), [])
  else if c == '"' then
    (.quoted ⟨position, TextBuffer.withCapacity Buffer.stringCapacity, [], .nothing⟩,
      [.punctuation .doubleQuote])
  else if isShellPunctuation c then (.plain (.operator position c), [])
  else (.plain .nothing, [.fault (.unexpectedChar c) position])

/-- Reads `c` with nothing pending, after the given events. -/
def Plain.enterAfter (events : List Event) (position : Nat) (c : Char) : State β × List Event :=
  let (state, more) := Plain.enter position c
  (state, events ++ more)

/-- Reads `c` outside double quotes. -/
def Plain.step (position : Nat) (c : Char) : Plain β → State β × List Event
  | nothing => enter position c
  | blanks text =>
    if isBlank c then (.plain (.blanks (TextBuffer.push text c)), [])
    else enterAfter [.token ⟨.whitespace, TextBuffer.text text⟩] position c
  | word text =>
    if isNameChar c then (.plain (.word (TextBuffer.push text c)), [])
    else enterAfter [.token (wordToken text)] position c
  | operator start first =>
    match Punctuation.ofPair? first c with
    | some .doubleLess => (.plain .doubleLess, [])
    | some p => (.plain .nothing, [.punctuation p])
    | none => enterAfter [singleEvent start first] position c
  | doubleLess =>
    if c == '-' then (.plain .nothing, [.punctuation .doubleLessDash])
    else enterAfter [.punctuation .doubleLess] position c
  | singleQuoted start text =>
    if c == '\'' then (.plain .nothing, [.token ⟨.singleQuotedString, TextBuffer.text text⟩])
    else (.plain (.singleQuoted start (TextBuffer.push text c)), [])

/-- What the end of the text adds outside double quotes: the token that was pending, or the fault
of single quotes left open, whose text is dropped. -/
def Plain.finish : Plain β → List Event
  | nothing => []
  | blanks text => [.token ⟨.whitespace, TextBuffer.text text⟩]
  | word text => [.token (wordToken text)]
  | operator start first => [singleEvent start first]
  | doubleLess => [.punctuation .doubleLess]
  | singleQuoted start _ => [.fault .unclosedSingleQuote start]

end ShellLexer.Scan
