import ShellLexer.Proofs.Template.Braced

/-!
# Strings with expansions

A `Template` is what double quotes hold before it is written down: literal
texts, and expansions between them.  `Template.render` writes one with a
backslash in front of every character that would not stand for itself, and
`Template.tokens` lists the tokens that it is made of.

Names are written without a mark at their end, so a template is only readable
if no name character follows a name (`Template.apart`).
-/

namespace ShellLexer

namespace Template

/-- Text without characters that end a word. -/
structure Word where
  chars : List Char
  ne_nil : chars ≠ []
  nameChars : ∀ c ∈ chars, isNameChar c

/-- A word that may stand behind a `$`. -/
structure Name extends Word where
  noDigit : ∀ c ∈ chars.head?, ¬ isDigit c

mutual

/-- What stands behind a `$`. -/
inductive Expansion
  | name (x : Name)
  | parameter (text : List Char) (h : Grammar.ParameterText text)
  | command (body : Body)

/-- The parts of a command substitution, in order. -/
inductive Body
  | done
  | word (w : Word) (rest : Body)
  | group (inner rest : Body)
  | expansion (e : Expansion) (rest : Body)

end

end Template

/-- Literal texts with an expansion between any two. -/
inductive Template
  | last (text : List Char)
  | expansion (text : List Char) (e : Template.Expansion) (rest : Template)

namespace Template

def startsWithName (cs : List Char) : Bool := cs.head?.any isNameChar

/-! ## Rendering -/

/-- The characters that need a backslash in front inside double quotes. -/
def special : List Char := ['$', '\x60', '"', '\\']

def escape (text : List Char) : List Char :=
  text.flatMap fun c => if c ∈ special then ['\\', c] else [c]

mutual

def Expansion.render : Expansion → List Char
  | .name x => x.chars
  | .parameter text _ => '{' :: (text ++ ['}'])
  | .command body => '(' :: (body.render ++ [')'])

def Body.render : Body → List Char
  | .done => []
  | .word w rest => w.chars ++ rest.render
  | .group inner rest => '(' :: (inner.render ++ ')' :: rest.render)
  | .expansion e rest => '$' :: (e.render ++ rest.render)

end

def render : Template → List Char
  | last text => escape text
  | expansion text e rest => escape text ++ '$' :: (e.render ++ rest.render)

/-- A template in double quotes. -/
def quoted (t : Template) : String := String.ofList ('"' :: (t.render ++ ['"']))

/-! ## Tokens -/

/-- A word that starts with a digit has a kind of its own. -/
def Word.token (w : Word) : Token :=
  if w.chars.head?.any isDigit then ⟨.word, String.ofList w.chars⟩
  else Token.ofName (String.ofList w.chars)

mutual

def Expansion.tokens : Expansion → List Token
  | .name x => [Token.ofName (String.ofList x.chars)]
  | .parameter text _ =>
    .punctuation .leftBrace :: (Braced.tokens text ++ [.punctuation .rightBrace])
  | .command body => .punctuation .leftParen :: (body.tokens ++ [.punctuation .rightParen])

def Body.tokens : Body → List Token
  | .done => []
  | .word w rest => w.token :: rest.tokens
  | .group inner rest =>
    .punctuation .leftParen :: (inner.tokens ++ .punctuation .rightParen :: rest.tokens)
  | .expansion e rest => .punctuation .dollar :: (e.tokens ++ rest.tokens)

end

/-- Every text in front of an expansion is a token, even an empty one; the last text is only one if
there is something in it. -/
def tokens : Template → List Token
  | last text => if text = [] then [] else [⟨.segment, String.ofList text⟩]
  | expansion text e rest =>
    ⟨.segment, String.ofList text⟩ :: .punctuation .dollar :: (e.tokens ++ rest.tokens)

/-! ## What can be read back -/

/-- Whether a name character behind it would be part of it. -/
def Expansion.isName : Expansion → Bool
  | .name _ => true
  | _ => false

def Body.startsWithWord : Body → Bool
  | .word _ _ => true
  | _ => false

mutual

/-- No word directly follows a word or a name. -/
def Expansion.apart : Expansion → Bool
  | .command body => body.apart
  | _ => true

def Body.apart : Body → Bool
  | .done => true
  | .word _ rest => !rest.startsWithWord && rest.apart
  | .group inner rest => inner.apart && rest.apart
  | .expansion e rest => e.apart && !(e.isName && rest.startsWithWord) && rest.apart

end

/-- The text that a template starts with. -/
def firstText : Template → List Char
  | last text => text
  | expansion text _ _ => text

def apart : Template → Bool
  | last _ => true
  | expansion _ e rest => e.apart && !(e.isName && startsWithName rest.firstText) && rest.apart

mutual

/-- How deep expansions nest. -/
def Expansion.depth : Expansion → Nat
  | .command body => body.depth + 1
  | _ => 1

def Body.depth : Body → Nat
  | .done => 0
  | .word _ rest => rest.depth
  | .group inner rest => max inner.depth rest.depth
  | .expansion e rest => max e.depth rest.depth

end

def depth : Template → Nat
  | last _ => 0
  | expansion _ e rest => max e.depth rest.depth

end Template

end ShellLexer
