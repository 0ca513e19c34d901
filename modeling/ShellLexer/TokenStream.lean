import ShellLexer.Token

/-!
# Token streams

The tokens of a text in the order they were read.  `reconstruct` puts the text
together again: it gives back every character that is part of a token, which
are all of them but the backslashes taken off in double quotes and the
characters that were reported.
-/

namespace ShellLexer

abbrev TokenStream := List Token

/-- An index past the end of a stream. -/
structure IndexError where
  length : Nat
  index : Nat
  deriving DecidableEq

def IndexError.message (e : IndexError) : String :=
  "index out of bounds: the len is " ++ toString e.length ++ " but the index is " ++
    toString e.index

namespace TokenStream

/-- A stream with one more token at its end. -/
def push (ts : TokenStream) (t : Token) : TokenStream := ts ++ [t]

/-- The token at an index, which has to be below the length. -/
def at? (ts : TokenStream) (index : Nat) : Except IndexError Token :=
  match ts[index]? with
  | some t => .ok t
  | none => .error ⟨ts.length, index⟩

def kinds (ts : TokenStream) : List Kind := ts.map Token.kind

/-- The texts of the tokens, one after the other. -/
def sourceText (ts : TokenStream) : String := String.join (ts.map Token.text)

/-- The texts of the tokens with the quotes of single-quoted strings restored. -/
def reconstruct (ts : TokenStream) : String := String.join (ts.map Token.sourceText)

/-- The tokens as they are shown, one after the other on one line. -/
def display (ts : TokenStream) : String := String.join (ts.map Token.display)

def toJson (ts : TokenStream) : String := Text.Json.array (ts.map Token.toJson)

theorem sourceText_append (ts us : TokenStream) :
    sourceText (ts ++ us) = sourceText ts ++ sourceText us := by
  simp [sourceText]

theorem reconstruct_append (ts us : TokenStream) :
    reconstruct (ts ++ us) = reconstruct ts ++ reconstruct us := by
  simp [reconstruct]

theorem display_append (ts us : TokenStream) :
    display (ts ++ us) = display ts ++ display us := by
  simp [display]

end TokenStream

end ShellLexer
