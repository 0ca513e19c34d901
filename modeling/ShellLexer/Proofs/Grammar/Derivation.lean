import ShellLexer.Character
import ShellLexer.Token.Operator

/-!
# The grammar of faultless texts

What a text may look like for a scan to have nothing to report.  Each
nonterminal carries a number, how deep expansions may still nest in it:

    script    = (whitespace | name character | operator | quoted)*
    quoted    = ' other than ' * '  |  " items "
    items     = (\ any | other than " \ $ | expansion)*
    expansion = $ name start  |  $( body )  |  ${ parameter }
    body      = (name character | ( body ) | expansion)*

A name in an expansion is only its first character here, as the others are read
like any name character behind it.
-/

namespace ShellLexer.Grammar

inductive Nonterminal
  | script (depth : Nat)
  | items (depth : Nat)
  | expansion (depth : Nat)
  | body (depth : Nat)

/-- The operators that must have a parameter's name in front. -/
def namedOperators : List Char := [':', '+', '-', '=', '?']

/-- The inside of a parameter expansion: it closes at the first brace, and starts with none of the
operators that must have a name in front. -/
structure ParameterText (cs : List Char) : Prop where
  closed : '}' ∉ cs
  named : ∀ c ∈ cs.head?, c ∉ namedOperators

/-- The texts that a nonterminal derives. -/
inductive Derives : Nonterminal → List Char → Prop
  | scriptEnd {n : Nat} : Derives (.script n) []
  | whitespace {n : Nat} {c : Char} {cs : List Char} :
      isWhitespace c → Derives (.script n) cs → Derives (.script n) (c :: cs)
  | scriptName {n : Nat} {c : Char} {cs : List Char} :
      isNameChar c → Derives (.script n) cs → Derives (.script n) (c :: cs)
  | operator {n : Nat} {c : Char} {cs : List Char} :
      (Punctuation.ofChar? c).isSome → Derives (.script n) cs → Derives (.script n) (c :: cs)
  | singleQuoted {n : Nat} {text cs : List Char} :
      '\'' ∉ text → Derives (.script n) cs →
        Derives (.script n) ('\'' :: (text ++ '\'' :: cs))
  | doubleQuoted {n : Nat} {items cs : List Char} :
      Derives (.items n) items → Derives (.script n) cs →
        Derives (.script n) ('"' :: (items ++ '"' :: cs))
  | itemsEnd {n : Nat} : Derives (.items n) []
  | escape {n : Nat} {c : Char} {cs : List Char} :
      Derives (.items n) cs → Derives (.items n) ('\\' :: c :: cs)
  | literal {n : Nat} {c : Char} {cs : List Char} :
      c ∉ ['"', '\\', '$'] → Derives (.items n) cs → Derives (.items n) (c :: cs)
  | itemsExpansion {n : Nat} {es cs : List Char} :
      Derives (.expansion n) es → Derives (.items n) cs → Derives (.items n) (es ++ cs)
  | name {n : Nat} {c : Char} : isNameStart c → Derives (.expansion (n + 1)) ['$', c]
  | command {n : Nat} {cs : List Char} :
      Derives (.body n) cs → Derives (.expansion (n + 1)) ('$' :: '(' :: (cs ++ [')']))
  | parameter {n : Nat} {cs : List Char} :
      ParameterText cs → Derives (.expansion (n + 1)) ('$' :: '{' :: (cs ++ ['}']))
  | bodyEnd {n : Nat} : Derives (.body n) []
  | bodyName {n : Nat} {c : Char} {cs : List Char} :
      isNameChar c → Derives (.body n) cs → Derives (.body n) (c :: cs)
  | group {n : Nat} {ds cs : List Char} :
      Derives (.body n) ds → Derives (.body n) cs →
        Derives (.body n) ('(' :: (ds ++ ')' :: cs))
  | bodyExpansion {n : Nat} {es cs : List Char} :
      Derives (.expansion n) es → Derives (.body n) cs → Derives (.body n) (es ++ cs)

end ShellLexer.Grammar
