/-!
# Ranges of code points

Properties of characters are given as lists of ranges of code points.
-/

namespace ShellLexer.Text

/-- Whether the code point of `c` lies in one of the ranges, both ends included. -/
def inRanges (ranges : List (Nat × Nat)) (c : Char) : Bool :=
  ranges.any fun (low, high) => low ≤ c.toNat && c.toNat ≤ high

end ShellLexer.Text
