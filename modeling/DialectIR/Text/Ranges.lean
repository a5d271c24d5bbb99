/-! Membership in sets of characters that are given by ranges of code points. -/

namespace DialectIR.Text

/-- Whether the code point lies in one of the ranges, both ends included. -/
def inRanges (ranges : List (Nat × Nat)) (c : Char) : Bool :=
  ranges.any fun range => range.1 ≤ c.toNat && c.toNat ≤ range.2

end DialectIR.Text
