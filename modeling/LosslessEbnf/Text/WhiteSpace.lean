import LosslessEbnf.Text.Ranges

/-!
# White space

The characters with the Unicode property `White_Space` (version 17.0).

## Main Definitions

* `whiteSpaceRanges` — the ranges of the property, in ascending order
* `isWhiteSpace` — membership in them
-/

namespace LosslessEbnf.Text

/-- The code points with the property `White_Space`. -/
def whiteSpaceRanges : List (Nat × Nat) :=
  [(0x0009, 0x000D), (0x0020, 0x0020), (0x0085, 0x0085), (0x00A0, 0x00A0), (0x1680, 0x1680),
    (0x2000, 0x200A), (0x2028, 0x2029), (0x202F, 0x202F), (0x205F, 0x205F), (0x3000, 0x3000)]

/-- Whether `c` has the property `White_Space`. -/
def isWhiteSpace (c : Char) : Bool :=
  inRanges whiteSpaceRanges c.toNat

end LosslessEbnf.Text
