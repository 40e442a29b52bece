/-!
# Sets of characters given by ranges

The classes of the Unicode standard are tables of code point ranges in ascending order.
-/
namespace SwiftTemplate.Text

/-- Whether a number lies in one of the ranges, both ends included. The ranges are in ascending
order, so the search stops at the first one that begins past the number. -/
def inRanges (n : Nat) : List (Nat × Nat) → Bool
  | [] => false
  | (low, high) :: ranges => low ≤ n && (n ≤ high || inRanges n ranges)

end SwiftTemplate.Text
