import SwiftTemplate.Text.Basic

/-!
# Line index

The byte positions of all line breaks of a text, in order, from which the line of any position is
found by halving.
-/
namespace SwiftTemplate.Text

/-- The byte positions of the line breaks of a text that begins at byte `start`. -/
def newlinePositions (start : Nat) : List Char → List Nat
  | [] => []
  | c :: s =>
    if c = '\n' then start :: newlinePositions (start + c.utf8Size) s
    else newlinePositions (start + c.utf8Size) s

/-- The first index between `low` and `high` at which a sorted array reaches `bound`. -/
def lowerBound (sorted : Array Nat) (bound low high : Nat) : Nat :=
  if low < high then
    let middle := (low + high) / 2
    if sorted.getD middle 0 < bound then lowerBound sorted bound (middle + 1) high
    else lowerBound sorted bound low middle
  else low
termination_by high - low
decreasing_by all_goals omega

structure LineIndex where
  newlines : Array Nat

namespace LineIndex

def ofText (text : List Char) : LineIndex := ⟨(newlinePositions 0 text).toArray⟩

/-- The line of a byte position, counted from one: a line break belongs to the line it ends. -/
def lineOf (index : LineIndex) (position : Nat) : Nat :=
  1 + lowerBound index.newlines position 0 index.newlines.size

end LineIndex

end SwiftTemplate.Text
