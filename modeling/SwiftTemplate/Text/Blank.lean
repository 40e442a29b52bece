import SwiftTemplate.Text.Ranges

/-!
# White space

The characters with the Unicode property White_Space, and texts without such characters at their
ends.
-/
namespace SwiftTemplate.Text

/-- The code points with the property White_Space. -/
def blankRanges : List (Nat × Nat) := [
  (9, 13), (32, 32), (133, 133), (160, 160), (5760, 5760), (8192, 8202), (8232, 8233),
  (8239, 8239), (8287, 8287), (12288, 12288)]

def isBlank (c : Char) : Bool := inRanges c.toNat blankRanges

def trim (s : List Char) : List Char := ((s.dropWhile isBlank).reverse.dropWhile isBlank).reverse

end SwiftTemplate.Text
