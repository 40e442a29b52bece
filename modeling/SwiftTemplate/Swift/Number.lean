import SwiftTemplate.Swift.Kind
import SwiftTemplate.Text.Basic
import SwiftTemplate.Text.Decimal
import SwiftTemplate.Swift.Word

/-!
# Number literals

Integers in base ten or behind `0x`, `0o` or `0b`, and decimal numbers with a fraction or an
exponent. What no literal may hold but stands right behind the digits stays in the same token.
-/
namespace SwiftTemplate.Swift.Number

def isDigitOrGap (c : Char) : Bool := Text.Decimal.isDigit c || c = '_'

def isRadixDigitOrGap (c : Char) : Bool := c.isAlphanum || c = '_'

def digitAhead (s : List Char) : Bool := s.head?.any Text.Decimal.isDigit

/-- The length of the fraction at the start of a text: a point with a digit behind it. -/
def fraction : List Char → Nat
  | [] => 0
  | c :: rest => if c = '.' && digitAhead rest then 1 + Text.run isDigitOrGap rest else 0

/-- The length of the exponent at the start of a text: `e`, perhaps a sign, and a digit. -/
def exponent : List Char → Nat
  | [] => 0
  | c :: rest =>
    if c = 'e' || c = 'E' then
      let sign := if rest.head? = some '+' || rest.head? = some '-' then 1 else 0
      if digitAhead (rest.drop sign) then 1 + sign + Text.run isDigitOrGap (rest.drop sign) else 0
    else 0

/-- Whether the digit `c` before `rest` begins a literal of base 16, 8 or 2. -/
def beginsRadix (c : Char) (rest : List Char) : Bool :=
  c = '0' && (rest.head? = some 'x' || rest.head? = some 'o' || rest.head? = some 'b')

/-- The kind of the literal that begins with the digit `c`, and how many characters follow it. -/
def measure (c : Char) (rest : List Char) : Kind × Nat :=
  if beginsRadix c rest then (.integer, 1 + Text.run isRadixDigitOrGap (rest.drop 1))
  else
    let whole := Text.run isDigitOrGap rest
    let part := fraction (rest.drop whole)
    let power := exponent (rest.drop (whole + part))
    let extent := whole + part + power
    (if part + power = 0 then .integer else .float,
      extent + Text.run Word.isInside (rest.drop extent))

end SwiftTemplate.Swift.Number
