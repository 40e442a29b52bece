/-!
# Decimal numbers

Numbers as texts of the digits `0` to `9`, without sign or leading zeros. Reading undoes writing.
-/
namespace SwiftTemplate.Text.Decimal

def isDigit (c : Char) : Bool := '0'.val ≤ c.val && c.val ≤ '9'.val

def digit (n : Nat) : Char := Char.ofNat (48 + n)

def digitValue (c : Char) : Nat := c.toNat - 48

def write (n : Nat) : List Char :=
  if n < 10 then [digit n] else write (n / 10) ++ [digit (n % 10)]
termination_by n
decreasing_by omega

def value (s : List Char) : Nat := s.foldl (fun n c => 10 * n + digitValue c) 0

/-- The number a text spells, if the text is one or more digits. -/
def read? (s : List Char) : Option Nat :=
  if s ≠ [] ∧ s.all isDigit then some (value s) else none

private theorem digit_facts : ∀ n < 10, isDigit (digit n) = true ∧ digitValue (digit n) = n := by decide

theorem write_ne_nil (n : Nat) : write n ≠ [] := by
  rw [write]; split <;> simp

theorem all_isDigit_write (n : Nat) : (write n).all isDigit = true := by
  induction n using Nat.strongRecOn with
  | ind n ih =>
    rw [write]
    split
    · next h => simp [digit_facts n h]
    · simp [ih (n / 10) (by omega), digit_facts (n % 10) (by omega)]

theorem value_append (s : List Char) (c : Char) : value (s ++ [c]) = 10 * value s + digitValue c := by
  simp [value]

theorem value_write (n : Nat) : value (write n) = n := by
  induction n using Nat.strongRecOn with
  | ind n ih =>
    rw [write]
    split
    · next h => simp [value, digit_facts n h]
    · rw [value_append, ih (n / 10) (by omega), (digit_facts (n % 10) (by omega)).2]; omega

/-- Reading a written number gives it back. -/
theorem read?_write (n : Nat) : read? (write n) = some n := by
  simp only [read?, value_write]
  exact if_pos ⟨write_ne_nil n, all_isDigit_write n⟩

end SwiftTemplate.Text.Decimal
