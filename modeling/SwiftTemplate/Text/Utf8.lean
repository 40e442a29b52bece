/-!
# UTF-8

Texts from bytes. A sequence of bytes falls into characters and ill-formed stretches; such a
stretch is a single byte that can begin no character, or the longest beginning of a character that
the following bytes do not complete.
-/
namespace SwiftTemplate.Text.Utf8

structure Lead where
  owed : Nat
  /-- The least and the greatest byte that may come next. -/
  low : Nat
  high : Nat
  bits : Nat

/-- The demand of a first byte, if a character can begin with it. Overlong forms, surrogates and
numbers past the last code point are ruled out by the range of the second byte. -/
def lead? (byte : Nat) : Option Lead :=
  if byte < 0x80 then some ⟨0, 0, 0, byte⟩
  else if byte < 0xC2 then none
  else if byte < 0xE0 then some ⟨1, 0x80, 0xBF, byte - 0xC0⟩
  else if byte = 0xE0 then some ⟨2, 0xA0, 0xBF, 0⟩
  else if byte = 0xED then some ⟨2, 0x80, 0x9F, 0xD⟩
  else if byte < 0xF0 then some ⟨2, 0x80, 0xBF, byte - 0xE0⟩
  else if byte = 0xF0 then some ⟨3, 0x90, 0xBF, 0⟩
  else if byte < 0xF4 then some ⟨3, 0x80, 0xBF, byte - 0xF0⟩
  else if byte = 0xF4 then some ⟨3, 0x80, 0x8F, 4⟩
  else none

/-- The code point completed by the next `owed` bytes, if they are all there, and how many bytes
were acceptable. -/
def complete (owed low high bits : Nat) : List UInt8 → Option Nat × Nat
  | [] => (if owed = 0 then some bits else none, 0)
  | b :: rest =>
    match owed with
    | 0 => (some bits, 0)
    | owed + 1 =>
      if low ≤ b.toNat ∧ b.toNat ≤ high then
        let (point, used) := complete owed 0x80 0xBF (bits * 64 + (b.toNat - 0x80)) rest
        (point, used + 1)
      else (none, 0)

/-- The characters of a sequence of bytes, with `none` for every ill-formed stretch. -/
def units : List UInt8 → List (Option Char)
  | [] => []
  | b :: rest =>
    match lead? b.toNat with
    | none => none :: units rest
    | some lead =>
      let (point, used) := complete lead.owed lead.low lead.high lead.bits rest
      point.map Char.ofNat :: units (rest.drop used)
termination_by bytes => bytes.length
decreasing_by all_goals (simp only [List.length_drop, List.length_cons]; omega)

def decode? (bytes : List UInt8) : Option (List Char) := (units bytes).mapM id

def decodeLossy (bytes : List UInt8) : List Char := (units bytes).map (·.getD '\uFFFD')

end SwiftTemplate.Text.Utf8
