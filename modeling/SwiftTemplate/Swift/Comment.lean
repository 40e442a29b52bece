import SwiftTemplate.Text.Basic
import SwiftTemplate.Text.Walk

/-!
# Comments

Line comments run up to the end of their line. Block comments nest, and one that is not closed runs
to the end of the text.
-/
namespace SwiftTemplate.Swift.Comment

def isBreak (c : Char) : Bool := c = '\n' || c = '\r'

def beginsLine (c : Char) (rest : List Char) : Bool := c = '/' && rest.head? = some '/'

def beginsBlock (c : Char) (rest : List Char) : Bool := c = '/' && rest.head? = some '*'

/-- How many characters of the line comment follow its first slash. -/
def lineExtent (rest : List Char) : Nat := Text.run (fun c => !isBreak c) rest

/-- One step through the inside of a block comment, in a state that counts the comments open. -/
def blockStep (depth : Nat) (c : Char) (rest : List Char) : Option (Nat × Nat) :=
  if depth = 0 then none
  else if beginsBlock c rest then some (1, depth + 1)
  else if c = '*' && rest.head? = some '/' then some (1, depth - 1)
  else some (0, depth)

structure Block where
  /-- How many characters follow the first slash. -/
  extent : Nat
  closed : Bool

def block (rest : List Char) : Block :=
  let (n, depth) := Text.walk blockStep 1 (rest.drop 1)
  ⟨1 + n, depth = 0⟩

end SwiftTemplate.Swift.Comment
