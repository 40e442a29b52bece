import SwiftTemplate.Swift.Token

/-!
# Where embedded code ends

Embedded code ends at the first closing delimiter that has no opening one in the code. Delimiters
inside string literals and comments do not count, because they are no tokens.
-/
namespace SwiftTemplate.Template

def depthBehind? (depth : Nat) : Swift.Kind → Option Nat
  | .opener _ => some (depth + 1)
  | .closer _ => if depth = 0 then none else some (depth - 1)
  | _ => some depth

/-- Where code ends that goes on with `text`, at `offset`, inside `depth` delimiters. Tokens behind
the end are never looked at. -/
def codeEndFrom? (depth offset : Nat) (text : List Char) : Option Nat :=
  let first := Swift.Token.next text
  if _ : first.1.kind = .endOfText then none
  else
    match depthBehind? depth first.1.kind with
    | none => if first.1.kind = .closer .brace then some (offset + first.1.leading.length) else none
    | some depth' => codeEndFrom? depth' (offset + first.1.source.length) first.2
termination_by text.length
decreasing_by exact Swift.Token.length_next_lt ‹_›

/-- How many characters of a text stand before the `}` that ends the code the text begins with.
There is no end if the code runs into another closing delimiter first. -/
def codeEnd? (text : List Char) : Option Nat := codeEndFrom? 0 0 text

end SwiftTemplate.Template
