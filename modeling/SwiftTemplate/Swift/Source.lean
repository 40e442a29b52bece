import SwiftTemplate.Swift.Diagnostic
import SwiftTemplate.Text.LineIndex

/-!
# Sources

A program with its tokens, the lines they stand on, its directives and its diagnostics.
-/
namespace SwiftTemplate.Swift

structure Source where
  tokens : List Token
  diagnostics : List Diagnostic
  /-- The byte positions at which the tokens begin. -/
  starts : Array Nat
  lines : Text.LineIndex

namespace Source

def ofText (text : List Char) : Source :=
  let tokens := Token.ofText text
  { tokens
    diagnostics := Diagnostic.ofTokens tokens
    starts := ((Token.spans 0 tokens).map (·.start)).toArray
    lines := Text.LineIndex.ofText text }

def lineOf (source : Source) (index : Nat) : Nat := source.lines.lineOf (source.starts.getD index 0)

def directives (source : Source) : List (Nat × Directive) := Directive.places 0 source.tokens

/-- The first diagnostic that a directive is at fault for: one that covers part of it, or begins
right behind it. -/
def blame? (source : Source) (index : Nat) (form : Directive) : Option Diagnostic :=
  let stop := index + form.size
  source.diagnostics.find? fun diagnostic =>
    (diagnostic.first < stop && index < diagnostic.stop) || diagnostic.first = stop

def isClean (source : Source) : Bool := source.diagnostics.isEmpty

end Source

end SwiftTemplate.Swift
