import SwiftTemplate.Swift.Literal
import SwiftTemplate.Text.Basic
import SwiftTemplate.Text.Blank

/-!
# Bindings

Names that are bound to texts before the code of a template runs.
-/
namespace SwiftTemplate.Program

structure Binding where
  name : List Char
  value : List Char
  deriving DecidableEq, Repr

inductive BindingError
  | withoutEquals (text : List Char)
  /-- Nothing but white space stands before the first `=`. -/
  | withoutName (text : List Char)
  deriving DecidableEq, Repr

def BindingError.message : BindingError → String
  | withoutEquals text => "expected NAME=VALUE, got `" ++ String.ofList text ++ "`"
  | withoutName text => "missing binding name in `" ++ String.ofList text ++ "`"

namespace Binding

/-- The binding written `NAME=VALUE`. White space around the name does not count, and the value may
hold further signs. -/
def read (text : List Char) : Except BindingError Binding :=
  match Text.cutAt? '=' text with
  | none => .error (.withoutEquals text)
  | some (before, value) =>
    let name := Text.trim before
    if name.isEmpty then .error (.withoutName text) else .ok ⟨name, value⟩

def display (binding : Binding) : List Char := binding.name ++ '=' :: binding.value

def declaration (binding : Binding) : List Char :=
  "let ".toList ++ binding.name ++ " = ".toList ++ Swift.Literal.quote binding.value

end Binding

end SwiftTemplate.Program
