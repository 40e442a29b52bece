import SwiftTemplate.Text.Basic
import SwiftTemplate.Text.Decimal

/-!
# Compiler reports

An interpreter compiles first, and a program that it does not compile never starts. Its report then
holds a line `file:line:column: error: ...`.
-/
namespace SwiftTemplate.Toolchain

def isNumber (s : List Char) : Bool := !s.isEmpty && s.all Text.Decimal.isDigit

/-- Whether a text is a place in a file: anything, a line and a column, with colons between them. -/
def isPlace (s : List Char) : Bool :=
  match Text.cutAtLast? ':' s with
  | none => false
  | some (front, column) =>
    match Text.cutAtLast? ':' front with
    | none => false
    | some (_, line) => isNumber column && isNumber line

def isErrorLine (line : List Char) : Bool := (Text.before? ": error:".toList line).any isPlace

/-- Whether what was written to standard error holds a report of a compiler. -/
def reportsCompilerError (stderr : List Char) : Bool := (Text.splitOn '\n' stderr).any isErrorLine

end SwiftTemplate.Toolchain
