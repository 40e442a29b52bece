import SwiftTemplate.Program.Binding
import SwiftTemplate.Program.Print
import SwiftTemplate.Swift.Directive

/-!
# Chunks

The parts of a generated program, each on lines of its own.
-/
namespace SwiftTemplate.Program

open Template (Output Content Node)

structure Options where
  file : List Char
  bindings : List Binding
  /-- The form of a marker that is printed before every run of output. -/
  marker : Option (List Char)

/-- The marker of a template line: the form with its placeholders filled in, the file first. -/
def fillMarker (form file : List Char) (line : Nat) : List Char :=
  Text.replaceAll "\x7bline\x7d".toList (Text.Decimal.write line)
    (Text.replaceAll "\x7bfile\x7d".toList file form)

/-- What is printed at the start of a run of output: the marker on a line of its own, if its form
is not empty. -/
def Options.lineMarker (options : Options) (line : Nat) : List Char :=
  match options.marker with
  | none => []
  | some [] => []
  | some form => fillMarker form options.file line ++ ['\n']

/-- Neighbouring nodes that become one chunk: a run of output, or a single piece of code. -/
inductive Batch
  | output (offset : Nat) (outputs : List Output)
  | code (offset : Nat) (text : List Char)
  deriving DecidableEq, Repr

namespace Batch

def offset : Batch → Nat
  | output offset _ => offset
  | code offset _ => offset

def ofNodes : List Node → List Batch
  | [] => []
  | ⟨.code text, offset⟩ :: nodes => .code offset text :: ofNodes nodes
  | ⟨.output first, offset⟩ :: nodes =>
    match ofNodes nodes with
    | .output _ others :: batches => .output offset (first :: others) :: batches
    | batches => .output offset [first] :: batches

end Batch

inductive Chunk
  | declaration (binding : Binding)
  | blankLine
  /-- A directive that maps the next line of the program to a line of the template. -/
  | directive (line : Nat)
  | print (marker : List Char) (outputs : List Output)
  | code (text : List Char)
  deriving DecidableEq, Repr

namespace Chunk

def render (file : List Char) : Chunk → List Char
  | declaration binding => binding.declaration
  | blankLine => []
  | directive line => Swift.Directive.render file line
  | print marker outputs => (Print.ofOutputs (Print.inlineText marker) outputs).statement
  | code text => text

def lineCount (file : List Char) (chunk : Chunk) : Nat := Text.newlines (chunk.render file) + 1

def ofBatch (options : Options) (line : Nat) : Batch → Chunk
  | .output _ outputs => .print (options.lineMarker line) outputs
  | .code _ text => .code text

end Chunk

end SwiftTemplate.Program
