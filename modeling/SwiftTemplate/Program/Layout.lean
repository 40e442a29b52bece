import SwiftTemplate.Program.Chunk
import SwiftTemplate.Text.LineIndex

/-!
# Layout

The program of a template: the bindings, then a chunk for every batch of nodes. Every chunk stands
on lines that map to its lines of the template, and a directive is written before a chunk only
where the program would otherwise be out of step.
-/
namespace SwiftTemplate.Program

open Template (Node)

/-- The last directive above a place: the program line it stands on and the template line it names. -/
structure Anchor where
  programLine : Nat
  templateLine : Nat
  deriving DecidableEq, Repr

def Anchor.lineAt (anchor : Anchor) (programLine : Nat) : Nat :=
  anchor.templateLine + (programLine - anchor.programLine - 1)

/-- The chunks of some batches, where the next chunk begins on the program line `next`. -/
def placeBatches (options : Options) (lines : Text.LineIndex) (next : Nat) (anchor : Option Anchor) :
    List Batch → List Chunk
  | [] => []
  | batch :: batches =>
    let line := lines.lineOf batch.offset
    let chunk := Chunk.ofBatch options line batch
    let height := chunk.lineCount options.file
    if anchor.any (·.lineAt next = line) then
      chunk :: placeBatches options lines (next + height) anchor batches
    else
      let directive := Chunk.directive line
      directive :: chunk
        :: placeBatches options lines (next + directive.lineCount options.file + height) (some ⟨next, line⟩) batches

/-- The declarations of the bindings, with a blank line behind them if there are any. -/
def preamble (bindings : List Binding) : List Chunk :=
  if bindings.isEmpty then [] else bindings.map .declaration ++ [.blankLine]

def chunks (template : List Char) (options : Options) (nodes : List Node) : List Chunk :=
  let declared := preamble options.bindings
  let next := 1 + declared.foldr (fun chunk n => chunk.lineCount options.file + n) 0
  declared ++ placeBatches options (Text.LineIndex.ofText template) next none (Batch.ofNodes nodes)

/-- The text of a program, with a line break at its end. -/
def render (file : List Char) (chunks : List Chunk) : List Char :=
  ['\n'].intercalate (chunks.map (·.render file)) ++ ['\n']

def ofNodes (template : List Char) (options : Options) (nodes : List Node) : List Char :=
  render options.file (chunks template options nodes)

def ofTemplate (template : List Char) (options : Options) : List Char :=
  ofNodes template options (Node.ofText template)

end SwiftTemplate.Program
