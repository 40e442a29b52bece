import SwiftTemplate.Program.Layout
import SwiftTemplate.Repair.Relocation
import SwiftTemplate.Toolchain.Run

/-!
# Rendering

From a template to its program, and from the program to what the template stands for.
-/
namespace SwiftTemplate

/-- The program of a template, with its directives where they do no harm. -/
def generate (template : List Char) (options : Program.Options) : List Char :=
  Repair.fix (Program.ofTemplate template options)

def render (template : List Char) (options : Program.Options) (commands : Toolchain.Commands)
    (host : Toolchain.Host) : Except Toolchain.Failure (List Char) :=
  Toolchain.run commands host (generate template options) options.file

end SwiftTemplate
