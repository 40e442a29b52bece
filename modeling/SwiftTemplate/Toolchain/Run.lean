import SwiftTemplate.Text.Utf8
import SwiftTemplate.Toolchain.CompilerReport
import SwiftTemplate.Toolchain.Failure

/-!
# Runs

A program is either given to the interpreter, or compiled and then run. Both ways give the same
output and tell a program that does not compile from one that fails.
-/
namespace SwiftTemplate.Toolchain

inductive Mode
  | interpret
  | compile
  deriving DecidableEq, Repr

structure Commands where
  interpreter : List Char
  compiler : List Char
  compilerFlags : List (List Char)
  forceCompile : Bool
  deriving DecidableEq, Repr

def Commands.standard : Commands := ⟨"swift".toList, "swiftc".toList, [], false⟩

def Commands.mode (commands : Commands) : Mode := if commands.forceCompile then .compile else .interpret

/-- A text with `\n` for every `\r\n` in it. -/
def foldLineBreaks (text : List Char) : List Char := Text.replaceAll ['\r', '\n'] ['\n'] text

def sourcePath (scratch : List Char) : List Char := scratch ++ "/main.swift".toList

def executablePath (scratch : List Char) : List Char := scratch ++ "/main".toList

def compilerArguments (commands : Commands) (scratch : List Char) : List (List Char) :=
  commands.compilerFlags ++ [sourcePath scratch, "-o".toList, executablePath scratch]

/-- The output of a command, unless it could not be started. -/
def completed (template command : List Char) : Attempt → Except Failure Output
  | .ended output => .ok output
  | .notStarted error => .error ⟨template, .command command error⟩

/-- What the interpreter printed. A failure with a report of the compiler is one of compilation. -/
def interpret (commands : Commands) (host : Host) (program template : List Char) :
    Except Failure (List Char) := do
  let output ← completed template commands.interpreter
    (host.start ⟨commands.interpreter, [sourcePath host.scratch], program⟩)
  let stderr := Text.Utf8.decodeLossy output.stderr
  if output.succeeded then .ok (Text.Utf8.decodeLossy output.stdout)
  else if reportsCompilerError stderr then .error ⟨template, .compilation stderr⟩
  else .error ⟨template, .execution stderr⟩

/-- What the compiled program printed. -/
def compileAndRun (commands : Commands) (host : Host) (program template : List Char) :
    Except Failure (List Char) := do
  let compiled ← completed template commands.compiler
    (host.start ⟨commands.compiler, compilerArguments commands host.scratch, program⟩)
  if !compiled.succeeded then .error ⟨template, .compilation (Text.Utf8.decodeLossy compiled.stderr)⟩
  else
    let executable := executablePath host.scratch
    let output ← completed template executable (host.start ⟨executable, [], program⟩)
    if output.succeeded then .ok (Text.Utf8.decodeLossy output.stdout)
    else .error ⟨template, .execution (Text.Utf8.decodeLossy output.stderr)⟩

/-- The output of a program, or why there is none. The template is named in failures. -/
def run (commands : Commands) (host : Host) (program template : List Char) : Except Failure (List Char) :=
  let printed :=
    match commands.mode with
    | .interpret => interpret commands host program template
    | .compile => compileAndRun commands host program template
  printed.map foldLineBreaks

end SwiftTemplate.Toolchain
