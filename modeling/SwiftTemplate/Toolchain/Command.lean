/-!
# Commands

What a run of a command shows: the bytes it prints and its exit status, or the reason why the
system could not start it.
-/
namespace SwiftTemplate.Toolchain

/-- The kinds of errors of the operating system that are told apart. -/
inductive SystemErrorKind
  | notFound
  | invalidData
  | other
  deriving DecidableEq, Repr

structure SystemError where
  kind : SystemErrorKind
  message : List Char
  deriving DecidableEq, Repr

def SystemError.notFound : SystemError := ⟨.notFound, "No such file or directory (os error 2)".toList⟩

structure Output where
  stdout : List UInt8
  stderr : List UInt8
  exitStatus : Nat
  deriving DecidableEq, Repr

def Output.succeeded (output : Output) : Bool := output.exitStatus = 0

/-- How a start of a command came out. -/
inductive Attempt
  | ended (output : Output)
  | notStarted (error : SystemError)
  deriving DecidableEq, Repr

/-- A command with its arguments, started while a program stands in the scratch directory. -/
structure Invocation where
  command : List Char
  arguments : List (List Char)
  program : List Char
  deriving DecidableEq, Repr

structure Host where
  scratch : List Char
  start : Invocation → Attempt

end SwiftTemplate.Toolchain
