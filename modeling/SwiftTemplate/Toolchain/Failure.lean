import SwiftTemplate.Toolchain.Command

/-!
# Failures

Why a generated program gave no output.
-/
namespace SwiftTemplate.Toolchain

inductive Fault
  | compilation (stderr : List Char)
  | execution (stderr : List Char)
  /-- A command could not be started. -/
  | command (name : List Char) (error : SystemError)
  /-- The files of the run could not be written or read. -/
  | files (error : SystemError)
  deriving DecidableEq, Repr

structure Failure where
  template : List Char
  fault : Fault
  deriving DecidableEq, Repr

inductive FailureClass
  | compilationError
  | executionError
  | toolchainError
  | ioError
  deriving DecidableEq, Repr

def FailureClass.name : FailureClass → String
  | compilationError => "CompilationError"
  | executionError => "ExecutionError"
  | toolchainError => "ToolchainError"
  | ioError => "IoError"

namespace Failure

def classify (failure : Failure) : FailureClass :=
  match failure.fault with
  | .compilation _ => .compilationError
  | .execution _ => .executionError
  | .command _ _ => .toolchainError
  | .files _ => .ioError

/-- The wording of a failure, which begins with the template. -/
def message (failure : Failure) : List Char :=
  failure.template ++
    match failure.fault with
    | .compilation stderr => ": compilation failed\n".toList ++ stderr
    | .execution stderr => ": execution failed\n".toList ++ stderr
    | .command name error => ": cannot run `".toList ++ name ++ "`: ".toList ++ error.message
    | .files error => ": ".toList ++ error.message

end Failure

end SwiftTemplate.Toolchain
