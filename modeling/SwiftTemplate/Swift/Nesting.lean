import SwiftTemplate.Swift.Kind

/-!
# Nesting

The delimiters open at a place in a program, and the statement headers that still wait for their
body there. The file itself is the outermost scope and is never closed.
-/
namespace SwiftTemplate.Swift

structure Frame where
  bracket : Bracket
  index : Nat
  /-- The keyword of the header whose body the delimiter opened. -/
  header : Option Keyword
  /-- The keyword of a header inside that still waits for its `{`. -/
  awaiting : Option Keyword
  deriving DecidableEq, Repr

structure Nesting where
  fileAwaiting : Option Keyword
  /-- The open delimiters, innermost first. -/
  frames : List Frame
  deriving DecidableEq, Repr

namespace Nesting

def file : Nesting := ⟨none, []⟩

def awaiting (nesting : Nesting) : Option Keyword :=
  match nesting.frames with
  | [] => nesting.fileAwaiting
  | frame :: _ => frame.awaiting

def await (word : Option Keyword) (nesting : Nesting) : Nesting :=
  match nesting.frames with
  | [] => { nesting with fileAwaiting := word }
  | frame :: frames => { nesting with frames := { frame with awaiting := word } :: frames }

def header (nesting : Nesting) : Option Keyword := nesting.frames.head?.bind Frame.header

def holdsStatements (nesting : Nesting) : Bool :=
  match nesting.frames with
  | [] => true
  | frame :: _ => frame.bracket = .brace

/-- The scopes behind an opening delimiter. A brace opens the body of the header waiting for it. -/
def enter (bracket : Bracket) (index : Nat) (nesting : Nesting) : Nesting :=
  let body := bracket = .brace
  let around := if body then nesting.await none else nesting
  let frame : Frame := ⟨bracket, index, if body then nesting.awaiting else none, none⟩
  { around with frames := frame :: around.frames }

/-- The innermost open delimiter that a closing one fits, with the delimiters inside it and those
around it, if there is one. -/
def match? (bracket : Bracket) (nesting : Nesting) : Option (List Frame × Frame × List Frame) :=
  match nesting.frames.dropWhile (·.bracket ≠ bracket) with
  | [] => none
  | frame :: around => some (nesting.frames.takeWhile (·.bracket ≠ bracket), frame, around)

end Nesting

end SwiftTemplate.Swift
