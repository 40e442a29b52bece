import SwiftTemplate.Template.Segment

/-!
# Nodes

What the segments of a template mean: something to print, or code to run.
-/
namespace SwiftTemplate.Template

open Text (isSpaceOrTab)

inductive Output
  | literal (text : List Char)
  | expression (code : List Char)
  deriving DecidableEq, Repr

inductive Content
  | output (output : Output)
  | code (text : List Char)
  deriving DecidableEq, Repr

structure Node where
  content : Content
  /-- The byte of the template at which the content begins. -/
  offset : Nat
  deriving DecidableEq, Repr

namespace Node

def isOutput (node : Node) : Bool :=
  match node.content with
  | .output _ => true
  | .code _ => false

/-- A text without the line break at its end. -/
def withoutBreak (text : List Char) : List Char :=
  match Text.dropLast? '\n' text with
  | none => text
  | some line => (Text.dropLast? '\r' line).getD line

/-- The code of one line behind `%`. -/
def lineCode (line : List Char) : List Char :=
  match ((Text.dropLast? '\r' line).getD line).dropWhile isSpaceOrTab with
  | '%' :: code => code.dropWhile isSpaceOrTab
  | code => code

/-- The code of some lines behind `%`, as many lines as before. -/
def linesCode (text : List Char) : List Char :=
  ['\n'].intercalate ((Text.splitOn '\n' text).map lineCode)

/-- A text without some characters at its start and end. -/
def unwrap (first last : Nat) (text : List Char) : List Char := (text.drop first).take (text.length - first - last)

def ofSegment (segment : Segment) : Node :=
  match segment.kind with
  | .literal => ⟨.output (.literal segment.text), segment.offset⟩
  | .doubled => ⟨.output (.literal (segment.text.take 1)), segment.offset⟩
  | .substitution => ⟨.output (.expression (unwrap 2 1 segment.text)), segment.offset + 2⟩
  | .codeBlock => ⟨.code (unwrap 2 2 (withoutBreak segment.text)), segment.offset + 2⟩
  | .codeLine => ⟨.code (linesCode (withoutBreak segment.text)), segment.offset⟩

def ofText (template : List Char) : List Node := (Segment.ofText template).map ofSegment

end Node

end SwiftTemplate.Template
