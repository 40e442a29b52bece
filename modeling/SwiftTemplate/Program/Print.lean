import SwiftTemplate.Template.Node

/-!
# Print statements

One statement prints a run of texts and expressions and keeps the line structure of the template:
what stands on the template line of the run goes into a literal on one line, the head, and what
follows the first line break into a literal on several lines, the tail.
-/
namespace SwiftTemplate.Program

open Template (Output)

/-- The texts of the literals of a print statement. -/
structure Print where
  head : List Char
  tail : Option (List Char)
  deriving DecidableEq, Repr

namespace Print

def escapeBlock (c : Char) : List Char :=
  if c = '\\' then ['\\', '\\']
  else if c = '"' then ['\\', '"']
  else if c = '\r' then ['\\', 'r']
  else if c = '\x00' then ['\\', '0']
  else [c]

def escapeInline (c : Char) : List Char := if c = '\n' then ['\\', 'n'] else escapeBlock c

def blockText (text : List Char) : List Char := text.flatMap escapeBlock

def inlineText (text : List Char) : List Char := text.flatMap escapeInline

def interpolation (code : List Char) : List Char := '\\' :: '(' :: (code ++ [')'])

/-- Something to print in a literal on several lines. -/
def blockOutput : Output → List Char
  | .literal text => blockText text
  | .expression code => interpolation code

/-- The literals that print some outputs behind the text `head` of the one-line literal. The first
line break of a text ends the head. A literal on one line cannot hold an expression on several
lines, so that such an expression moves the whole head to the tail. -/
def ofOutputs (head : List Char) : List Output → Print
  | [] => ⟨head, none⟩
  | .literal text :: outputs =>
    match Text.cutAt? '\n' text with
    | none => ofOutputs (head ++ inlineText text) outputs
    | some (line, rest) =>
      ⟨head ++ inlineText line ++ ['\\', 'n'], some (blockText rest ++ outputs.flatMap blockOutput)⟩
  | .expression code :: outputs =>
    if code.contains '\n' then ⟨[], some (head ++ interpolation code ++ outputs.flatMap blockOutput)⟩
    else ofOutputs (head ++ interpolation code) outputs

def inlineLiteral (text : List Char) : List Char := '"' :: (text ++ ['"'])

def blockLiteral (text : List Char) : List Char := "\"\"\"\n".toList ++ text ++ "\n\"\"\"".toList

/-- What the statement prints. An empty literal is left out unless it is the only one. -/
def argument (print : Print) : List Char :=
  let tail := print.tail.getD []
  if tail.isEmpty then inlineLiteral print.head
  else if print.head.isEmpty then blockLiteral tail
  else inlineLiteral print.head ++ " + ".toList ++ blockLiteral tail

def statement (print : Print) : List Char :=
  "print(".toList ++ print.argument ++ ", terminator: \"\")".toList

end Print

end SwiftTemplate.Program
