import SwiftTemplate.Swift.Comment

/-!
# Trivia

The blanks and comments around tokens. What precedes a token may span lines; what follows it on
its line belongs to it as well, but never a line break.
-/
namespace SwiftTemplate.Swift.Trivia

def isSpace (c : Char) : Bool :=
  c = ' ' || c = '\t' || c = '\n' || c = '\r' || c = '\x0B' || c = '\x0C'

/-- One step through the trivia before a token; the state tells whether a block comment was left open. -/
def leadingStep (left_open : Bool) (c : Char) (rest : List Char) : Option (Nat × Bool) :=
  if isSpace c then some (0, left_open)
  else if Comment.beginsLine c rest then some (Comment.lineExtent rest, left_open)
  else if Comment.beginsBlock c rest then
    let block := Comment.block rest
    some (block.extent, left_open || !block.closed)
  else none

/-- The length of the trivia at the start of a text, and whether a block comment in it is left open. -/
def leading (text : List Char) : Nat × Bool := Text.walk leadingStep false text

/-- One step through the trivia after a token. A block comment belongs to it only if it is closed on
the same line. -/
def trailingStep (_ : Unit) (c : Char) (rest : List Char) : Option (Nat × Unit) :=
  if Text.isSpaceOrTab c then some (0, ())
  else if Comment.beginsLine c rest then some (Comment.lineExtent rest, ())
  else if Comment.beginsBlock c rest then
    let block := Comment.block rest
    if block.closed && !(rest.take block.extent).contains '\n' then some (block.extent, ()) else none
  else none

def trailing (text : List Char) : Nat := (Text.walk trailingStep () text).1

end SwiftTemplate.Swift.Trivia
