import SwiftTemplate.Template.CodeEnd
import SwiftTemplate.Text.Basic

/-!
# Segments

A template falls into stretches of literal text, substitutions `${ }`, code lines that begin with
`%`, code blocks `%{ }%` and the doubled signs `$$` and `%%`. The segments, written one after the
other, are the template: what is not well formed is literal text.
-/
namespace SwiftTemplate.Template

open Text (isSpaceOrTab)

inductive SegmentKind
  | literal
  /-- `${expression}` -/
  | substitution
  /-- A line of code behind `%`, with its line break. -/
  | codeLine
  /-- `%{code}%`, with a line break right behind it. -/
  | codeBlock
  /-- `$$` or `%%`, which stand for one sign. -/
  | doubled
  deriving DecidableEq, Repr

structure Segment where
  kind : SegmentKind
  text : List Char
  offset : Nat
  deriving DecidableEq, Repr

namespace Segment

/-- Whether the line that begins a text is a code line: `%` behind indentation, and behind it a
character that makes it neither a block nor a doubled sign. -/
def beginsCodeLine (line : List Char) : Bool :=
  match line.dropWhile isSpaceOrTab with
  | '%' :: c :: _ => c ≠ '\x7b' && c ≠ '%'
  | _ => false

def lineExtent (rest : List Char) : Nat :=
  let line := Text.run (· ≠ '\n') rest
  if line < rest.length then line + 1 else line

/-- How many characters of literal text follow. The text ends before a sign that may begin another
segment, and at the start of a line of code. -/
def literalExtent (atLineStart : Bool) : List Char → Nat
  | [] => 0
  | c :: rest =>
    if c = '$' || c = '%' || (atLineStart && beginsCodeLine (c :: rest)) then 0
    else 1 + literalExtent (c = '\n') rest

def breakExtent : List Char → Nat
  | '\r' :: '\n' :: _ => 2
  | '\n' :: _ => 1
  | _ => 0

def substitutionExtent? (code : List Char) : Option Nat := (codeEnd? code).map (· + 2)

def blockExtent? (code : List Char) : Option Nat :=
  match codeEnd? code with
  | none => none
  | some stop =>
    match code.drop (stop + 1) with
    | '%' :: behind => some (stop + 3 + breakExtent behind)
    | _ => none

def measure (atLineStart : Bool) (c : Char) (rest : List Char) : SegmentKind × Nat :=
  if (c = '$' || c = '%') && rest.head? = some c then (.doubled, 1)
  else if c = '$' && rest.head? = some '\x7b' then
    match substitutionExtent? rest.tail with
    | some extent => (.substitution, extent)
    | none => (.literal, 0)
  else if c = '%' && rest.head? = some '\x7b' then
    match blockExtent? rest.tail with
    | some extent => (.codeBlock, extent)
    | none => (.literal, 0)
  else if atLineStart && beginsCodeLine (c :: rest) then (.codeLine, lineExtent rest)
  else (.literal, literalExtent (c = '\n') rest)

def ofTextFrom (offset : Nat) (atLineStart : Bool) : List Char → List Segment
  | [] => []
  | c :: rest =>
    let measured := measure atLineStart c rest
    let text := c :: rest.take measured.2
    ⟨measured.1, text, offset⟩
      :: ofTextFrom (offset + Text.byteSize text) (text.getLast? = some '\n') (rest.drop measured.2)
termination_by text => text.length
decreasing_by simp only [List.length_drop, List.length_cons]; omega

def ofText (template : List Char) : List Segment := ofTextFrom 0 true template

end Segment

end SwiftTemplate.Template
