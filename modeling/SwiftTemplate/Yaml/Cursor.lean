import SwiftTemplate.Text.Basic

/-!
# Cursors

A place in a document, with the column and line that its structure depends on.
-/
namespace SwiftTemplate.Yaml

open Text (isSpaceOrTab)

def isBreak (c : Char) : Bool := c = '\n' || c = '\u2028' || c = '\u2029'

/-- Whether a text begins with a blank or a line break, or is at its end. -/
def blankAhead (text : List Char) : Bool := text.head?.all fun c => isSpaceOrTab c || isBreak c

structure Cursor where
  rest : List Char
  line : Nat
  column : Nat
  /-- Whether a key may begin here: only indentation and indicators stand before it on the line. -/
  fresh : Bool

namespace Cursor

def start (text : List Char) : Cursor := ⟨text, 0, 0, true⟩

def advance (cursor : Cursor) : Cursor :=
  match cursor.rest with
  | [] => cursor
  | c :: rest =>
    if isBreak c then { cursor with rest := rest, line := cursor.line + 1, column := 0 }
    else { cursor with rest := rest, column := cursor.column + 1 }

def advanceBy : Nat → Cursor → Cursor
  | 0, cursor => cursor
  | n + 1, cursor => advanceBy n cursor.advance

/-- Whether a document mark, `---` or `...`, stands here. -/
def atMark (cursor : Cursor) : Bool :=
  cursor.column = 0 &&
    (['-', '-', '-'].isPrefixOf cursor.rest || ['.', '.', '.'].isPrefixOf cursor.rest)
    && blankAhead (cursor.rest.drop 3)

def atEnd (cursor : Cursor) : Bool := cursor.rest.isEmpty || cursor.atMark

/-- Whether the character `c` stands here as an indicator, with a blank behind it. -/
def atIndicator (c : Char) (cursor : Cursor) : Bool :=
  cursor.rest.head? = some c && blankAhead cursor.rest.tail

/-- The place of the next token. A line break makes a new start for keys, and tabs are no
indentation before one. -/
def skipFrom (flow comment : Bool) (line column : Nat) (fresh : Bool) : List Char → Cursor
  | [] => ⟨[], line, column, fresh⟩
  | c :: rest =>
    if isBreak c then skipFrom flow false (line + 1) 0 (fresh || !flow) rest
    else if comment then skipFrom flow true line (column + 1) fresh rest
    else if c = ' ' || (c = '\t' && (flow || !fresh)) then skipFrom flow false line (column + 1) fresh rest
    else if c = '#' then skipFrom flow true line (column + 1) fresh rest
    else ⟨c :: rest, line, column, fresh⟩

def skip (flow : Bool) (cursor : Cursor) : Cursor :=
  skipFrom flow false cursor.line cursor.column cursor.fresh cursor.rest

end Cursor

end SwiftTemplate.Yaml
