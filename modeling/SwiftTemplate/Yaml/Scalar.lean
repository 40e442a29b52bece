import SwiftTemplate.Yaml.Cursor

/-!
# Scalars

Plain and quoted scalars, which may run over lines. A line break inside a scalar, with the blanks
around it, is a space, and of several line breaks in a row the first one is dropped.
-/
namespace SwiftTemplate.Yaml

open Text (isSpaceOrTab)

inductive Piece
  | char (c : Char)
  | blank (c : Char)
  | lineBreak (c : Char)
  /-- A line break behind a backslash, which joins its lines. -/
  | join

inductive Pending
  | blanks (text : List Char)
  /-- Line breaks: the first one, unless it is joined, and those behind it. -/
  | breaks (first : Option Char) (others : List Char)

def Pending.text : Pending → List Char
  | blanks text => text
  | breaks (some '\n') [] => [' ']
  | breaks (some '\n') others => others
  | breaks first others => first.toList ++ others

/-- The text of a scalar behind some white space; `trailing` tells whether white space at its end
belongs to it. -/
def foldFrom (trailing : Bool) (pending : Pending) : List Piece → List Char
  | [] => if trailing then pending.text else []
  | .char c :: pieces => pending.text ++ c :: foldFrom trailing (.blanks []) pieces
  | .join :: pieces => pending.text ++ foldFrom trailing (.breaks none []) pieces
  | .blank c :: pieces =>
    match pending with
    | .blanks text => foldFrom trailing (.blanks (text ++ [c])) pieces
    | .breaks first others => foldFrom trailing (.breaks first others) pieces
  | .lineBreak c :: pieces =>
    match pending with
    | .blanks _ => foldFrom trailing (.breaks (some c) []) pieces
    | .breaks first others => foldFrom trailing (.breaks first (others ++ [c])) pieces

def fold (trailing : Bool) (pieces : List Piece) : List Char := foldFrom trailing (.blanks []) pieces

def pieceOf (c : Char) : Piece := if isBreak c then .lineBreak c else if isSpaceOrTab c then .blank c else .char c

def hexDigit? (c : Char) : Option Nat :=
  if '0' ≤ c ∧ c ≤ '9' then some (c.toNat - '0'.toNat)
  else if 'a' ≤ c ∧ c ≤ 'f' then some (c.toNat - 'a'.toNat + 10)
  else if 'A' ≤ c ∧ c ≤ 'F' then some (c.toNat - 'A'.toNat + 10)
  else none

/-- The character whose code point is written with `n` hexadecimal digits at the start of a text. -/
def hexChar? (n : Nat) (text : List Char) : Option Char := do
  let digits := text.take n
  if digits.length < n then none
  else
    let point ← digits.foldlM (fun value c => (hexDigit? c).map (16 * value + ·)) 0
    if point.isValidChar then some (Char.ofNat point) else none

def escapes : List (Char × Char) :=
  [('0', '\x00'), ('a', '\x07'), ('b', '\x08'), ('t', '\t'), ('\t', '\t'), ('n', '\n'), ('v', '\x0B'),
   ('f', '\x0C'), ('r', '\r'), ('e', '\x1B'), (' ', ' '), ('"', '"'), ('/', '/'), ('\\', '\\'),
   ('N', '\u0085'), ('_', '\u00A0'), ('L', '\u2028'), ('P', '\u2029')]

/-- The unit that the escape before `text` stands for, and the length of the escape. -/
def escape? (text : List Char) : Option (Piece × Nat) :=
  match text with
  | [] => none
  | c :: rest =>
    if isBreak c then some (.join, 1)
    else
      match escapes.lookup c with
      | some d => some (.char d, 1)
      | none =>
        if c = 'x' then (hexChar? 2 rest).map fun d => (.char d, 3)
        else if c = 'u' then (hexChar? 4 rest).map fun d => (.char d, 5)
        else if c = 'U' then (hexChar? 8 rest).map fun d => (.char d, 9)
        else none

/-- The units of a quoted scalar up to its closing quote, and the place behind it. -/
def quotedPieces (fuel : Nat) (quote : Char) (cursor : Cursor) : Option (List Piece × Cursor) :=
  match fuel with
  | 0 => none
  | fuel + 1 =>
    if cursor.atMark then none
    else
      match cursor.rest with
      | [] => none
      | c :: rest =>
        let go (piece : Piece) (n : Nat) :=
          (quotedPieces fuel quote (cursor.advanceBy n)).map fun (pieces, last) => (piece :: pieces, last)
        if c = quote then
          if quote = '\'' && rest.head? = some quote then go (.char quote) 2 else some ([], cursor.advance)
        else if c = '\\' && quote = '"' then
          match escape? rest with
          | none => none
          | some (piece, n) => go piece (n + 1)
        else go (pieceOf c) 1

def quoted? (quote : Char) (cursor : Cursor) : Option (List Char × Cursor) :=
  (quotedPieces cursor.rest.length quote cursor.advance).map fun (pieces, last) =>
    (fold true pieces, { last with fresh := false })

def isFlowMark (c : Char) : Bool := [',', '[', ']', '\x7b', '\x7d'].contains c

def beginsPlain (flow : Bool) (cursor : Cursor) : Bool :=
  match cursor.rest with
  | [] => false
  | c :: rest =>
    if c = '-' then !blankAhead rest
    else if c = '?' || c = ':' then !flow && !blankAhead rest
    else !(isSpaceOrTab c || isBreak c || isFlowMark c
      || ['#', '&', '*', '!', '|', '>', '\'', '"', '%', '@', '\x60'].contains c)

inductive PlainStep
  | go
  | stop
  | broken

/-- Whether a plain scalar whose lines begin at the column `indent` or further goes on at a place,
where `spaced` tells whether white space stands before it, and `newLine` whether only blanks stand
before it on its line. -/
def plainStep (flow : Bool) (indent : Nat) (spaced newLine : Bool) (cursor : Cursor) : PlainStep :=
  match cursor.rest with
  | [] => .stop
  | c :: rest =>
    if isBreak c then .go
    else if isSpaceOrTab c then
      if newLine && cursor.column < indent && c = '\t' then .broken else .go
    else if newLine && !flow && cursor.column < indent then .stop
    else if cursor.atMark then .stop
    else if spaced && c = '#' then .stop
    else if flow && c = ':' && rest.head?.any (fun d => isFlowMark d || d = '?') then .broken
    else if c = ':' && blankAhead rest then .stop
    else if flow && isFlowMark c then .stop
    else .go

def plainPieces (fuel : Nat) (flow : Bool) (indent : Nat) (spaced newLine : Bool) (cursor : Cursor) :
    Option (List Piece × Cursor) :=
  match fuel with
  | 0 => none
  | fuel + 1 =>
    match plainStep flow indent spaced newLine cursor, cursor.rest with
    | .go, c :: _ =>
      let blank := isSpaceOrTab c
      let ends := isBreak c
      (plainPieces fuel flow indent (blank || ends) (ends || (newLine && blank)) cursor.advance).map
        fun (pieces, last) => (pieceOf c :: pieces, last)
    | .broken, _ => none
    | _, _ => some ([], { cursor with fresh := newLine })

/-- The text of the plain scalar that begins here, and the place behind it and the white space that
follows. -/
def plain? (flow : Bool) (indent : Nat) (cursor : Cursor) : Option (List Char × Cursor) :=
  (plainPieces (cursor.rest.length + 1) flow indent false false cursor).map fun (pieces, last) =>
    (fold false pieces, last)

end SwiftTemplate.Yaml
