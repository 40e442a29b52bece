import SwiftTemplate.Swift.Comment

/-!
# String literals

A string literal may hold interpolations, which hold code, which may hold string literals, to any
depth. The scanner keeps the literals and interpolations it is inside of, innermost first.
-/
namespace SwiftTemplate.Swift.Literal

inductive Mode
  /-- The text of a literal with some number of `#` around its quotes, on one line or several. -/
  | text (hashes : Nat) (multiline : Bool)
  /-- The code of an interpolation, inside some number of further parentheses. -/
  | interpolation (depth : Nat)
  deriving DecidableEq, Repr

def hashesAhead (n : Nat) (s : List Char) : Bool := (List.replicate n '#').isPrefixOf s

/-- Whether the quote before `rest` is the first of three. -/
def isTriple (rest : List Char) : Bool := ['"', '"'].isPrefixOf rest

def quoteExtent (multiline : Bool) : Nat := if multiline then 2 else 0

/-- One step through the text of a literal. An escape is a backslash with as many `#` as the
literal has, and covers the character behind it; a line break ends a literal on one line. -/
def textStep (hashes : Nat) (multiline : Bool) (outer : List Mode) (c : Char) (rest : List Char) :
    Option (Nat × List Mode) :=
  let same := Mode.text hashes multiline :: outer
  if c = '\\' && hashesAhead hashes rest then
    match (rest.drop hashes).head? with
    | none => some (hashes, same)
    | some d =>
      if d = '(' then some (hashes + 1, .interpolation 0 :: same)
      else if !multiline && Comment.isBreak d then some (hashes, same)
      else some (hashes + 1, same)
  else if c = '"' && (!multiline || isTriple rest) && hashesAhead hashes (rest.drop (quoteExtent multiline)) then
    some (quoteExtent multiline + hashes, outer)
  else if !multiline && Comment.isBreak c then none
  else some (0, same)

def interpolationStep (depth : Nat) (outer : List Mode) (c : Char) (rest : List Char) : Nat × List Mode :=
  let same := Mode.interpolation depth :: outer
  if c = '(' then (0, .interpolation (depth + 1) :: outer)
  else if c = ')' then (0, if depth = 0 then outer else .interpolation (depth - 1) :: outer)
  else if c = '"' then
    let multiline := isTriple rest
    (quoteExtent multiline, .text 0 multiline :: same)
  else if c = '#' then
    let more := Text.run (· = '#') rest
    match rest.drop more with
    | '"' :: behind =>
      let multiline := isTriple behind
      (more + 1 + quoteExtent multiline, .text (more + 1) multiline :: same)
    | _ => (more, same)
  else if Comment.beginsLine c rest then (Comment.lineExtent rest, same)
  else if Comment.beginsBlock c rest then ((Comment.block rest).extent, same)
  else (0, same)

def step : List Mode → Char → List Char → Option (Nat × List Mode)
  | [], _, _ => none
  | .text hashes multiline :: outer, c, rest => textStep hashes multiline outer c rest
  | .interpolation depth :: outer, c, rest => some (interpolationStep depth outer c rest)

/-- How far the scanner gets inside the given modes, and what it is then still inside of. -/
def scan (modes : List Mode) (text : List Char) : Nat × List Mode := Text.walk step modes text

structure Extent where
  /-- How many characters follow the first quote. -/
  extent : Nat
  closed : Bool

/-- The literal with some number of `#` before its first quote, which stands before `rest`. -/
def measure (hashes : Nat) (rest : List Char) : Extent :=
  let multiline := isTriple rest
  let (n, modes) := scan [.text hashes multiline] (rest.drop (quoteExtent multiline))
  ⟨quoteExtent multiline + n, modes.isEmpty⟩

def escape (c : Char) : List Char :=
  if c = '\\' then ['\\', '\\']
  else if c = '"' then ['\\', '"']
  else if c = '\n' then ['\\', 'n']
  else if c = '\r' then ['\\', 'r']
  else if c = '\t' then ['\\', 't']
  else if c = '\x00' then ['\\', '0']
  else [c]

def quote (value : List Char) : List Char := '"' :: (value.flatMap escape ++ ['"'])

end SwiftTemplate.Swift.Literal
