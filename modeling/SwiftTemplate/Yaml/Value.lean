import SwiftTemplate.Yaml.Scalar

/-!
# Documents

The values of YAML documents: scalars, sequences and mappings, in block and in flow style. Keys of
mappings stand on one line. Anchors, tags and block scalars are not part of the documents read here.
-/
namespace SwiftTemplate.Yaml

open Text (isSpaceOrTab)

inductive Value
  /-- A scalar, which is plain if it has no quotes. -/
  | scalar (plain : Bool) (text : List Char)
  | sequence (items : List Value)
  | mapping (entries : List (Value × Value))

def Value.missing : Value := .scalar true []

/-- Whether the value between two places is a key: it stands on one line, with a colon behind it. -/
def isKey (first last : Cursor) : Bool :=
  first.line = last.line &&
    match last.rest.dropWhile isSpaceOrTab with
    | ':' :: rest => blankAhead rest
    | _ => false

def behindColon (last : Cursor) : Cursor :=
  { (last.advanceBy ((last.rest.takeWhile isSpaceOrTab).length + 1)) with fresh := false }

mutual

def flowValue (fuel : Nat) (indent : Nat) (flow : Bool) (cursor : Cursor) : Option (Value × Cursor) :=
  match fuel with
  | 0 => none
  | fuel + 1 =>
    match cursor.rest with
    | '[' :: _ =>
      (flowItems fuel (cursor.advance.skip true)).map fun (items, last) =>
        (.sequence items, { last with fresh := false })
    | '\x7b' :: _ =>
      (flowEntries fuel (cursor.advance.skip true)).map fun (entries, last) =>
        (.mapping entries, { last with fresh := false })
    | '"' :: _ => (quoted? '"' cursor).map fun (text, last) => (.scalar false text, last)
    | '\'' :: _ => (quoted? '\'' cursor).map fun (text, last) => (.scalar false text, last)
    | _ =>
      if beginsPlain flow cursor then
        (plain? flow indent cursor).map fun (text, last) => (.scalar true text, last)
      else none

def flowPairValue (fuel : Nat) (cursor : Cursor) : Option (Value × Cursor) :=
  match fuel with
  | 0 => none
  | fuel + 1 =>
    let next := cursor.skip true
    if next.atEnd then none
    else if next.rest.head?.any fun c => c = ',' || c = ']' || c = '\x7d' then some (.missing, next)
    else flowValue fuel 0 true next

/-- A value in a flow collection with the value behind its colon, if it is a key. A key behind a
question mark need not be on the line of its colon, and in a mapping it may be left out. -/
def flowPair (fuel : Nat) (inMapping : Bool) (cursor : Cursor) : Option (Value × Option Value × Cursor) :=
  match fuel with
  | 0 => none
  | fuel + 1 => do
    let explicit := cursor.rest.head? = some '?'
    let first := if explicit then cursor.advance.skip true else cursor
    if first.atEnd then none
    else
      let leftOut := explicit && first.rest.head?.any fun c => c = ':' || c = ',' || c = '\x7d'
      let (key, last) ← if leftOut && inMapping then some (.missing, first) else flowValue fuel 0 true first
      let next := last.skip true
      if next.rest.head? = some ':' && (explicit || next.line = first.line) then
        let (value, last) ← flowPairValue fuel next.advance
        some (key, some value, last)
      else some (key, if explicit then some .missing else none, last)

def flowItems (fuel : Nat) (cursor : Cursor) : Option (List Value × Cursor) :=
  match fuel with
  | 0 => none
  | fuel + 1 =>
    match cursor.rest with
    | ']' :: _ => some ([], cursor.advance)
    | _ => do
      let (key, value, last) ← flowPair fuel false cursor
      let item := match value with
        | none => key
        | some value => .mapping [(key, value)]
      let next := last.skip true
      match next.rest with
      | ',' :: _ =>
        let (items, last) ← flowItems fuel (next.advance.skip true)
        some (item :: items, last)
      | ']' :: _ => some ([item], next.advance)
      | _ => none

def flowEntries (fuel : Nat) (cursor : Cursor) : Option (List (Value × Value) × Cursor) :=
  match fuel with
  | 0 => none
  | fuel + 1 =>
    match cursor.rest with
    | '\x7d' :: _ => some ([], cursor.advance)
    | _ => do
      let (key, value, last) ← flowPair fuel true cursor
      let entry := (key, value.getD .missing)
      let next := last.skip true
      match next.rest with
      | ',' :: _ =>
        let (entries, last) ← flowEntries fuel (next.advance.skip true)
        some (entry :: entries, last)
      | '\x7d' :: _ => some ([entry], next.advance)
      | _ => none

end

mutual

/-- The value in block style whose next token is here, and the place behind it. Its lines begin at
the column `indent` or further, except that the items of a sequence may stand at the column
`dashes`. Without such a token the value is left out. -/
def blockValue (fuel : Nat) (indent : Nat) (dashes : Option Nat) (cursor : Cursor) : Option (Value × Cursor) :=
  match fuel with
  | 0 => none
  | fuel + 1 =>
    if cursor.atEnd then some (.missing, cursor)
    else if cursor.atIndicator '-' then
      if indent ≤ cursor.column then
        if cursor.fresh then blockItems fuel cursor.column false cursor else none
      else if dashes = some cursor.column then
        if cursor.fresh then blockItems fuel cursor.column true cursor else none
      else some (.missing, cursor)
    else if cursor.column < indent then some (.missing, cursor)
    else if cursor.atIndicator '?' then
      if cursor.fresh then blockEntries fuel cursor.column cursor else none
    else do
      let (value, last) ← flowValue fuel indent false cursor
      if isKey cursor last then
        if cursor.fresh then blockEntries fuel cursor.column cursor else none
      else some (value, last)

/-- The items of the block sequence at some column, the next one of which is here. A sequence at the
column of the mapping that it belongs to ends where a key follows. -/
def blockItems (fuel : Nat) (column : Nat) (amongKeys : Bool) (cursor : Cursor) : Option (Value × Cursor) :=
  match fuel with
  | 0 => none
  | fuel + 1 => do
    let (item, last) ← blockValue fuel (column + 1) none ({ cursor.advance with fresh := true }.skip false)
    let next := last.skip false
    if next.atEnd || (next.fresh && next.column < column) then some (.sequence [item], next)
    else if !next.fresh || next.column ≠ column then none
    else if next.atIndicator '-' then
      match ← blockItems fuel column amongKeys next with
      | (.sequence items, last) => some (.sequence (item :: items), last)
      | _ => none
    else if amongKeys then some (.sequence [item], next)
    else none

def blockEntries (fuel : Nat) (column : Nat) (cursor : Cursor) : Option (Value × Cursor) :=
  match fuel with
  | 0 => none
  | fuel + 1 => do
    let (key, value, last) ← blockEntry fuel column cursor
    let next := last.skip false
    if next.atEnd || (next.fresh && next.column < column) then some (.mapping [(key, value)], next)
    else if !next.fresh || next.column ≠ column || next.atIndicator '-' then none
    else
      match ← blockEntries fuel column next with
      | (.mapping entries, last) => some (.mapping ((key, value) :: entries), last)
      | _ => none

def blockEntry (fuel : Nat) (column : Nat) (cursor : Cursor) : Option (Value × Value × Cursor) :=
  match fuel with
  | 0 => none
  | fuel + 1 =>
    let within (cursor : Cursor) := blockValue fuel (column + 1) (some column) (cursor.skip false)
    if cursor.atIndicator '?' then do
      let (key, last) ← within { cursor.advance with fresh := true }
      let next := last.skip false
      if !next.atEnd && next.fresh && next.column = column && next.atIndicator ':' then
        let (value, last) ← within { next.advance with fresh := true }
        some (key, value, last)
      else some (key, .missing, last)
    else do
      let (key, last) ← flowValue fuel (column + 1) false cursor
      if isKey cursor last then
        let (value, last) ← within (behindColon last)
        some (key, value, last)
      else none

end

def isPrintable (c : Char) : Bool :=
  let n := c.toNat
  c = '\t' || c = '\n' || (0x20 ≤ n && n ≤ 0x7E) || (0xA0 ≤ n && n ≤ 0xFFFD && n ≠ 0xFEFF) || 0x10000 ≤ n

/-- A text with `\n` for every line break that is not a character of its own, and without a byte
order mark at its start. -/
def normalizeBreaks : List Char → List Char
  | '\uFEFF' :: text => unify text
  | text => unify text
where
  unify : List Char → List Char
  | [] => []
  | '\r' :: '\n' :: text => '\n' :: unify text
  | c :: text => (if c = '\r' || c = '\u0085' then '\n' else c) :: unify text

/-- Where the content of a document begins: behind its start mark, if it has one. An end mark with
nothing before it is out of place. -/
def openDocument? (cursor : Cursor) : Option Cursor :=
  let first := cursor.skip false
  if !first.atMark then some first
  else if first.rest.head? = some '-' then some ({ (first.advanceBy 3) with fresh := false }.skip false)
  else none

/-- Whether nothing but end marks, of which there are fewer than `fuel`, follows. -/
def closesWithin : Nat → Cursor → Bool
  | 0, _ => false
  | fuel + 1, cursor =>
    let next := cursor.skip false
    if next.atMark && next.rest.head? = some '.' then closesWithin fuel (next.advanceBy 3)
    else next.rest.isEmpty

def closesDocument (cursor : Cursor) : Bool := closesWithin (cursor.rest.length + 1) cursor

/-- The value of a document, if it is well formed and the only one of its text. -/
def read? (text : List Char) : Option Value := do
  let text := normalizeBreaks text
  if !text.all isPrintable then none
  else
    let first ← openDocument? (.start text)
    let (value, last) ← blockValue (4 * text.length + 8) 0 none first
    if closesDocument last then some value else none

end SwiftTemplate.Yaml
