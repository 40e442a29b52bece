import SwiftTemplate.Swift.Literal
import SwiftTemplate.Swift.Number

/-!
# Lexemes

What token begins with a given character, and how far it reaches. Every character begins some
token, so the only question is which.
-/
namespace SwiftTemplate.Swift

/-- The token at the start of a text, less its first character. -/
structure Lexeme where
  kind : Kind
  extent : Nat
  unterminated : Bool := false

namespace Lexeme

def isOperatorChar (c : Char) : Bool :=
  ['/', '=', '-', '+', '!', '*', '%', '<', '>', '&', '|', '^', '~', '?'].contains c

/-- How many operator characters a text begins with, up to a comment. -/
def operatorExtent : List Char → Nat
  | [] => 0
  | c :: rest =>
    if !isOperatorChar c || Comment.beginsLine c rest || Comment.beginsBlock c rest then 0
    else 1 + operatorExtent rest

def operatorKind (name : List Char) : Kind :=
  if name = ['='] then .equal else if name = ['-', '>'] then .arrow else .operator

def wordKind (name : List Char) : Kind :=
  match Keyword.ofName? name with
  | some word => .keyword word
  | none => .identifier

/-- How many characters of a quoted identifier follow its opening quote. It ends with its line at
the latest. -/
def quotedExtent (rest : List Char) : Nat :=
  let name := Text.run (fun c => c ≠ '\x60' && c ≠ '\n') rest
  if (rest.drop name).head? = some '\x60' then name + 1 else name

/-- The token that the hash before `rest` begins: a raw string literal behind one or more hashes, or
a word behind a single one. -/
def pound (rest : List Char) : Lexeme :=
  let more := Text.run (· = '#') rest
  match rest.drop more with
  | '"' :: behind =>
    let literal := Literal.measure (more + 1) behind
    ⟨.string, more + 1 + literal.extent, !literal.closed⟩
  | _ =>
    if more = 0 && rest.head?.any Word.isStart then ⟨.pound, Text.run Word.isInside rest, false⟩
    else ⟨.unknown, 0, false⟩

/-- The tokens that are a single character and begin no other token. -/
def punctuation : List (Char × Kind) :=
  [('\x7b', .opener .brace), ('\x7d', .closer .brace), ('(', .opener .paren), (')', .closer .paren),
   ('[', .opener .square), (']', .closer .square), (',', .comma), (':', .colon), (';', .semicolon),
   ('@', .atSign), ('\\', .backslash)]

/-- The token that begins with the character `c` before `rest`, if it is no punctuation. -/
def readLong (c : Char) (rest : List Char) : Lexeme :=
  if c = '"' then
    let literal := Literal.measure 0 rest
    ⟨.string, literal.extent, !literal.closed⟩
  else if c = '#' then pound rest
  else if c = '\x60' then ⟨.identifier, quotedExtent rest, false⟩
  else if c = '$' then ⟨.identifier, Text.run Word.isInside rest, false⟩
  else if Text.Decimal.isDigit c then
    let (kind, extent) := Number.measure c rest
    ⟨kind, extent, false⟩
  else if c = '.' then
    if rest.head? = some '.' then ⟨.operator, Text.run (fun d => d = '.' || isOperatorChar d) rest, false⟩
    else ⟨.dot, 0, false⟩
  else if isOperatorChar c then
    let extent := operatorExtent rest
    ⟨operatorKind (c :: rest.take extent), extent, false⟩
  else if Word.isStart c then
    let extent := Text.run Word.isInside rest
    ⟨wordKind (c :: rest.take extent), extent, false⟩
  else ⟨.unknown, 0, false⟩

def read (c : Char) (rest : List Char) : Lexeme :=
  match punctuation.lookup c with
  | some kind => ⟨kind, 0, false⟩
  | none => readLong c rest

private theorem operatorKind_ne (name : List Char) : operatorKind name ≠ .endOfText := by
  unfold operatorKind; repeat' split
  all_goals simp

private theorem wordKind_ne (name : List Char) : wordKind name ≠ .endOfText := by
  unfold wordKind; split <;> simp

private theorem pound_ne (rest : List Char) : (pound rest).kind ≠ .endOfText := by
  unfold pound; dsimp only; repeat' split
  all_goals simp

private theorem number_ne (c : Char) (rest : List Char) : (Number.measure c rest).1 ≠ .endOfText := by
  unfold Number.measure; dsimp only; repeat' split
  all_goals simp

private theorem readLong_ne (c : Char) (rest : List Char) : (readLong c rest).kind ≠ .endOfText := by
  unfold readLong; dsimp only; repeat' split
  all_goals simp [pound_ne, operatorKind_ne, wordKind_ne, number_ne]

private theorem punctuation_ne {c : Char} {kind : Kind} (h : punctuation.lookup c = some kind) :
    kind ≠ .endOfText := by
  have listed : ∀ entry ∈ punctuation, entry.2 ≠ .endOfText := by decide
  obtain ⟨before, behind, hsplit, _⟩ := List.lookup_eq_some_iff.1 h
  exact listed (c, kind) (by simp [hsplit])

theorem kind_read_ne (c : Char) (rest : List Char) : (read c rest).kind ≠ .endOfText := by
  unfold read
  split
  · next h => exact punctuation_ne h
  · exact readLong_ne c rest

end Lexeme

end SwiftTemplate.Swift
