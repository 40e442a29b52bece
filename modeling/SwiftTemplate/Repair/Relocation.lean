import SwiftTemplate.Repair.Problem

/-!
# Relocation

A directive that is at fault moves forward to the first line start where it is not, and then
announces the program line below it, so that the code behind it maps to the program itself. A
directive that fits nowhere is dropped. Moves are limited in number, because one can disturb
another directive; what is still at fault behind the last of them is dropped as well.
-/
namespace SwiftTemplate.Repair

open Swift (Directive Source)

/-- The program with a directive put in at a place, and the line on which it then stands. -/
def placed (draft : Draft) (unit : List Piece) (index : Nat) : List Char × Nat :=
  let trial := draft.insert index unit
  let line := trial.lineOf index
  let trial :=
    if unit.length = Directive.located.size then
      trial.setText (index + Directive.lineToken) (Text.Decimal.write (line + 1))
    else trial
  (trial.render, line)

/-- The program with a directive put in at the first place from `index` on where it is not at
fault. Places are the starts of lines that are not inside another directive, and the end. -/
def firstFit? (draft : Draft) (unit : List Piece) (index : Nat) : Option (List Char) :=
  if index < draft.pieces.length then
    match draft.directiveAt? index with
    | some form => firstFit? draft unit (index + form.size)
    | none =>
      if draft.startsLine index then
        let (text, line) := placed draft unit index
        if isFlagged text line then firstFit? draft unit (index + 1) else some text
      else firstFit? draft unit (index + 1)
  else none
termination_by draft.pieces.length - index
decreasing_by all_goals first | omega | (have positive := Directive.size_pos form; omega)

def relocate (text : List Char) (line : Nat) : List Char :=
  let source := Source.ofText text
  match directiveOn? source line with
  | none => text
  | some (index, form) =>
    let (rest, unit) := (Draft.ofTokens source.tokens).detach index form.size
    (firstFit? rest unit index).getD rest.render

/-- The program without the directives that are at fault, the first one of them taken out until
there is none. -/
def dropFlagged (text : List Char) : List Char :=
  match problems text with
  | [] => text
  | problem :: _ =>
    match _ : withoutDirective? text problem.line with
    | none => text
    | some shorter => dropFlagged shorter
termination_by text.length
decreasing_by exact length_withoutDirective_lt ‹_›

/-- The program after at most `rounds` moves, without the directives that are then at fault. -/
def settle : Nat → List Char → List Char
  | 0, text => dropFlagged text
  | rounds + 1, text =>
    match problems text with
    | [] => text
    | problem :: _ => settle rounds (relocate text problem.line)

def budget (text : List Char) : Nat := 2 * (Source.ofText text).directives.length + 4

def fix (text : List Char) : List Char := settle (budget text) text

end SwiftTemplate.Repair
