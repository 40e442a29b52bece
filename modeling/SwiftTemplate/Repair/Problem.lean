import SwiftTemplate.Repair.Draft
import SwiftTemplate.Swift.Source

/-!
# Problems

The directives of a program that do harm where they stand.
-/
namespace SwiftTemplate.Repair

open Swift (Directive Source Token)

structure Problem where
  line : Nat
  errorLine : Nat
  deriving DecidableEq, Repr

/-- The problem of a directive, if it is at fault for any diagnostic. -/
def problem? (source : Source) (place : Nat × Directive) : Option Problem :=
  (source.blame? place.1 place.2).map fun diagnostic =>
    ⟨source.lineOf place.1, source.lineOf diagnostic.first⟩

/-- The problems of a program, in the order of its directives. -/
def problems (text : List Char) : List Problem :=
  let source := Source.ofText text
  source.directives.filterMap (problem? source)

def isFlagged (text : List Char) (line : Nat) : Bool := (problems text).any (·.line = line)

/-- The first directive on a line. -/
def directiveOn? (source : Source) (line : Nat) : Option (Nat × Directive) :=
  source.directives.find? fun place => source.lineOf place.1 = line

def withoutDirective? (text : List Char) (line : Nat) : Option (List Char) :=
  let source := Source.ofText text
  (directiveOn? source line).map fun place =>
    ((Draft.ofTokens source.tokens).detach place.1 place.2.size).1.render

/-- A program is longer than without one of its directives. -/
theorem length_withoutDirective_lt {text shorter : List Char} {line : Nat}
    (h : withoutDirective? text line = some shorter) : shorter.length < text.length := by
  obtain ⟨⟨index, form⟩, hfind, rfl⟩ := Option.map_eq_some_iff.1 h
  have hmem : (index, form) ∈ Directive.places 0 (Token.ofText text) := List.mem_of_find?_eq_some hfind
  obtain ⟨head, rest, hdrop, hbegins⟩ :=
    Directive.begins_of_first? (Directive.first?_drop_of_mem_places hmem).2
  rw [Nat.sub_zero] at hdrop
  have hname := Directive.text_of_begins hbegins
  have htexts : ((Draft.piecesOf (Token.ofText text)).drop index).map Piece.text
      = Directive.name :: rest.map Token.text := by
    rw [List.map_drop, Draft.map_text_piecesOf, ← List.map_drop, hdrop, List.map_cons, hname]
  cases hpieces : (Draft.piecesOf (Token.ofText text)).drop index with
  | nil => simp [hpieces] at htexts
  | cons first others =>
    have hfirst : first.text = Directive.name := by simpa [hpieces] using (List.cons.inj (hpieces ▸ htexts)).1
    have hunit : ((Draft.ofTokens (Token.ofText text)).pieces.drop index).take form.size
        = first :: others.take (form.size - 1) := by
      rw [show (Draft.ofTokens (Token.ofText text)).pieces = Draft.piecesOf (Token.ofText text) from rfl, hpieces]
      cases form <;> rfl
    have hlength := Draft.length_render_detach hunit
    rw [Draft.render_ofTokens_ofText, hfirst] at hlength
    have : 0 < Directive.name.length := by decide
    exact Nat.lt_of_lt_of_le (Nat.lt_add_of_pos_right this) hlength

end SwiftTemplate.Repair
