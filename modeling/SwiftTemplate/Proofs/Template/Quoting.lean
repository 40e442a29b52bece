import SwiftTemplate.Proofs.Template.Lines
import SwiftTemplate.Template.Node

/-!
# Quoted texts

Every text can be written in a template: with its signs doubled it is printed as it stands, because
no segment ends between the two signs of a pair.
-/
namespace SwiftTemplate.Template

/-- Whether a character can begin anything but literal text. -/
def isSign (c : Char) : Bool := c = '$' || c = '%'

/-- A text with every sign doubled. -/
def quote (text : List Char) : List Char := text.flatMap fun c => if isSign c then [c, c] else [c]

@[simp] theorem quote_nil : quote [] = [] := rfl

theorem quote_sign {c : Char} (h : isSign c = true) (text : List Char) : quote (c :: text) = c :: c :: quote text := by
  rw [quote, List.flatMap_cons, if_pos h]
  rfl

theorem quote_plain {c : Char} (h : isSign c = false) (text : List Char) : quote (c :: text) = c :: quote text := by
  rw [quote, List.flatMap_cons, h]
  rfl

namespace Segment

/-- A doubled sign begins no line of code, whatever it stands behind. -/
theorem beginsCodeLine_quote (text : List Char) : beginsCodeLine (quote text) = false := by
  induction text with
  | nil => rfl
  | cons c text ih =>
    by_cases sign : isSign c = true
    · rw [quote_sign sign, beginsCodeLine_cons]
      rcases Bool.or_eq_true_iff.1 sign with hc | hc
      · rw [of_decide_eq_true hc]
        rfl
      · rw [of_decide_eq_true hc]
        rfl
    · rw [Bool.not_eq_true] at sign
      rw [quote_plain sign, beginsCodeLine_cons]
      split
      · exact ih
      · have other : c ≠ '%' := (by simpa [isSign] using sign : c ≠ '$' ∧ c ≠ '%').2
        rw [decide_eq_false other, Bool.false_and]

/-- Literal text goes on up to the next pair of signs. -/
theorem exists_literalExtent_quote (atLineStart : Bool) (text : List Char) :
    ∃ plain rest, text = plain ++ rest ∧ quote text = plain ++ quote rest ∧
      literalExtent atLineStart (quote text) = plain.length := by
  induction text generalizing atLineStart with
  | nil => exact ⟨[], [], rfl, rfl, rfl⟩
  | cons c text ih =>
    by_cases sign : isSign c = true
    · refine ⟨[], c :: text, rfl, rfl, ?_⟩
      have stops : (c = '$' || c = '%' || (atLineStart && beginsCodeLine (c :: c :: quote text))) = true := by
        rw [Bool.or_eq_true]
        exact .inl sign
      rw [quote_sign sign, literalExtent, if_pos stops]
      rfl
    · rw [Bool.not_eq_true] at sign
      obtain ⟨plain, rest, split, quoted, extent⟩ := ih (c = '\n')
      have code := beginsCodeLine_quote (c :: text)
      rw [quote_plain sign] at code ⊢
      have goesOn : ¬ (c = '$' || c = '%' || (atLineStart && beginsCodeLine (c :: quote text))) = true := by
        rw [code, Bool.and_false, Bool.or_false]
        exact Bool.eq_false_iff.1 sign
      refine ⟨c :: plain, rest, ?_, ?_, ?_⟩
      · rw [split]
        rfl
      · rw [quoted]
        rfl
      · rw [literalExtent, if_neg goesOn, extent, List.length_cons, Nat.add_comm]

theorem measure_quote_sign (atLineStart : Bool) {c : Char} (h : isSign c = true) (rest : List Char) :
    measure atLineStart c (c :: rest) = (.doubled, 1) := by
  have pair : (c = '$' || c = '%') = true := h
  rw [measure, pair, List.head?_cons]
  simp

theorem measure_quote_plain (atLineStart : Bool) {c : Char} (h : isSign c = false) (text : List Char) :
    measure atLineStart c (quote text) = (.literal, literalExtent (c = '\n') (quote text)) := by
  have other : c ≠ '$' ∧ c ≠ '%' := by simpa [isSign] using h
  have code := beginsCodeLine_quote (c :: text)
  rw [quote_plain h] at code
  simp [measure, other, code]

/-- The segments of a quoted text print the text. -/
theorem exists_contents_quote (offset : Nat) (atLineStart : Bool) (text : List Char) :
    ∃ texts : List (List Char), (ofTextFrom offset atLineStart (quote text)).map (fun segment => (Node.ofSegment segment).content)
        = texts.map (fun part => .output (.literal part)) ∧ texts.flatten = text := by
  cases text with
  | nil =>
    refine ⟨[], ?_, rfl⟩
    rw [quote_nil, ofTextFrom]
    rfl
  | cons c text =>
    by_cases sign : isSign c = true
    · rw [quote_sign sign, ofTextFrom]
      simp only [measure_quote_sign atLineStart sign]
      obtain ⟨texts, contents, whole⟩ := exists_contents_quote (offset + Text.byteSize [c, c])
        ([c, c].getLast? = some '\n') text
      refine ⟨[c] :: texts, ?_, ?_⟩
      · rw [List.map_cons, List.map_cons, ← contents]
        rfl
      · rw [List.flatten_cons, whole]
        rfl
    · rw [Bool.not_eq_true] at sign
      obtain ⟨plain, rest, split, quoted, extent⟩ := exists_literalExtent_quote (c = '\n') text
      rw [quote_plain sign, ofTextFrom]
      simp only [measure_quote_plain atLineStart sign, extent]
      rw [quoted, List.take_left, List.drop_left]
      have shorter : rest.length ≤ text.length := by
        rw [split, List.length_append]
        exact Nat.le_add_left _ _
      obtain ⟨texts, contents, whole⟩ := exists_contents_quote (offset + Text.byteSize (c :: plain))
        ((c :: plain).getLast? = some '\n') rest
      refine ⟨(c :: plain) :: texts, ?_, ?_⟩
      · rw [List.map_cons, List.map_cons, ← contents]
        rfl
      · rw [List.flatten_cons, whole, split]
        rfl
termination_by text.length

end Segment

/-- Every text is what some template prints: with its signs doubled it falls into literal nodes only,
and their texts one after the other are the text. -/
theorem Node.contents_ofText_quote (text : List Char) :
    ∃ texts : List (List Char), (ofText (quote text)).map content = texts.map (fun part => .output (.literal part)) ∧
      texts.flatten = text := by
  obtain ⟨texts, contents, whole⟩ := Segment.exists_contents_quote 0 true text
  refine ⟨texts, ?_, whole⟩
  rw [← contents, ofText, List.map_map]
  rfl

/-- The signs of a substitution, of a block and of an indented line of code. -/
example : (Node.ofText (quote "$\x7bx\x7d%\x7b \x7d%\n % y$$".toList)).map Node.content
    = ["$".toList, "\x7bx\x7d".toList, "%".toList, "\x7b \x7d".toList, "%".toList, "\n ".toList, "%".toList,
        " y".toList, "$".toList, "$".toList].map fun part => .output (.literal part) := by
  decide +kernel

end SwiftTemplate.Template
