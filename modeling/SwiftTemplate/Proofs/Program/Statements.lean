import SwiftTemplate.Program.Print
import SwiftTemplate.Proofs.Template.Partition

/-!
# Print statements by lines

Where an expression stands in the statement that prints it. The statement keeps the line breaks of
what it prints, but for one more in front of everything when an expression on several lines comes
before any line break of a text.
-/
namespace SwiftTemplate.Program

open Template (Output)

/-- Some outputs hold an expression on several lines that no text with a line break comes before. -/
def Displaced (outputs : List Output) : Prop :=
  ∃ before code behind, outputs = before ++ .expression code :: behind ∧ '\n' ∈ code ∧
    ∀ text, .literal text ∈ before → '\n' ∉ text

/-- A text that depends on code spells it out between `before` and `after`, and other code with as
many line breaks changes nothing around it. -/
def Surrounds (text spell : List Char → List Char) (code before after : List Char) : Prop :=
  ∀ other, Text.newlines other = Text.newlines code → text other = before ++ spell other ++ after

namespace Print

/-- Whether the head of a print statement moves to its tail. -/
def movesHead : List Output → Bool
  | [] => false
  | .literal text :: outputs => !text.contains '\n' && movesHead outputs
  | .expression code :: outputs => code.contains '\n' || movesHead outputs

theorem displaced_iff_movesHead (outputs : List Output) : Displaced outputs ↔ movesHead outputs = true := by
  induction outputs with
  | nil =>
    constructor
    · rintro ⟨before, code, behind, split, -, -⟩
      simp at split
    · intro h
      cases h
  | cons output outputs ih =>
    cases output with
    | literal text =>
      rw [movesHead, Bool.and_eq_true, ← ih]
      constructor
      · rintro ⟨before, code, behind, split, hcode, hbefore⟩
        cases before with
        | nil => cases split
        | cons first before =>
          obtain ⟨rfl, rfl⟩ := List.cons.inj split
          have plain := hbefore text (List.mem_cons_self ..)
          refine ⟨by simpa using plain, before, code, behind, rfl, hcode, ?_⟩
          intro other hother
          exact hbefore other (List.mem_cons_of_mem _ hother)
      · rintro ⟨plain, before, code, behind, rfl, hcode, hbefore⟩
        refine ⟨.literal text :: before, code, behind, rfl, hcode, ?_⟩
        intro other hother
        rcases List.mem_cons.1 hother with same | hother
        · cases same
          simpa using plain
        · exact hbefore other hother
    | expression inner =>
      rw [movesHead, Bool.or_eq_true, ← ih]
      constructor
      · rintro ⟨before, code, behind, split, hcode, hbefore⟩
        cases before with
        | nil =>
          cases split
          exact .inl (by simpa using hcode)
        | cons first before =>
          obtain ⟨rfl, rfl⟩ := List.cons.inj split
          refine .inr ⟨before, code, behind, rfl, hcode, ?_⟩
          intro other hother
          exact hbefore other (List.mem_cons_of_mem _ hother)
      · rintro (several | ⟨before, code, behind, rfl, hcode, hbefore⟩)
        · exact ⟨[], inner, outputs, rfl, by simpa using several, by simp⟩
        · refine ⟨.expression inner :: before, code, behind, rfl, hcode, ?_⟩
          intro other hother
          rcases List.mem_cons.1 hother with same | hother
          · cases same
          · exact hbefore other hother

end Print

instance (outputs : List Output) : Decidable (Displaced outputs) :=
  decidable_of_iff _ (Print.displaced_iff_movesHead outputs).symm

namespace Print

/-! ## Line breaks of escaped text -/

theorem newlines_inlineText (text : List Char) : Text.newlines (inlineText text) = 0 := by
  induction text with
  | nil => rfl
  | cons c text ih =>
    have own : Text.newlines (escapeInline c) = 0 := by
      unfold escapeInline escapeBlock
      repeat' split
      all_goals simp_all [Text.newlines]
    rw [inlineText, List.flatMap_cons, Text.newlines_append, own, Nat.zero_add]
    exact ih

theorem newlines_blockText (text : List Char) : Text.newlines (blockText text) = Text.newlines text := by
  induction text with
  | nil => rfl
  | cons c text ih =>
    have own : Text.newlines (escapeBlock c) = Text.newlines [c] := by
      unfold escapeBlock
      repeat' split
      all_goals simp_all [Text.newlines]
    rw [blockText, List.flatMap_cons, Text.newlines_append, own]
    exact (congrArg (_ + ·) ih).trans (Text.newlines_append [c] text).symm

theorem newlines_interpolation (code : List Char) : Text.newlines (interpolation code) = Text.newlines code := by
  simp [interpolation, Text.newlines]

/-- What is printed in a literal on several lines has its own line breaks. -/
theorem newlines_blockOutput (output : Output) : Text.newlines (blockOutput output) = Text.newlines output.text := by
  cases output with
  | literal text => exact newlines_blockText text
  | expression code => exact newlines_interpolation code

theorem newlines_flatMap_blockOutput (outputs : List Output) :
    Text.newlines (outputs.flatMap blockOutput) = (outputs.map fun output => Text.newlines output.text).sum := by
  induction outputs with
  | nil => rfl
  | cons output outputs ih =>
    rw [List.flatMap_cons, Text.newlines_append, ih, newlines_blockOutput, List.map_cons, List.sum_cons]

/-! ## The place of an expression -/

theorem newlines_eq_zero_iff {text : List Char} : Text.newlines text = 0 ↔ text.contains '\n' = false := by
  simp [Text.newlines, List.count_eq_zero]

theorem newlines_of_cutAt?_eq_none {text : List Char} (h : Text.cutAt? '\n' text = none) :
    text.contains '\n' = false := by
  induction text with
  | nil => rfl
  | cons c text ih =>
    rw [Text.cutAt?] at h
    split at h
    · cases h
    · next hc =>
      have rest := ih (by simpa using h)
      rw [List.contains_cons, rest, Bool.or_false]
      simpa using Ne.symm hc

private theorem newlines_of_cutAt?_eq_some {text line rest : List Char} (h : Text.cutAt? '\n' text = some (line, rest)) :
    Text.newlines text = 1 + Text.newlines rest := by
  induction text generalizing line with
  | nil => cases h
  | cons c text ih =>
    rw [Text.cutAt?] at h
    split at h
    · next hc =>
      cases h
      simp [hc, Text.newlines, Nat.add_comm]
    · next hc =>
      obtain ⟨⟨line, rest⟩, hcut, heq⟩ := Option.map_eq_some_iff.1 h
      cases heq
      rw [← ih hcut]
      simp [Text.newlines, hc]

private theorem statement_of_tail (head : List Char) {tail : List Char} (h : tail ≠ []) :
    statement ⟨head, some tail⟩
      = "print(".toList ++ (if head = [] then [] else inlineLiteral head ++ " + ".toList) ++ "\"\"\"\n".toList
        ++ tail ++ "\n\"\"\", terminator: \"\")".toList := by
  have filled : tail.isEmpty = false := by simpa using h
  unfold statement argument blockLiteral
  by_cases hhead : head = []
  · simp [filled, hhead]
  · simp [filled, hhead]

/-- What is printed without a line break is added to the head. -/
theorem exists_printed {output : Output} (h : output.text.contains '\n' = false) :
    ∃ printed, Text.newlines printed = 0 ∧ ∀ head outputs,
      ofOutputs head (output :: outputs) = ofOutputs (head ++ printed) outputs ∧
      movesHead (output :: outputs) = movesHead outputs := by
  cases output with
  | literal text =>
    have plain : text.contains '\n' = false := h
    have hcut : Text.cutAt? '\n' text = none := by
      cases hcut : Text.cutAt? '\n' text with
      | none => rfl
      | some parts =>
        rw [Text.cutAt?_eq_some hcut] at plain
        simp at plain
    refine ⟨inlineText text, newlines_inlineText text, ?_⟩
    intro head outputs
    constructor
    · rw [ofOutputs, hcut]
    · rw [movesHead, plain, Bool.not_false, Bool.true_and]
  | expression code =>
    have plain : code.contains '\n' = false := h
    refine ⟨interpolation code, (newlines_interpolation code).trans (newlines_eq_zero_iff.2 plain), ?_⟩
    intro head outputs
    constructor
    · rw [ofOutputs, plain, if_neg (by simp)]
    · rw [movesHead, plain, Bool.false_or]

/-- Behind a line break everything is printed in the tail as it is. -/
theorem exists_tail {output : Output} (h : output.text.contains '\n' = true) :
    ∃ before after, Text.newlines after = Text.newlines output.text ∧ ∀ outputs,
      Text.newlines before = (if movesHead (output :: outputs) then 1 else 0) ∧
      (outputs.flatMap blockOutput ≠ [] → ∀ head, (ofOutputs head (output :: outputs)).statement
        = before ++ head ++ after ++ outputs.flatMap blockOutput ++ "\n\"\"\", terminator: \"\")".toList) := by
  cases output with
  | literal text =>
    have broken : text.contains '\n' = true := h
    cases hcut : Text.cutAt? '\n' text with
    | none =>
      rw [newlines_of_cutAt?_eq_none hcut] at broken
      cases broken
    | some parts =>
      obtain ⟨line, rest⟩ := parts
      refine ⟨"print(\"".toList, inlineText line ++ ['\\', 'n'] ++ "\" + \"\"\"\n".toList ++ blockText rest, ?_, ?_⟩
      · rw [show (Output.literal text).text = text from rfl, newlines_of_cutAt?_eq_some hcut]
        simp only [Text.newlines_append, newlines_inlineText, newlines_blockText]
        rfl
      · intro outputs
        constructor
        · rw [movesHead, broken]
          rfl
        · intro filled head
          rw [ofOutputs, hcut]
          simp only [statement_of_tail _ (List.append_ne_nil_of_right_ne_nil _ filled)]
          simp [inlineLiteral]
  | expression code =>
    have broken : code.contains '\n' = true := h
    refine ⟨"print(\"\"\"\n".toList, interpolation code, newlines_interpolation code, ?_⟩
    intro outputs
    constructor
    · rw [movesHead, broken, Bool.true_or]
      rfl
    · intro filled head
      rw [ofOutputs, if_pos broken, statement_of_tail _ (List.append_ne_nil_of_right_ne_nil _ filled)]
      simp

/-- A print statement takes up the head behind a text that does not depend on it, which has a line
break if the head moves to the tail. -/
theorem exists_opening (outputs : List Output) :
    ∃ opening closing, Text.newlines opening = (if movesHead outputs then 1 else 0) ∧
      ∀ head, (ofOutputs head outputs).statement = opening ++ head ++ closing := by
  induction outputs with
  | nil =>
    refine ⟨"print(\"".toList, "\", terminator: \"\")".toList, rfl, ?_⟩
    intro head
    unfold statement argument inlineLiteral
    simp [ofOutputs]
  | cons output outputs ih =>
    by_cases broken : output.text.contains '\n' = true
    · cases output with
      | literal text =>
        have broken : text.contains '\n' = true := broken
        cases hcut : Text.cutAt? '\n' text with
        | none =>
          rw [newlines_of_cutAt?_eq_none hcut] at broken
          cases broken
        | some parts =>
          obtain ⟨line, rest⟩ := parts
          refine ⟨"print(\"".toList, ?_⟩
          by_cases htail : blockText rest ++ outputs.flatMap blockOutput = []
          · refine ⟨inlineText line ++ ['\\', 'n'] ++ "\", terminator: \"\")".toList, ?_, ?_⟩
            · rw [movesHead, broken]
              rfl
            · intro head
              rw [ofOutputs, hcut]
              unfold statement argument inlineLiteral
              simp [htail]
          · refine ⟨inlineText line ++ ['\\', 'n'] ++ "\" + \"\"\"\n".toList
              ++ (blockText rest ++ outputs.flatMap blockOutput) ++ "\n\"\"\", terminator: \"\")".toList, ?_, ?_⟩
            · rw [movesHead, broken]
              rfl
            · intro head
              rw [ofOutputs, hcut]
              simp only [statement_of_tail _ htail]
              simp [inlineLiteral]
      | expression code =>
        have broken : code.contains '\n' = true := broken
        refine ⟨"print(\"\"\"\n".toList,
          interpolation code ++ outputs.flatMap blockOutput ++ "\n\"\"\", terminator: \"\")".toList, ?_, ?_⟩
        · rw [movesHead, broken, Bool.true_or]
          rfl
        · intro head
          rw [ofOutputs, if_pos broken, statement_of_tail _ (by simp [interpolation])]
          simp
    · obtain ⟨printed, -, hprinted⟩ := exists_printed (Bool.eq_false_iff.2 broken)
      obtain ⟨opening, closing, hlines, hstatement⟩ := ih
      refine ⟨opening, printed ++ closing, ?_, ?_⟩
      · rw [(hprinted [] outputs).2]
        exact hlines
      · intro head
        rw [(hprinted head outputs).1, hstatement]
        simp only [List.append_assoc]

/-- What is put into the head before an expression stands before the expression in the statement. -/
theorem exists_surrounds_head (later : List Output) (code : List Char) {head : List Char}
    (hhead : Text.newlines head = 0) :
    ∃ before after, Text.newlines before = (if movesHead (.expression code :: later) then 1 else 0) ∧
      Surrounds (fun other => (ofOutputs head (.expression other :: later)).statement) interpolation code
        before after := by
  have same {other : List Char} (hother : Text.newlines other = Text.newlines code) :
      other.contains '\n' = code.contains '\n' := by
    rw [Bool.eq_iff_iff, ← not_iff_not, Bool.not_eq_true, Bool.not_eq_true, ← newlines_eq_zero_iff,
      ← newlines_eq_zero_iff, hother]
  by_cases several : code.contains '\n' = true
  · refine ⟨"print(\"\"\"\n".toList ++ head,
      later.flatMap blockOutput ++ "\n\"\"\", terminator: \"\")".toList, ?_, ?_⟩
    · rw [movesHead, several, Text.newlines_append, hhead]
      rfl
    · intro other hother
      dsimp only
      rw [ofOutputs, same hother, if_pos several, statement_of_tail _ (by simp [interpolation])]
      simp
  · obtain ⟨opening, closing, hlines, hstatement⟩ := exists_opening later
    rw [Bool.not_eq_true] at several
    refine ⟨opening ++ head, closing, ?_, ?_⟩
    · rw [movesHead, several, Text.newlines_append, hlines, hhead, Bool.false_or, Nat.add_zero]
    · intro other hother
      dsimp only
      rw [ofOutputs, same hother, several, if_neg (by simp), hstatement]
      simp only [List.append_assoc]

/-- An expression stands in its print statement below the line breaks of what is printed before it,
and one line further down if the head moves to the tail. -/
theorem exists_surrounds (earlier later : List Output) (code : List Char) {head : List Char}
    (hhead : Text.newlines head = 0) :
    ∃ before after,
      Text.newlines before = (earlier.map fun output => Text.newlines output.text).sum
        + (if Displaced (earlier ++ .expression code :: later) then 1 else 0) ∧
      Surrounds (fun other => (ofOutputs head (earlier ++ .expression other :: later)).statement) interpolation code
        before after := by
  simp only [displaced_iff_movesHead]
  induction earlier generalizing head with
  | nil =>
    obtain ⟨before, after, hlines, hsurrounds⟩ := exists_surrounds_head later code hhead
    refine ⟨before, after, ?_, hsurrounds⟩
    rw [List.map_nil, List.sum_nil, Nat.zero_add]
    exact hlines
  | cons output earlier ih =>
    by_cases broken : output.text.contains '\n' = true
    · -- The tail begins with the first line break: from there on every output keeps its own.
      obtain ⟨before, after, hafter, htail⟩ := exists_tail broken
      refine ⟨before ++ head ++ after ++ earlier.flatMap blockOutput,
        later.flatMap blockOutput ++ "\n\"\"\", terminator: \"\")".toList, ?_, ?_⟩
      · rw [List.cons_append, ← (htail _).1, List.map_cons, List.sum_cons]
        simp only [Text.newlines_append, hhead, hafter, newlines_flatMap_blockOutput]
        omega
      · intro other _
        dsimp only
        rw [List.cons_append, (htail _).2 (by simp [blockOutput, interpolation])]
        simp [blockOutput]
    · rw [Bool.not_eq_true] at broken
      obtain ⟨printed, hlines, hprinted⟩ := exists_printed broken
      have hhead' : Text.newlines (head ++ printed) = 0 := by
        rw [Text.newlines_append, hhead, hlines]
      obtain ⟨before, after, hbefore, hsurrounds⟩ := ih hhead'
      refine ⟨before, after, ?_, ?_⟩
      · rw [hbefore, List.cons_append, (hprinted head _).2, List.map_cons, List.sum_cons,
          newlines_eq_zero_iff.2 broken, Nat.zero_add]
      · intro other hother
        rw [← hsurrounds other hother]
        dsimp only
        rw [List.cons_append, (hprinted head _).1]

end Print

end SwiftTemplate.Program
