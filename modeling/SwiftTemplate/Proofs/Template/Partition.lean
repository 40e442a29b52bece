import Mathlib.Algebra.GroupWithZero.Nat
import SwiftTemplate.Template.Node
import SwiftTemplate.Proofs.Swift.Splicing
import SwiftTemplate.Proofs.Text.Lines

/-!
# Templates as partitions

The segments of a template, written one after the other, are the template, and each of them begins
where the ones before it end.
-/
namespace SwiftTemplate

namespace Swift.Token

/-- A closing brace stands right behind the trivia before it. -/
theorem exists_of_kind_next_eq_closer {text : List Char} (h : (next text).1.kind = .closer .brace) :
    ∃ behind, text = (next text).1.leading ++ '\x7d' :: behind := by
  unfold next at h ⊢
  dsimp only at h ⊢
  split at h
  · cases h
  · next c rest hdrop =>
    have hc : c = '\x7d' := (Lexeme.eq_of_mem_punctuation (by decide) h).1
    refine ⟨rest, ?_⟩
    rw [← hc]
    dsimp only [beginning]
    rw [← hdrop, List.take_append_drop]

end Swift.Token

namespace Template

/-- Code before a closing brace, as its tokens tell: some of the text, and the trivia before the brace. -/
def Embedded (code behind : List Char) : Prop :=
  ∃ tokens close others, Swift.Token.ofText (code ++ '\x7d' :: behind) = tokens ++ close :: others ∧
    close.kind = .closer .brace ∧ code = Swift.Token.render tokens ++ close.leading

/-- Code ends in front of a closing brace. -/
theorem exists_of_codeEndFrom? {depth offset stop : Nat} {text : List Char}
    (h : codeEndFrom? depth offset text = some stop) :
    ∃ code behind, text = code ++ '\x7d' :: behind ∧ stop = offset + code.length ∧ Embedded code behind := by
  fun_induction codeEndFrom? depth offset text with
  | case1 => cases h
  | case2 depth offset text first hfirst hdepth hkind =>
    obtain ⟨behind, hbehind⟩ := Swift.Token.exists_of_kind_next_eq_closer hkind
    refine ⟨first.1.leading, behind, hbehind, (Option.some.inj h).symm, [], first.1, Swift.Token.ofText first.2, ?_,
      hkind, rfl⟩
    rw [← hbehind]
    exact Swift.Token.ofText_of_next rfl hfirst
  | case3 => cases h
  | case4 depth offset text first hfirst depth' hdepth ih =>
    obtain ⟨code, behind, hrest, hstop, tokens, close, others, htokens, hclose, hcode⟩ := ih h
    have whole : text = first.1.source ++ code ++ '\x7d' :: behind := by
      rw [List.append_assoc, ← hrest]
      exact (Swift.Token.source_next_append text).symm
    refine ⟨first.1.source ++ code, behind, whole, ?_, first.1 :: tokens, close, others, ?_, hclose, ?_⟩
    · rw [hstop, List.length_append, Nat.add_assoc]
    · rw [← whole, List.cons_append, ← htokens, ← hrest]
      exact Swift.Token.ofText_of_next rfl hfirst
    · rw [hcode, Swift.Token.render_cons, List.append_assoc]

namespace Segment

/-- How the segment that begins a text is found, and how far it goes. -/
inductive Measured (atLineStart : Bool) : Char → List Char → SegmentKind → Nat → Prop
  | doubled {c : Char} {rest : List Char} (sign : c = '$' ∨ c = '%') : Measured atLineStart c (c :: rest) .doubled 1
  | substitution {code : List Char} {extent : Nat} (ends : substitutionExtent? code = some extent) :
      Measured atLineStart '$' ('\x7b' :: code) .substitution extent
  | codeBlock {code : List Char} {extent : Nat} (ends : blockExtent? code = some extent) :
      Measured atLineStart '%' ('\x7b' :: code) .codeBlock extent
  | codeLine {c : Char} {rest : List Char} (starts : atLineStart = true) (begins : beginsCodeLine (c :: rest) = true) :
      Measured atLineStart c rest .codeLine (lineExtent rest)
  /-- A sign whose code has no end is literal text on its own. -/
  | openSubstitution {code : List Char} (open_end : substitutionExtent? code = none) :
      Measured atLineStart '$' ('\x7b' :: code) .literal 0
  | openBlock {code : List Char} (open_end : blockExtent? code = none) :
      Measured atLineStart '%' ('\x7b' :: code) .literal 0
  | literal {c : Char} {rest : List Char} : Measured atLineStart c rest .literal (literalExtent (c = '\n') rest)

theorem measured_of_measure {atLineStart : Bool} {c : Char} {rest : List Char} {kind : SegmentKind} {extent : Nat}
    (h : measure atLineStart c rest = (kind, extent)) : Measured atLineStart c rest kind extent := by
  unfold measure at h
  split at h
  · next sign =>
    simp only [Bool.and_eq_true, Bool.or_eq_true, decide_eq_true_eq] at sign
    obtain ⟨rest, rfl⟩ := List.head?_eq_some_iff.1 sign.2
    cases h
    exact .doubled sign.1
  split at h
  · next sign =>
    simp only [Bool.and_eq_true, decide_eq_true_eq] at sign
    obtain ⟨rfl, ahead⟩ := sign
    obtain ⟨code, rfl⟩ := List.head?_eq_some_iff.1 ahead
    split at h
    · next ends =>
      cases h
      exact .substitution ends
    · next none =>
      cases h
      exact .openSubstitution none
  split at h
  · next sign =>
    simp only [Bool.and_eq_true, decide_eq_true_eq] at sign
    obtain ⟨rfl, ahead⟩ := sign
    obtain ⟨code, rfl⟩ := List.head?_eq_some_iff.1 ahead
    split at h
    · next ends =>
      cases h
      exact .codeBlock ends
    · next none =>
      cases h
      exact .openBlock none
  split at h
  · next code =>
    obtain ⟨starts, begins⟩ := Bool.and_eq_true_iff.1 code
    cases h
    exact .codeLine starts begins
  · cases h
    exact .literal

/-- A substitution is code between `${` and `}`, as the tokens of the code tell. -/
theorem exists_embedded_of_measure {atLineStart : Bool} {c : Char} {rest : List Char} {extent : Nat}
    (h : measure atLineStart c rest = (.substitution, extent)) :
    ∃ code behind, c :: rest.take extent = '$' :: '\x7b' :: (code ++ ['\x7d']) ∧ Embedded code behind := by
  cases measured_of_measure h with
  | substitution ends =>
    obtain ⟨stop, hstop, rfl⟩ := Option.map_eq_some_iff.1 ends
    obtain ⟨code, behind, rfl, rfl, embedded⟩ := exists_of_codeEndFrom? hstop
    refine ⟨code, behind, ?_, embedded⟩
    rw [Nat.zero_add, List.take_succ_cons, List.take_length_add_append]
    rfl

/-- A substitution is code between `${` and `}`. -/
theorem exists_of_measure_eq_substitution {atLineStart : Bool} {c : Char} {rest : List Char} {extent : Nat}
    (h : measure atLineStart c rest = (.substitution, extent)) :
    ∃ code, c :: rest.take extent = '$' :: '\x7b' :: (code ++ ['\x7d']) := by
  obtain ⟨code, behind, hcode, -⟩ := exists_embedded_of_measure h
  exact ⟨code, hcode⟩

theorem exists_of_measure_eq_doubled {atLineStart : Bool} {c : Char} {rest : List Char} {extent : Nat}
    (h : measure atLineStart c rest = (.doubled, extent)) : (c = '$' ∨ c = '%') ∧ c :: rest.take extent = [c, c] := by
  cases measured_of_measure h with
  | doubled sign => exact ⟨sign, rfl⟩

theorem flatMap_text_ofTextFrom (offset : Nat) (atLineStart : Bool) (text : List Char) :
    (ofTextFrom offset atLineStart text).flatMap Segment.text = text := by
  fun_induction ofTextFrom offset atLineStart text with
  | case1 => rfl
  | case2 offset atLineStart c rest measured text ih =>
    rw [List.flatMap_cons, ih, List.cons_append, List.take_append_drop]

/-- The segments of a template are the template. -/
theorem flatMap_text_ofText (template : List Char) : (ofText template).flatMap Segment.text = template :=
  flatMap_text_ofTextFrom 0 true template

theorem offset_of_ofTextFrom {offset : Nat} {atLineStart : Bool} {text : List Char} {before behind : List Segment}
    {segment : Segment} (h : ofTextFrom offset atLineStart text = before ++ segment :: behind) :
    segment.offset = offset + Text.byteSize (before.flatMap Segment.text) := by
  fun_induction ofTextFrom offset atLineStart text generalizing before with
  | case1 => simp at h
  | case2 offset atLineStart c rest text =>
    rename_i ih
    cases before with
    | nil =>
      rw [← (List.cons.inj h).1]
      rfl
    | cons first before =>
      obtain ⟨rfl, hrest⟩ := List.cons.inj h
      rw [ih hrest, List.flatMap_cons, Text.byteSize_append, Nat.add_assoc]

theorem exists_measure_of_mem {offset : Nat} {atLineStart : Bool} {text : List Char} {segment : Segment}
    (h : segment ∈ ofTextFrom offset atLineStart text) :
    ∃ atLineStart c rest extent, measure atLineStart c rest = (segment.kind, extent) ∧
      segment.text = c :: rest.take extent := by
  fun_induction ofTextFrom offset atLineStart text with
  | case1 => cases h
  | case2 offset atLineStart c rest measured text ih =>
    rcases List.mem_cons.1 h with rfl | hmem
    · exact ⟨atLineStart, c, rest, measured.2, rfl, rfl⟩
    · exact ih hmem

end Segment

/-- The text of the template that something to print was written with, without signs around it. -/
def Output.text : Output → List Char
  | literal text => text
  | expression code => code

namespace Node

/-- The node that prints something. -/
def printed (output : Output × Nat) : Node := ⟨.output output.1, output.2⟩

/-- A node that prints has the line breaks of its segment. -/
theorem newlines_text_of_ofSegment {template : List Char} {segment : Segment} (h : segment ∈ Segment.ofText template)
    {output : Output} {offset : Nat} (hnode : ofSegment segment = ⟨.output output, offset⟩) :
    Text.newlines output.text = Text.newlines segment.text := by
  obtain ⟨atLineStart, c, rest, extent, hmeasure, htext⟩ := Segment.exists_measure_of_mem h
  unfold ofSegment at hnode
  split at hnode
  · cases hnode
    rfl
  · next hkind =>
    cases hnode
    obtain ⟨rfl | rfl, hpair⟩ := Segment.exists_of_measure_eq_doubled (hkind ▸ hmeasure)
    · rw [htext, hpair]
      rfl
    · rw [htext, hpair]
      rfl
  · next hkind =>
    cases hnode
    obtain ⟨code, hcode⟩ := Segment.exists_of_measure_eq_substitution (hkind ▸ hmeasure)
    rw [htext, hcode]
    simp [Output.text, unwrap, Text.newlines]
  · cases hnode
  · cases hnode

end Node

end Template

end SwiftTemplate
