import Mathlib.Data.List.Forall2
import SwiftTemplate.Proofs.Swift.LineEnds
import SwiftTemplate.Proofs.Template.CodeLines

/-!
# Templates with longer line ends

A template whose lines end with `\r\n` falls into the same segments as the template, with longer line
ends inside them, and its nodes stand on the same lines.
-/
namespace SwiftTemplate.Template

open Swift (Follows Token)
open Text (crlf isSpaceOrTab)

/-- A measure takes of a text with longer line ends what it takes of the text, with the longer line
ends in it: `own` characters here and `other` ones there. -/
def Stretches (text : List Char) (own other : Nat) : Prop :=
  ∃ taken left, text = taken ++ left ∧ own = taken.length ∧ other = (crlf taken).length

theorem Stretches.cons {text : List Char} {own other : Nat} (h : Stretches text own other) {c : Char} (hc : c ≠ '\n') :
    Stretches (c :: text) (own + 1) (other + 1) := by
  obtain ⟨taken, left, rfl, rfl, rfl⟩ := h
  refine ⟨c :: taken, left, rfl, rfl, ?_⟩
  rw [Text.crlf_cons hc, List.length_cons]

theorem Stretches.take_crlf {text : List Char} {own other : Nat} (h : Stretches text own other) :
    (crlf text).take other = crlf (text.take own) := by
  obtain ⟨taken, left, rfl, rfl, rfl⟩ := h
  rw [Text.crlf_append, List.take_left, List.take_left]

theorem Stretches.drop_crlf {text : List Char} {own other : Nat} (h : Stretches text own other) :
    (crlf text).drop other = crlf (text.drop own) := by
  obtain ⟨taken, left, rfl, rfl, rfl⟩ := h
  rw [Text.crlf_append, List.drop_left, List.drop_left]

/-! ## Where code ends -/

/-- Code ends at the same brace where lines have longer ends, or at none. -/
theorem codeEndFrom?_follows (depth offset : Nat) (u : List Char) : ∀ v, Follows u v → ∀ offset',
    (codeEndFrom? depth offset u = none ∧ codeEndFrom? depth offset' v = none) ∨
      ∃ code code' behind, u = code ++ '\x7d' :: behind ∧ v = code' ++ '\x7d' :: crlf behind ∧
        codeEndFrom? depth offset u = some (offset + code.length) ∧
        codeEndFrom? depth offset' v = some (offset' + code'.length) := by
  fun_induction codeEndFrom? depth offset u with
  | case1 depth offset u first final =>
    intro v h offset'
    left
    refine ⟨rfl, ?_⟩
    rw [codeEndFrom?]
    exact dif_pos ((Token.next_follows h).1.trans final)
  | case2 depth offset u first filled outermost closes =>
    intro v h offset'
    right
    obtain ⟨kind, further⟩ := Token.next_follows h
    obtain ⟨⟨c, behind, hu, hv⟩, -⟩ := further filled
    obtain ⟨behind', brace⟩ := Token.exists_of_kind_next_eq_closer closes
    obtain ⟨rfl, rfl⟩ := List.cons.inj (List.append_cancel_left (hu.symm.trans brace))
    refine ⟨_, _, behind, hu, hv, rfl, ?_⟩
    rw [codeEndFrom?]
    simp only [kind]
    rw [dif_neg filled, outermost, if_pos closes]
  | case3 depth offset u first filled outermost other =>
    intro v h offset'
    left
    refine ⟨rfl, ?_⟩
    rw [codeEndFrom?]
    simp only [(Token.next_follows h).1]
    rw [dif_neg filled, outermost, if_neg other]
  | case4 depth offset u first filled depth' inner ih =>
    -- Behind the first tokens the texts differ in their line ends again, so that the offsets may drift apart.
    intro v h offset'
    obtain ⟨kind, further⟩ := Token.next_follows h
    obtain ⟨-, left⟩ := further filled
    have step : codeEndFrom? depth offset' v
        = codeEndFrom? depth' (offset' + (Token.next v).1.source.length) (Token.next v).2 := by
      rw [codeEndFrom?]
      simp only [kind]
      rw [dif_neg filled, inner]
    rw [step]
    rcases ih _ left (offset' + (Token.next v).1.source.length) with none | ⟨code, code', behind, hu, hv, own, other⟩
    · exact .inl none
    · refine .inr ⟨first.1.source ++ code, (Token.next v).1.source ++ code', behind, ?_, ?_, ?_, ?_⟩
      · rw [List.append_assoc, ← hu]
        exact (Token.source_next_append u).symm
      · rw [List.append_assoc, ← hv]
        exact (Token.source_next_append v).symm
      · rw [own, List.length_append, Nat.add_assoc]
      · rw [other, List.length_append, Nat.add_assoc]

/-- Code that does not end does not end where lines have longer ends. Code that ends takes the longer line
ends along. -/
theorem codeEnd?_crlf (text : List Char) : (codeEnd? text = none ∧ codeEnd? (crlf text) = none) ∨
    ∃ code behind, text = code ++ '\x7d' :: behind ∧ codeEnd? text = some code.length ∧
      codeEnd? (crlf text) = some (crlf code).length := by
  have ends := codeEndFrom?_follows 0 0 text (crlf text) (.inl rfl) 0
  rcases ends with none | ⟨code, code', behind, rfl, split, own, other⟩
  · exact .inl none
  · refine .inr ⟨code, behind, rfl, ?_, ?_⟩
    · rw [codeEnd?, own, Nat.zero_add]
    · have brace : crlf ('\x7d' :: behind) = '\x7d' :: crlf behind := Text.crlf_cons (by decide) behind
      rw [Text.crlf_append, brace] at split
      rw [codeEnd?, other, Nat.zero_add, (List.append_inj' split rfl).1]

namespace Segment

/-! ## Extents of segments -/

/-- Whether a line is a line of code does not depend on its end. -/
theorem beginsCodeLine_crlf (text : List Char) : beginsCodeLine (crlf text) = beginsCodeLine text := by
  induction text with
  | nil => rfl
  | cons c text ih =>
    by_cases hc : c = '\n'
    · subst hc
      rfl
    · rw [Text.crlf_cons hc, beginsCodeLine_cons, beginsCodeLine_cons, ih, Text.any_head?_crlf (by decide)]

/-- A line keeps being one line where it has a longer end. -/
theorem IsLine.crlf {line behind : List Char} (h : IsLine line behind) : IsLine (crlf line) (crlf behind) := by
  obtain ⟨inner, plain, rfl | ⟨rfl, rfl⟩⟩ := h
  · refine ⟨inner ++ ['\r'], ?_, .inl ?_⟩
    · simp [plain]
    · rw [Text.crlf_append, Text.crlf_of_not_mem plain]
      simp
  · refine ⟨line, plain, .inr ⟨Text.crlf_of_not_mem plain, rfl⟩⟩

theorem stretches_lineExtent (text : List Char) : Stretches text (lineExtent text) (lineExtent (Text.crlf text)) := by
  obtain ⟨line, left, rfl, length, shape⟩ := exists_lineExtent text
  refine ⟨line, left, rfl, length.symm, ?_⟩
  rw [Text.crlf_append]
  exact lineExtent_of_isLine shape.crlf

theorem stretches_literalExtent (atLineStart : Bool) (text : List Char) :
    Stretches text (literalExtent atLineStart text) (literalExtent atLineStart (crlf text)) := by
  induction text generalizing atLineStart with
  | nil => exact ⟨[], [], rfl, rfl, rfl⟩
  | cons c text ih =>
    by_cases hc : c = '\n'
    · subst hc
      obtain ⟨taken, left, rfl, own, other⟩ := ih true
      refine ⟨'\n' :: taken, left, rfl, ?_, ?_⟩
      · simp [literalExtent, beginsCodeLine_cons, isSpaceOrTab, own, Nat.add_comm]
      · simp only [Text.crlf_newline_cons, List.length_cons, ← other]
        simp [literalExtent, beginsCodeLine_cons, isSpaceOrTab]
        omega
    · rw [Text.crlf_cons hc, literalExtent, literalExtent, ← Text.crlf_cons hc, beginsCodeLine_crlf]
      split
      · exact ⟨[], c :: text, rfl, rfl, rfl⟩
      · rw [Nat.add_comm, Nat.add_comm 1]
        exact (ih _).cons hc

theorem stretches_breakExtent {text : List Char} (h : '\r' ∉ text) :
    Stretches text (breakExtent text) (breakExtent (crlf text)) := by
  cases text with
  | nil => exact ⟨[], [], rfl, rfl, rfl⟩
  | cons c text =>
    by_cases hc : c = '\n'
    · subst hc
      exact ⟨['\n'], text, rfl, rfl, rfl⟩
    · -- A break of two characters cannot be there before the lines get longer ends.
      have none : ∀ rest, breakExtent (c :: rest) = 0 := by
        intro rest
        unfold breakExtent
        split
        · next same => simp [(List.cons.inj same).1] at h
        · next same => exact absurd (List.cons.inj same).1 hc
        · rfl
      rw [Text.crlf_cons hc, none, none]
      exact ⟨[], c :: text, rfl, rfl, rfl⟩

/-- A substitution ends at the same brace, or has no end. -/
theorem substitutionExtent?_crlf (code : List Char) :
    (substitutionExtent? code = none ∧ substitutionExtent? (crlf code) = none) ∨
      ∃ own other, substitutionExtent? code = some own ∧ substitutionExtent? (crlf code) = some other ∧
        Stretches ('\x7b' :: code) own other := by
  unfold substitutionExtent?
  rcases codeEnd?_crlf code with ⟨none, none'⟩ | ⟨code, behind, rfl, own, other⟩
  · rw [none, none']
    exact .inl ⟨rfl, rfl⟩
  · rw [own, other]
    refine .inr ⟨_, _, rfl, rfl, '\x7b' :: (code ++ ['\x7d']), behind, ?_, ?_, ?_⟩
    · simp
    · simp
    · rw [Text.crlf_cons (by decide), Text.crlf_append]
      simp [Text.crlf_cons]

/-- A block ends at the same brace and takes the same line break along, or has no end. -/
theorem blockExtent?_crlf {code : List Char} (h : '\r' ∉ code) :
    (blockExtent? code = none ∧ blockExtent? (crlf code) = none) ∨
      ∃ own other, blockExtent? code = some own ∧ blockExtent? (crlf code) = some other ∧
        Stretches ('\x7b' :: code) own other := by
  rcases codeEnd?_crlf code with ⟨none, none'⟩ | ⟨code, behind, rfl, own, other⟩
  · unfold blockExtent?
    rw [none, none']
    exact .inl ⟨rfl, rfl⟩
  · have brace : ∀ rest, crlf (code ++ '\x7d' :: rest) = crlf code ++ '\x7d' :: crlf rest := by
      intro rest
      rw [Text.crlf_append, Text.crlf_cons (by decide)]
    rw [brace] at other ⊢
    rw [blockExtent?_of_codeEnd? own, blockExtent?_of_codeEnd? other]
    by_cases sign : behind.head? = some '%'
    · obtain ⟨behind, rfl⟩ := List.head?_eq_some_iff.1 sign
      have plain : '\r' ∉ behind := by
        intro hmem
        simp [hmem] at h
      obtain ⟨ending, left, rfl, short, long⟩ := stretches_breakExtent plain
      rw [if_pos sign, Text.crlf_cons (by decide), if_pos List.head?_cons, List.tail_cons, List.tail_cons, short, long]
      refine .inr ⟨_, _, rfl, rfl, '\x7b' :: (code ++ '\x7d' :: '%' :: ending), left, ?_, ?_, ?_⟩
      · simp
      · simp
        omega
      · rw [Text.crlf_cons (by decide), brace, Text.crlf_cons (by decide)]
        simp
        omega
    · rw [if_neg sign, if_neg fun ahead => sign ((Text.head?_crlf (by decide) behind).1 ahead)]
      exact .inl ⟨rfl, rfl⟩

/-- Behind a character that is no line break a segment of the same kind begins, with the longer line ends
in it. -/
theorem exists_measure_crlf (atLineStart : Bool) {c : Char} (hc : c ≠ '\n') {rest : List Char} (h : '\r' ∉ rest) :
    ∃ kind own other, measure atLineStart c rest = (kind, own) ∧ measure atLineStart c (crlf rest) = (kind, other) ∧
      Stretches rest own other := by
  have ahead {d : Char} (hd : d ≠ '\r' ∧ d ≠ '\n') : (crlf rest).head? = some d ↔ rest.head? = some d :=
    Text.head?_crlf hd rest
  have brace := ahead (show '\x7b' ≠ '\r' ∧ '\x7b' ≠ '\n' by decide)
  have line : beginsCodeLine (c :: crlf rest) = beginsCodeLine (c :: rest) := by
    rw [← Text.crlf_cons hc, beginsCodeLine_crlf]
  have sign : ((c = '$' || c = '%') && (crlf rest).head? = some c) = ((c = '$' || c = '%') && rest.head? = some c) := by
    by_cases hsign : c = '$' ∨ c = '%'
    · have same : c ≠ '\r' ∧ c ≠ '\n' := by
        rcases hsign with rfl | rfl
        · decide
        · decide
      rw [decide_eq_decide.2 (ahead same)]
    · rw [not_or] at hsign
      simp [hsign]
  unfold measure
  simp only [sign, brace, line]
  split
  · next doubled =>
    obtain ⟨rest, rfl⟩ := List.head?_eq_some_iff.1 (of_decide_eq_true (Bool.and_eq_true_iff.1 doubled).2)
    refine ⟨.doubled, 1, 1, rfl, rfl, [c], rest, rfl, rfl, ?_⟩
    rw [Text.crlf_cons hc]
    rfl
  split
  · next sign =>
    obtain ⟨code, rfl⟩ := List.head?_eq_some_iff.1 (of_decide_eq_true (Bool.and_eq_true_iff.1 sign).2)
    rw [Text.crlf_cons (by decide), List.tail_cons, List.tail_cons]
    rcases substitutionExtent?_crlf code with ⟨none, none'⟩ | ⟨own, other, hown, hother, stretch⟩
    · rw [none, none']
      exact ⟨.literal, 0, 0, rfl, rfl, [], _, rfl, rfl, rfl⟩
    · rw [hown, hother]
      exact ⟨.substitution, own, other, rfl, rfl, stretch⟩
  split
  · next sign =>
    obtain ⟨code, rfl⟩ := List.head?_eq_some_iff.1 (of_decide_eq_true (Bool.and_eq_true_iff.1 sign).2)
    rw [Text.crlf_cons (by decide), List.tail_cons, List.tail_cons]
    rcases blockExtent?_crlf (fun hmem => h (List.mem_cons_of_mem _ hmem)) with
      ⟨none, none'⟩ | ⟨own, other, hown, hother, stretch⟩
    · rw [none, none']
      exact ⟨.literal, 0, 0, rfl, rfl, [], _, rfl, rfl, rfl⟩
    · rw [hown, hother]
      exact ⟨.codeBlock, own, other, rfl, rfl, stretch⟩
  split
  · exact ⟨.codeLine, _, _, rfl, rfl, stretches_lineExtent rest⟩
  · exact ⟨.literal, _, _, rfl, rfl, stretches_literalExtent _ rest⟩

/-- A line break begins literal text, and so does a longer one. -/
theorem exists_measure_break (atLineStart : Bool) (rest : List Char) : ∃ own other,
    measure atLineStart '\n' rest = (.literal, own) ∧
      measure atLineStart '\r' ('\n' :: crlf rest) = (.literal, other + 1) ∧ Stretches rest own other := by
  refine ⟨_, _, ?_, ?_, stretches_literalExtent true rest⟩
  · simp [measure, beginsCodeLine_cons, isSpaceOrTab]
  · simp [measure, beginsCodeLine_cons, isSpaceOrTab, literalExtent, Nat.add_comm]

/-- The first segment of a text is the first one of the text with longer line ends, with the longer line
ends in it. -/
theorem exists_first_crlf (atLineStart : Bool) {c : Char} {rest : List Char} (h : '\r' ∉ rest) :
    ∃ kind own other d others, measure atLineStart c rest = (kind, own) ∧ crlf (c :: rest) = d :: others ∧
      measure atLineStart d others = (kind, other) ∧ d :: others.take other = crlf (c :: rest.take own) ∧
      others.drop other = crlf (rest.drop own) := by
  by_cases hc : c = '\n'
  · subst hc
    obtain ⟨own, other, hown, hother, stretch⟩ := exists_measure_break atLineStart rest
    refine ⟨.literal, own, other + 1, '\r', _, hown, Text.crlf_newline_cons rest, hother, ?_, stretch.drop_crlf⟩
    rw [List.take_succ_cons, stretch.take_crlf, Text.crlf_newline_cons]
  · obtain ⟨kind, own, other, hown, hother, stretch⟩ := exists_measure_crlf atLineStart hc h
    refine ⟨kind, own, other, c, _, hown, Text.crlf_cons hc rest, hother, ?_, stretch.drop_crlf⟩
    rw [stretch.take_crlf, Text.crlf_cons hc]

/-! ## Segments -/

/-- A segment of a template, and the one that it is where lines have longer ends. -/
structure Widened (own other : Segment) : Prop where
  kind : other.kind = own.kind
  text : other.text = crlf own.text

theorem widened_ofTextFrom {text : List Char} (h : '\r' ∉ text) (offset : Nat) (atLineStart : Bool) : ∀ offset',
    List.Forall₂ Widened (ofTextFrom offset atLineStart text) (ofTextFrom offset' atLineStart (crlf text)) := by
  fun_induction ofTextFrom offset atLineStart text with
  | case1 =>
    intro offset'
    rw [Text.crlf_nil, ofTextFrom]
    exact .nil
  | case2 offset atLineStart c rest measured text ih =>
    intro offset'
    rw [List.mem_cons, not_or] at h
    obtain ⟨kind, own, other, d, others, hown, split, hother, taken, left⟩ := exists_first_crlf atLineStart h.2
    have further := ih fun hmem => h.2 (List.mem_of_mem_drop hmem)
    have first : measured = (kind, own) := hown
    have text_eq : text = c :: rest.take own := by rw [show text = c :: rest.take measured.2 from rfl, first]
    rw [text_eq, first] at further ⊢
    rw [split, ofTextFrom, hother]
    dsimp only at further ⊢
    -- Both texts end with the same character, so that what follows begins a line in both or in none.
    rw [taken, left, Text.getLast?_crlf]
    exact .cons ⟨rfl, rfl⟩ (further _)

end Segment

/-! ## Nodes -/

/-- Something to print where lines have longer ends. -/
def Output.crlf : Output → Output
  | literal text => literal (Text.crlf text)
  | expression code => expression (Text.crlf code)

theorem Output.crlf_of_not_mem {output : Output} (h : '\n' ∉ output.text) : output.crlf = output := by
  cases output with
  | literal text => exact congrArg literal (Text.crlf_of_not_mem h)
  | expression code => exact congrArg expression (Text.crlf_of_not_mem h)

/-- What a node asks for where lines have longer ends. -/
def Content.crlf : Content → Content
  | output printed => output printed.crlf
  | code text => code (Text.crlf text)

namespace Node

/-- A line break of one character goes. -/
theorem withoutBreak_concat {line : List Char} (h : '\r' ∉ line) : withoutBreak (line ++ ['\n']) = line := by
  have last : line.getLast? ≠ some '\r' := fun last => h (List.mem_of_getLast? last)
  simp [withoutBreak, Text.dropLast?, last]

/-- A line break of two characters goes. -/
theorem withoutBreak_append (line : List Char) : withoutBreak (line ++ ['\r', '\n']) = line := by
  simp [withoutBreak, Text.dropLast?, List.dropLast_append_of_ne_nil]

/-- A line of code is the same where it has a longer end. -/
theorem withoutBreak_crlf {line ending : List Char} (plain : '\n' ∉ line) (h : '\r' ∉ line)
    (hending : ending ∈ [[], ['\n']]) :
    withoutBreak (crlf (line ++ ending)) = withoutBreak (line ++ ending) := by
  have listed : ending = [] ∨ ending = ['\n'] := by simpa using hending
  rw [Text.crlf_append, Text.crlf_of_not_mem plain]
  rcases listed with rfl | rfl
  · rfl
  · rw [withoutBreak_concat h]
    exact withoutBreak_append line

variable {template : List Char} {own other : Segment}

theorem not_mem_text (h : '\r' ∉ template) (hmem : own ∈ Segment.ofText template) : '\r' ∉ own.text := by
  intro hr
  apply h
  rw [← Segment.flatMap_text_ofText template]
  exact List.mem_flatMap.2 ⟨own, hmem, hr⟩

/-- The node of a line of code does not take the end of the line along. -/
theorem exists_codeLine (hmem : own ∈ Segment.ofText template) (kind : own.kind = .codeLine) :
    ∃ line ending, own.text = line ++ ending ∧ '\n' ∉ line ∧ ending ∈ [[], ['\n']] ∧
      '\n' ∉ linesCode (withoutBreak own.text) := by
  obtain ⟨indent, line, ending, hline, hindent, plain, hending⟩ := Segment.exists_line_of_mem hmem kind
  obtain ⟨gap, returns, written⟩ := exists_writesLine hindent plain hending
  have whole : line = gap ++ linesCode (withoutBreak (indent ++ '%' :: (line ++ ending))) ++ returns :=
    List.append_cancel_right (List.cons.inj (List.append_cancel_left written.whole)).2
  rw [hline]
  refine ⟨indent ++ '%' :: line, ending, by simp, Segment.newline_not_mem hindent plain, hending, ?_⟩
  intro broken
  apply plain
  rw [whole]
  simp [broken]

/-- A line of code has the same node. -/
theorem content_of_codeLine (h : '\r' ∉ template) (hmem : own ∈ Segment.ofText template)
    (widened : Segment.Widened own other) (kind : own.kind = .codeLine) : (ofSegment other).content = (ofSegment own).content := by
  obtain ⟨line, ending, text, plain, hending, -⟩ := exists_codeLine hmem kind
  have clean : '\r' ∉ line := by
    have := not_mem_text h hmem
    rw [text] at this
    exact fun hr => this (List.mem_append_left _ hr)
  unfold ofSegment
  rw [widened.kind, kind]
  dsimp only
  rw [widened.text, text, withoutBreak_crlf plain clean hending]

/-- The node of a segment has the longer line ends of the segment in it. -/
theorem content_crlf (h : '\r' ∉ template) (hmem : own ∈ Segment.ofText template)
    (widened : Segment.Widened own other) :
    (ofSegment other).content = (ofSegment own).content.crlf := by
  have clean := not_mem_text h hmem
  obtain ⟨atLineStart, c, rest, extent, hmeasure, htext⟩ := Segment.exists_measure_of_mem hmem
  cases kind : own.kind with
  | codeLine =>
    obtain ⟨line, ending, -, -, -, plain⟩ := exists_codeLine hmem kind
    rw [content_of_codeLine h hmem widened kind]
    unfold ofSegment
    rw [kind]
    exact congrArg Content.code (Text.crlf_of_not_mem plain).symm
  | literal =>
    unfold ofSegment
    rw [widened.kind, kind, widened.text]
    rfl
  | doubled =>
    rw [kind] at hmeasure
    unfold ofSegment
    rw [widened.kind, kind, widened.text, htext]
    obtain ⟨rfl | rfl, pair⟩ := Segment.exists_of_measure_eq_doubled hmeasure
    · rw [pair]
      rfl
    · rw [pair]
      rfl
  | substitution =>
    rw [kind] at hmeasure
    obtain ⟨code, hcode⟩ := Segment.exists_of_measure_eq_substitution hmeasure
    have longer : crlf ('$' :: '\x7b' :: (code ++ ['\x7d'])) = '$' :: '\x7b' :: (crlf code ++ ['\x7d']) := by
      simp [Text.crlf_cons]
    unfold ofSegment
    rw [widened.kind, kind, widened.text, htext, hcode, longer]
    dsimp only
    rw [unwrap_substitution, unwrap_substitution]
    rfl
  | codeBlock =>
    rw [kind] at hmeasure
    obtain ⟨code, ending, hending, hcode⟩ := Segment.exists_of_measure_eq_codeBlock hmeasure
    have ends : crlf ending ∈ Segment.endings := by
      have listed : ending = [] ∨ ending = ['\n'] ∨ ending = ['\r', '\n'] := by simpa [Segment.endings] using hending
      rcases listed with rfl | rfl | rfl
      · decide
      · decide
      · rw [htext, hcode] at clean
        simp at clean
    have longer : crlf ('%' :: '\x7b' :: (code ++ '\x7d' :: '%' :: ending))
        = '%' :: '\x7b' :: (crlf code ++ '\x7d' :: '%' :: crlf ending) := by
      simp [Text.crlf_cons]
    unfold ofSegment
    rw [widened.kind, kind, widened.text, htext, hcode, longer]
    dsimp only
    rw [withoutBreak_codeBlock code hending, withoutBreak_codeBlock _ ends, unwrap_codeBlock, unwrap_codeBlock]
    rfl

end Node

/-- What a segment becomes where lines have longer ends: a segment of the same kind, with the longer line
ends in its text and in what its node asks for. The node of a line of code has no line end in it. -/
structure Segment.Corresponds (own other : Segment) : Prop extends Widened own other where
  content : (Node.ofSegment other).content = (Node.ofSegment own).content.crlf
  line : own.kind = .codeLine → (Node.ofSegment other).content = (Node.ofSegment own).content

theorem Segment.corresponds_ofText {template : List Char} (h : '\r' ∉ template) :
    List.Forall₂ Corresponds (ofText template) (ofText (crlf template)) := by
  have listed : List.Forall₂ (fun own other => own ∈ ofText template ∧ Widened own other) (ofText template)
      (ofText (crlf template)) := (List.forall₂_and_left _ _).2 ⟨fun _ hmem => hmem, widened_ofTextFrom h 0 true 0⟩
  refine listed.imp ?_
  rintro own other ⟨hmem, widened⟩
  exact ⟨widened, Node.content_crlf h hmem widened, Node.content_of_codeLine h hmem widened⟩

namespace Node

open Segment (Corresponds)

/-- A node of a template, and the one that it is where lines have longer ends. -/
structure Widened (template : List Char) (own other : Node) : Prop where
  content : other.content = own.content.crlf
  line : (Text.LineIndex.ofText (crlf template)).lineOf other.offset
    = (Text.LineIndex.ofText template).lineOf own.offset

/-- Segments are on as many lines where lines have longer ends. -/
theorem newlines_of_corresponds {front front' : List Segment} (h : List.Forall₂ Corresponds front front') :
    Text.newlines (front'.flatMap Segment.text) = Text.newlines (front.flatMap Segment.text) := by
  induction h with
  | nil => rfl
  | cons first _ ih =>
    rw [List.flatMap_cons, List.flatMap_cons, Text.newlines_append, Text.newlines_append, ih, first.text,
      Text.newlines_crlf]

theorem widened_map_ofSegment {template : List Char} {behind behind' : List Segment}
    (further : List.Forall₂ Corresponds behind behind') {front front' : List Segment}
    (above : List.Forall₂ Corresponds front front') (split : Segment.ofText template = front ++ behind)
    (split' : Segment.ofText (crlf template) = front' ++ behind') :
    List.Forall₂ (Widened template) (behind.map ofSegment) (behind'.map ofSegment) := by
  induction further generalizing front front' with
  | nil => exact .nil
  | @cons own other behind behind' first further ih =>
    have lines := newlines_of_corresponds above
    refine .cons ⟨first.content, ?_⟩ (@ih (front ++ [own]) (front' ++ [other]) ?_ ?_ ?_)
    · rw [lineOf_offset split, lineOf_offset split', lines]
    · exact List.rel_append above (.cons first .nil)
    · simp [split]
    · simp [split']

/-- The nodes of a template stand on the same lines where lines have longer ends, and have the longer line
ends in them. -/
theorem widened_ofText {template : List Char} (h : '\r' ∉ template) :
    List.Forall₂ (Widened template) (ofText template) (ofText (crlf template)) :=
  widened_map_ofSegment (Segment.corresponds_ofText h) .nil rfl rfl

end Node

end SwiftTemplate.Template
