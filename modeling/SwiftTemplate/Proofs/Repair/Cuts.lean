import SwiftTemplate.Proofs.Repair.Tokens

/-!
# Cuts in drafts

Pieces that are cut out of a draft are one stretch of its text, and what is left is the text around
it, but for one case: at the start of a draft, what is left of both ends changes places.
-/
namespace SwiftTemplate.Repair

open Swift (Token)

/-! ## The ends of a stretch of pieces -/

namespace Piece

/-- A piece without what stands before the last line break in front of it. -/
def trimStart (piece : Piece) : Piece := { piece with leading := (Text.cutAtLastNewline piece.leading).2 }

/-- A piece without what stands behind it from the first line break on. -/
def trimEnd (piece : Piece) : Piece := { piece with trailing := (Text.cutAtFirstNewline piece.trailing).1 }

theorem source_trimStart (piece : Piece) :
    (Text.cutAtLastNewline piece.leading).1 ++ piece.trimStart.source = piece.source := by
  rw [source, source, trimStart, ← List.append_assoc, ← List.append_assoc, Text.cutAtLastNewline_append]

theorem source_trimEnd (piece : Piece) :
    piece.trimEnd.source ++ (Text.cutAtFirstNewline piece.trailing).2 = piece.source := by
  rw [source, source, trimEnd, List.append_assoc _ _ (Text.cutAtFirstNewline piece.trailing).2,
    Text.cutAtFirstNewline_append]

end Piece

/-- What some pieces leave behind where they are cut out of a draft: `lead` is what stands before the last
line break in front of the first piece, or all that stands there if it has none, and `tail` is what stands
behind the last piece from its first line break on. -/
structure Leaves (draft : Draft) (index count : Nat) (lead tail : List Char) : Prop where
  front : ∃ first ∈ draft.pieces[index]?, ∃ own, first.leading = lead ++ own ∧
    (own = [] ∧ '\n' ∉ lead ∨ ∃ indent, own = '\n' :: indent ∧ '\n' ∉ indent)
  back : ∃ last ∈ draft.pieces[index + count - 1]?, ∃ own, last.trailing = own ++ tail ∧
    '\n' ∉ own ∧ (tail = [] ∨ tail.head? = some '\n')

section
variable {draft : Draft} {index count : Nat} {first last : Piece} {others : List Piece}

theorem leaves_of_getElem? (hfirst : draft.pieces[index]? = some first)
    (hlast : draft.pieces[index + count - 1]? = some last) :
    Leaves draft index count (Text.cutAtLastNewline first.leading).1 (Text.cutAtFirstNewline last.trailing).2 := by
  refine ⟨⟨first, hfirst, ?_⟩, ⟨last, hlast, _, (Text.cutAtFirstNewline_append last.trailing).symm, ?_, ?_⟩⟩
  · rcases Text.cutAtLastNewline_cases first.leading with ⟨absent, hcut⟩ | ⟨before, indent, hleading, hindent, hcut⟩
    · exact ⟨[], by simp [hcut], .inl ⟨rfl, by rwa [hcut]⟩⟩
    · exact ⟨'\n' :: indent, by rw [hcut, hleading], .inr ⟨indent, rfl, hindent⟩⟩
  · intro hmem
    simpa using List.all_eq_true.1 List.all_takeWhile _ hmem
  · cases htail : (Text.cutAtFirstNewline last.trailing).2 with
    | nil => exact .inl rfl
    | cons c rest =>
      obtain rfl : c = '\n' := by simpa using Text.head_dropWhile htail
      exact .inr rfl

theorem exists_stretch (nonempty : 0 < count) (inside : index + count ≤ draft.pieces.length) :
    ∃ first others last, (draft.pieces.drop index).take count = first :: others ∧
      draft.pieces[index]? = some first ∧ draft.pieces[index + count - 1]? = some last ∧
      ∃ final, (first.trimStart :: others).getLast? = some final ∧ final.trailing = last.trailing := by
  have length : ((draft.pieces.drop index).take count).length = count := by
    rw [List.length_take, List.length_drop]
    omega
  have at_stretch (place : Nat) (h : place < count) :
      ((draft.pieces.drop index).take count)[place]? = draft.pieces[index + place]? := by
    rw [List.getElem?_take_of_lt h, List.getElem?_drop]
  obtain ⟨first, others, hunit⟩ := List.exists_cons_of_length_pos (length ▸ nonempty)
  rw [hunit] at length at_stretch
  have hlast : (first :: others).getLast? = draft.pieces[index + count - 1]? := by
    rw [List.getLast?_eq_getElem?, length, at_stretch (count - 1) (by omega), ← Nat.add_sub_assoc nonempty]
  have hfirst : draft.pieces[index]? = some first := (at_stretch 0 nonempty).symm
  cases others with
  | nil => exact ⟨first, [], first, hunit, hfirst, hlast.symm, first.trimStart, rfl, rfl⟩
  | cons other others =>
    have final := List.getLast?_eq_some_getLast (List.cons_ne_nil other others)
    rw [List.getLast?_cons_cons, final] at hlast
    exact ⟨first, other :: others, _, hunit, hfirst, hlast.symm, _, final, rfl⟩

/-! ## What is cut out -/

/-- A stretch is what it leaves behind at its start, what is cut out, and what it leaves behind at its end. -/
theorem renderPieces_stretch (hlast : (first.trimStart :: others).getLast? = some last) :
    renderPieces (first :: others) = (Text.cutAtLastNewline first.leading).1
      ++ renderPieces ((first.trimStart :: others).dropLast ++ [last.trimEnd])
      ++ (Text.cutAtFirstNewline last.trailing).2 := by
  obtain ⟨front, hfront⟩ := List.getLast?_eq_some_iff.1 hlast
  have closed : renderPieces (first.trimStart :: others)
      = renderPieces ((first.trimStart :: others).dropLast ++ [last.trimEnd])
        ++ (Text.cutAtFirstNewline last.trailing).2 := by
    rw [hfront, List.dropLast_concat, renderPieces_append, renderPieces_append, List.append_assoc,
      show renderPieces [last] = last.source by simp [renderPieces],
      show renderPieces [last.trimEnd] = last.trimEnd.source by simp [renderPieces], Piece.source_trimEnd]
  rw [List.append_assoc, ← closed, renderPieces_cons, renderPieces_cons, ← List.append_assoc, Piece.source_trimStart]

/-- What is left behind goes to the pieces around a stretch. -/
theorem detach_of_stretch (inside : index ≤ draft.pieces.length)
    (hunit : (draft.pieces.drop index).take count = first :: others)
    (hlast : (first.trimStart :: others).getLast? = some last) :
    draft.detach index count = (
      if index = 0 then
        ⟨remainder ((Text.cutAtFirstNewline last.trailing).2 ++ (Text.cutAtLastNewline first.leading).1) []
          (draft.pieces.drop count)⟩
      else
        ⟨remainder (Text.cutAtLastNewline first.leading).1 (draft.pieces.take index)
          ((draft.pieces.drop (index + count)).modifyHead (Piece.prepend (Text.cutAtFirstNewline last.trailing).2))⟩,
      (first.trimStart :: others).dropLast ++ [last.trimEnd]) := by
  have final : ({ first with leading := (Text.cutAtLastNewline first.leading).2 } :: others).getLast (by simp) = last :=
    Option.some.inj ((List.getLast?_eq_some_getLast _).symm.trans hlast)
  unfold Draft.detach
  rw [hunit]
  dsimp only
  rw [final]
  refine Prod.ext ?_ rfl
  dsimp only
  by_cases start : index = 0
  · subst start
    rw [if_pos rfl, if_pos rfl, remainder_nil, Nat.zero_add]
  · have length : (draft.pieces.take index).length = index := List.length_take_of_le inside
    have before : draft.pieces.take index ≠ [] := by
      intro hnil
      rw [hnil] at length
      exact start length.symm
    rw [if_neg start, if_neg start, remainder, if_neg before, length]

end

/-- Pieces that are cut out of a draft are one stretch of its text, from the last line break in front of
the first piece to the first line break behind the last one. What is left is the text around that
stretch, in its order, except at the start of the draft: there what the last piece leaves behind comes
to stand before what the first one leaves behind, which is the same only if the two are the same in
both orders. -/
theorem render_detach (draft : Draft) {index count : Nat} (nonempty : 0 < count)
    (inside : index + count < draft.pieces.length) :
    ∃ lead tail, Leaves draft index count lead tail ∧
      draft.render = renderPieces (draft.pieces.take index) ++ lead ++ renderPieces (draft.detach index count).2
        ++ (tail ++ renderPieces (draft.pieces.drop (index + count))) ∧
      (draft.detach index count).1.render =
        (if index = 0 then tail ++ lead else renderPieces (draft.pieces.take index) ++ lead ++ tail)
          ++ renderPieces (draft.pieces.drop (index + count)) ∧
      ((draft.detach index count).1.render =
          renderPieces (draft.pieces.take index) ++ lead ++ (tail ++ renderPieces (draft.pieces.drop (index + count)))
        ↔ 0 < index ∨ lead ++ tail = tail ++ lead) := by
  obtain ⟨first, others, last, hunit, hfirst, hlast, final, hfinal, htrailing⟩ :=
    exists_stretch nonempty (Nat.le_of_lt inside)
  have behind : draft.pieces.drop (index + count) ≠ [] := by
    intro hnil
    have := List.drop_eq_nil_iff.1 hnil
    omega
  have whole : draft.render = renderPieces (draft.pieces.take index) ++ renderPieces (first :: others)
      ++ renderPieces (draft.pieces.drop (index + count)) := by
    rw [← hunit, ← List.drop_drop, ← renderPieces_append, ← renderPieces_append, List.append_assoc,
      List.take_append_drop, List.take_append_drop]
    rfl
  have left : (draft.detach index count).1.render =
      (if index = 0 then (Text.cutAtFirstNewline last.trailing).2 ++ (Text.cutAtLastNewline first.leading).1
        else renderPieces (draft.pieces.take index) ++ (Text.cutAtLastNewline first.leading).1
          ++ (Text.cutAtFirstNewline last.trailing).2)
        ++ renderPieces (draft.pieces.drop (index + count)) := by
    rw [detach_of_stretch (by omega) hunit hfinal, htrailing]
    by_cases start : index = 0
    · subst start
      rw [Nat.zero_add] at behind ⊢
      rw [if_pos rfl, if_pos rfl]
      exact @render_remainder _ [] _ behind
    · have moved := @render_remainder (Text.cutAtFirstNewline last.trailing).2 [] _ behind
      rw [remainder_nil] at moved
      rw [if_neg start, if_neg start]
      refine (render_remainder (by simpa using behind)).trans ?_
      rw [moved]
      simp [renderPieces]
  refine ⟨_, _, leaves_of_getElem? hfirst hlast, ?_, left, ?_⟩
  · rw [whole, renderPieces_stretch hfinal, detach_of_stretch (by omega) hunit hfinal, htrailing]
    simp only [List.append_assoc]
  · rw [left, ← List.append_assoc, List.append_left_inj]
    by_cases start : index = 0
    · subst start
      simp [renderPieces, eq_comm]
    · simp [start, Nat.pos_of_ne_zero start]

/-- A statement of its own between two others, with what stands around it. -/
theorem render_detach_between :
    let draft := Draft.ofTokens (Token.ofText "a /* x */\n // y\n  b // z\nc".toList)
    (0 < 1 ∧ 1 + 1 < draft.pieces.length) ∧
      (∃ lead tail, Leaves draft 1 1 lead tail ∧
        draft.render = renderPieces (draft.pieces.take 1) ++ lead ++ renderPieces (draft.detach 1 1).2
          ++ (tail ++ renderPieces (draft.pieces.drop 2)) ∧
        (draft.detach 1 1).1.render =
          (if 1 = 0 then tail ++ lead else renderPieces (draft.pieces.take 1) ++ lead ++ tail)
            ++ renderPieces (draft.pieces.drop 2) ∧
        ((draft.detach 1 1).1.render =
            renderPieces (draft.pieces.take 1) ++ lead ++ (tail ++ renderPieces (draft.pieces.drop 2))
          ↔ 0 < 1 ∨ lead ++ tail = tail ++ lead)) ∧
      renderPieces (draft.detach 1 1).2 = "\n  b // z".toList ∧
      (draft.detach 1 1).1.render = "a /* x */\n // y\nc".toList := by
  intro draft
  have inside : 0 < 1 ∧ 1 + 1 < draft.pieces.length := by decide +kernel
  exact ⟨inside, render_detach draft inside.1 inside.2, by decide +kernel, by decide +kernel⟩

/-- A draft from which something has been cut out may have a line break behind its first piece. Cut out
as well, that piece leaves the line break behind in front of the blank that stood before it. -/
theorem render_detach_swapped :
    let draft := ((Draft.ofTokens (Token.ofText " x\n\ny\nz".toList)).detach 1 1).1
    Leaves draft 0 1 " ".toList "\n".toList ∧
      draft.render = " x\n\nz".toList ∧
      renderPieces (draft.detach 0 1).2 = "x".toList ∧
      draft.render = " ".toList ++ renderPieces (draft.detach 0 1).2 ++ "\n\nz".toList ∧
      (draft.detach 0 1).1.render = "\n \nz".toList ∧
      (draft.detach 0 1).1.render ≠ " ".toList ++ "\n\nz".toList := by
  intro draft
  have first : draft.pieces[0]? = some ⟨" ".toList, "x".toList, "\n".toList, none⟩ := by decide +kernel
  exact ⟨@leaves_of_getElem? draft 0 1 _ _ first first, by decide +kernel, by decide +kernel, by decide +kernel,
    by decide +kernel, by decide +kernel⟩

/-- In the draft of a program nothing is out of order: no token has a line break behind it, and whatever
is cut out, the text around it stays as it is. -/
theorem render_detach_ofText (text : List Char) {index count : Nat} (nonempty : 0 < count)
    (inside : index + count < (Token.ofText text).length) :
    ∃ front behind, text = front ++ renderPieces ((Draft.ofTokens (Token.ofText text)).detach index count).2 ++ behind ∧
      ((Draft.ofTokens (Token.ofText text)).detach index count).1.render = front ++ behind := by
  have pieces : (Draft.ofTokens (Token.ofText text)).pieces = piecesOf (partsOf (Token.ofText text)) :=
    (piecesOf_partsOf _).symm
  have length : (Draft.ofTokens (Token.ofText text)).pieces.length = (Token.ofText text).length := by
    rw [pieces, length_piecesOf, tokensOf_partsOf]
  obtain ⟨lead, tail, leaves, before, -, same⟩ :=
    render_detach (Draft.ofTokens (Token.ofText text)) nonempty (length ▸ inside)
  rw [Draft.render_ofTokens_ofText] at before
  refine ⟨_, _, before, same.2 (.inr ?_)⟩
  obtain ⟨last, hlast, own, htrailing, -, opens⟩ := leaves.back
  have quiet : '\n' ∉ last.trailing := by
    refine @newline_not_mem_trailing_of_mem_piecesOf (partsOf (Token.ofText text)) ?_ _ ?_
    · rw [tokensOf_partsOf]
      exact Token.lexed_ofText text
    · rw [← pieces]
      exact List.mem_of_getElem? hlast
  rcases opens with rfl | hhead
  · rw [List.append_nil, List.nil_append]
  · rw [htrailing] at quiet
    exact absurd (List.mem_append_right own (List.mem_of_mem_head? hhead)) quiet

end SwiftTemplate.Repair
