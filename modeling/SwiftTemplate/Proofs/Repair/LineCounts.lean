import SwiftTemplate.Proofs.Repair.Drafts
import SwiftTemplate.Proofs.Swift.Sources

/-!
# Counting lines

A line is told in three ways: from the byte positions of the line breaks in a text, for a token of a
program, and for a piece of a draft. All three count the line breaks in front.
-/
namespace SwiftTemplate.Repair

open Swift (Source Token)
open Text (byteSize bytes newlines)

/-! ## The pieces of tokens -/

def Piece.bare (piece : Piece) : Piece := { piece with directive := none }

/-- But for the directives that they carry, the pieces of some tokens are the tokens. -/
theorem map_bare_piecesOf (tokens : List Token) :
    (Draft.piecesOf tokens).map Piece.bare = tokens.map (Piece.ofToken · none) := by
  fun_induction Draft.piecesOf tokens with
  | case1 => rfl
  | case2 token tokens hnone ih =>
    rw [List.map_cons, List.map_cons, ih]
    rfl
  | case3 token tokens form hsome ih =>
    have bare : Piece.bare ∘ (Piece.ofToken · none) = (Piece.ofToken · none) := rfl
    rw [List.map_cons, List.map_append, List.map_map, ih, bare, ← List.map_append, List.take_append_drop,
      List.map_cons]
    rfl

theorem renderPieces_map_bare (pieces : List Piece) : renderPieces (pieces.map Piece.bare) = renderPieces pieces :=
  List.flatMap_map _ _ _

/-- The first pieces of a program make up the text of its first tokens. -/
theorem renderPieces_take_piecesOf (count : Nat) (tokens : List Token) :
    renderPieces ((Draft.piecesOf tokens).take count) = Token.render (tokens.take count) := by
  rw [← renderPieces_map_bare, List.map_take, map_bare_piecesOf, ← List.map_take, renderPieces, List.flatMap_map]
  rfl

theorem exists_getElem?_piecesOf {tokens : List Token} {index : Nat} {token : Token} (h : tokens[index]? = some token) :
    ∃ piece, (Draft.piecesOf tokens)[index]? = some piece ∧ piece.leading = token.leading := by
  have bare := congrArg (fun pieces => pieces[index]?) (map_bare_piecesOf tokens)
  rw [List.getElem?_map, List.getElem?_map, h] at bare
  obtain ⟨piece, hpiece, same⟩ := Option.map_eq_some_iff.1 bare
  exact ⟨piece, hpiece, congrArg Piece.leading same⟩

theorem lineOf_ofTokens (text : List Char) {index : Nat} (inside : index < (Token.ofText text).length) :
    (Draft.ofTokens (Token.ofText text)).lineOf index = (Source.ofText text).lineOf index := by
  have split : Token.ofText text = (Token.ofText text).take index ++ (Token.ofText text)[index]
      :: (Token.ofText text).drop (index + 1) := by
    rw [← List.drop_eq_getElem_cons inside, List.take_append_drop]
  have length : ((Token.ofText text).take index).length = index := List.length_take_of_le (Nat.le_of_lt inside)
  obtain ⟨piece, hpiece, leading⟩ := exists_getElem?_piecesOf (List.getElem?_eq_getElem inside)
  have drafted : (Draft.ofTokens (Token.ofText text)).lineOf index
      = 1 + newlines (Token.render ((Token.ofText text).take index) ++ (Token.ofText text)[index].leading) := by
    rw [← renderPieces_take_piecesOf, ← leading]
    exact Draft.lineOf_eq hpiece
  have own := Source.lineOf_eq split
  rw [length] at own
  rw [drafted, own]

/-! ## The pieces of any draft -/

/-- What stands in front of the text of a piece and behind it. -/
theorem render_eq_of_getElem? {draft : Draft} {index : Nat} {piece : Piece} (h : draft.pieces[index]? = some piece) :
    draft.render = renderPieces (draft.pieces.take index) ++ piece.leading ++ piece.text
      ++ (piece.trailing ++ renderPieces (draft.pieces.drop (index + 1))) := by
  obtain ⟨inside, rfl⟩ := List.getElem?_eq_some_iff.1 h
  have whole : draft.render
      = renderPieces (draft.pieces.take index ++ draft.pieces[index] :: draft.pieces.drop (index + 1)) := by
    rw [← List.drop_eq_getElem_cons inside, List.take_append_drop]
    rfl
  rw [whole, renderPieces_append, renderPieces_cons, Piece.source]
  simp only [List.append_assoc]

/-- All counts of lines agree. The line of a byte of a text, also behind its end, is one more than the bytes
before it that are line breaks. A token of a program is on the same line for the program and for its draft.
And in every draft, whatever has been cut out of it, put into it or written over, the line of a piece is one
more than the line breaks of the rendered text in front of the piece, which is what the rendered text tells
as well. -/
theorem lines_agree (text : List Char) :
    (∀ position, (Text.LineIndex.ofText text).lineOf position = 1 + ((bytes text).take position).count '\n'.toUInt8) ∧
      (∀ index < (Token.ofText text).length,
        (Draft.ofTokens (Token.ofText text)).lineOf index = (Source.ofText text).lineOf index) ∧
      ∀ (draft : Draft) (index : Nat) (piece : Piece), draft.pieces[index]? = some piece →
        ∃ before behind, before = renderPieces (draft.pieces.take index) ++ piece.leading ∧
          draft.render = before ++ piece.text ++ behind ∧ draft.lineOf index = 1 + newlines before ∧
          (Text.LineIndex.ofText draft.render).lineOf (byteSize before) = draft.lineOf index := by
  refine ⟨Text.lineOf_ofText text, fun index inside => lineOf_ofTokens text inside, ?_⟩
  intro draft index piece hpiece
  have split := render_eq_of_getElem? hpiece
  have line := Draft.lineOf_eq hpiece
  refine ⟨_, _, rfl, split, line, ?_⟩
  rw [split, List.append_assoc _ piece.text, Text.lineOf_byteSize, line]

/-- A name of two bytes and a literal over two lines change places, and a text over two lines takes the place
of the literal; and a position behind the end of the program. -/
theorem lines_agree_written :
    let text := "é\n\"\"\"\n\"\"\" y".toList
    let cut := (Draft.ofTokens (Token.ofText text)).detach 0 1
    let draft := (cut.1.insert 1 cut.2).setText 0 "p\nq".toList
    (2 < (Token.ofText text).length ∧ draft.pieces[2]? = some ⟨[], ['y'], [], none⟩) ∧
      (Text.LineIndex.ofText text).lineOf 100 = 1 + ((bytes text).take 100).count '\n'.toUInt8 ∧
      (Draft.ofTokens (Token.ofText text)).lineOf 2 = (Source.ofText text).lineOf 2 ∧
      (∃ before behind, before = renderPieces (draft.pieces.take 2) ++ [] ∧ draft.render = before ++ ['y'] ++ behind ∧
        draft.lineOf 2 = 1 + newlines before ∧
        (Text.LineIndex.ofText draft.render).lineOf (byteSize before) = draft.lineOf 2) ∧
      draft.render = "\np\nq \néy".toList ∧ draft.lineOf 2 = 4 := by
  intro text cut draft
  have inside : 2 < (Token.ofText text).length := by decide +kernel
  have piece : draft.pieces[2]? = some ⟨[], ['y'], [], none⟩ := by decide +kernel
  obtain ⟨index, program, drafts⟩ := lines_agree text
  exact ⟨⟨inside, piece⟩, index 100, program 2 inside, drafts draft 2 _ piece, by decide +kernel, by decide +kernel⟩

end SwiftTemplate.Repair
