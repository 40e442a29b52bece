import SwiftTemplate.Swift.Directive

/-!
# Drafts

A program taken apart into pieces, one for every token with the trivia around it, so that
directives can be cut out and put in elsewhere.
-/
namespace SwiftTemplate.Repair

open Swift (Directive Token)

structure Piece where
  leading : List Char
  text : List Char
  trailing : List Char
  /-- The directive that begins with the piece. -/
  directive : Option Directive
  deriving DecidableEq, Repr

namespace Piece

def ofToken (token : Token) (directive : Option Directive) : Piece :=
  ⟨token.leading, token.text, token.trailing, directive⟩

def source (piece : Piece) : List Char := piece.leading ++ piece.text ++ piece.trailing

def newlines (piece : Piece) : Nat :=
  Text.newlines piece.leading + Text.newlines piece.text + Text.newlines piece.trailing

def prepend (trivia : List Char) (piece : Piece) : Piece := { piece with leading := trivia ++ piece.leading }

def append (trivia : List Char) (piece : Piece) : Piece := { piece with trailing := piece.trailing ++ trivia }

end Piece

/-- A program in pieces. The last piece stands for the end of the text. -/
structure Draft where
  pieces : List Piece
  deriving DecidableEq, Repr

namespace Draft

/-- The pieces of some tokens. The first piece of every directive carries it. -/
def piecesOf : List Token → List Piece
  | [] => []
  | token :: tokens =>
    match Directive.first? (token :: tokens) with
    | none => .ofToken token none :: piecesOf tokens
    | some form =>
      .ofToken token (some form)
        :: ((tokens.take (form.size - 1)).map (Piece.ofToken · none) ++ piecesOf (tokens.drop (form.size - 1)))
termination_by tokens => tokens.length
decreasing_by all_goals (simp only [List.length_drop, List.length_cons]; omega)

def ofTokens (tokens : List Token) : Draft := ⟨piecesOf tokens⟩

def render (draft : Draft) : List Char := draft.pieces.flatMap Piece.source

def directiveAt? (draft : Draft) (index : Nat) : Option Directive := draft.pieces[index]?.bind Piece.directive

/-- The line on which the piece at some place begins. -/
def lineOf (draft : Draft) (index : Nat) : Nat :=
  1 + (draft.pieces.take index).foldr (fun piece n => piece.newlines + n) 0
    + (draft.pieces[index]?.elim 0 fun piece => Text.newlines piece.leading)

/-- Whether the piece at some place begins a line. The end of the text always counts as one. -/
def startsLine (draft : Draft) (index : Nat) : Bool :=
  index = 0 || index + 1 = draft.pieces.length
    || draft.pieces[index]?.any (·.leading.contains '\n')
    || draft.pieces[index - 1]?.any (·.trailing.getLast? = some '\n')

def setText (index : Nat) (text : List Char) (draft : Draft) : Draft :=
  ⟨draft.pieces.modify index fun piece => { piece with text := text }⟩

/-- Cuts some pieces out of a draft. What stands before the last line break of the trivia at their
start stays behind, and so does what follows from the first line break of the trivia at their end:
the pieces take the line break in front of them along. -/
def detach (index count : Nat) (draft : Draft) : Draft × List Piece :=
  match (draft.pieces.drop index).take count with
  | [] => (draft, [])
  | first :: others =>
    let lead := Text.cutAtLastNewline first.leading
    let opened := { first with leading := lead.2 } :: others
    let last := opened.getLast (by simp [opened])
    let tail := Text.cutAtFirstNewline last.trailing
    let before := draft.pieces.take index
    let behind := draft.pieces.drop (index + count)
    let rest :=
      if index = 0 then behind.modifyHead (Piece.prepend (tail.2 ++ lead.1))
      else before.modify (index - 1) (Piece.append lead.1) ++ behind.modifyHead (Piece.prepend tail.2)
    (⟨rest⟩, opened.dropLast ++ [{ last with trailing := tail.1 }])

/-- Puts pieces into a draft. They begin a new line, if not by their own trivia then by a line
break in front of them, except at the start of the text. -/
def insert (index : Nat) (unit : List Piece) (draft : Draft) : Draft :=
  let unit := unit.modifyHead fun first =>
    if index = 0 || first.leading.contains '\n' then first else first.prepend ['\n']
  ⟨draft.pieces.take index ++ unit ++ draft.pieces.drop index⟩

/-! ## What the pieces of a text hold -/

theorem map_text_piecesOf (tokens : List Token) : (piecesOf tokens).map Piece.text = tokens.map Token.text := by
  fun_induction piecesOf tokens with
  | case1 => rfl
  | case2 token tokens hnone ih => simp [Piece.ofToken, ih]
  | case3 token tokens form hsome ih =>
    simp only [List.map_cons, List.map_append, List.map_map, ih]
    rw [show (Piece.text ∘ fun x => Piece.ofToken x none) = Token.text from rfl, ← List.map_append,
      List.take_append_drop]
    rfl

theorem flatMap_source_piecesOf (tokens : List Token) :
    (piecesOf tokens).flatMap Piece.source = tokens.flatMap Token.source := by
  fun_induction piecesOf tokens with
  | case1 => rfl
  | case2 token tokens hnone ih => simp [Piece.ofToken, Piece.source, Token.source, ih]
  | case3 token tokens form hsome ih =>
    simp only [List.flatMap_cons, List.flatMap_append, List.flatMap_map, ih]
    rw [show (fun x => (Piece.ofToken x none).source) = Token.source from rfl, ← List.flatMap_append,
      List.take_append_drop]
    rfl

/-- The draft of a text renders to the text. -/
theorem render_ofTokens_ofText (text : List Char) : (ofTokens (Token.ofText text)).render = text := by
  rw [ofTokens, render, flatMap_source_piecesOf, Token.flatMap_source_ofText]

/-! ## What a cut takes away -/

private theorem length_modifyHead_le (trivia : List Char) (pieces : List Piece) :
    ((pieces.modifyHead (Piece.prepend trivia)).flatMap Piece.source).length
      ≤ (pieces.flatMap Piece.source).length + trivia.length := by
  cases pieces with
  | nil => simp
  | cons piece pieces => simp [Piece.prepend, Piece.source]; omega

private theorem length_modify_le (trivia : List Char) (pieces : List Piece) (index : Nat) :
    ((pieces.modify index (Piece.append trivia)).flatMap Piece.source).length
      ≤ (pieces.flatMap Piece.source).length + trivia.length := by
  induction pieces generalizing index with
  | nil => simp
  | cons piece pieces ih =>
    cases index with
    | zero => simp [Piece.append, Piece.source]; omega
    | succ index => simp only [List.modify_succ_cons, List.flatMap_cons, List.length_append]; have := ih index; omega

private theorem length_trailing_le {piece : Piece} {pieces : List Piece} (h : piece ∈ pieces) :
    piece.trailing.length ≤ (pieces.flatMap Piece.source).length := by
  induction pieces with
  | nil => simp at h
  | cons other pieces ih =>
    rcases List.mem_cons.1 h with rfl | hmem
    · simp [Piece.source]; omega
    · have := ih hmem; simp only [List.flatMap_cons, List.length_append]; omega

private theorem length_ends_le (first : Piece) (others : List Piece) :
    first.leading.length + first.text.length + ((first :: others).getLast (by simp)).trailing.length
      ≤ ((first :: others).flatMap Piece.source).length := by
  cases others with
  | nil => simp [Piece.source]; omega
  | cons other others =>
    have := length_trailing_le (List.getLast_mem (l := other :: others) (by simp))
    rw [List.getLast_cons (by simp), List.flatMap_cons, List.length_append]
    simp only [Piece.source, List.length_append] at this ⊢
    omega

/-- A cut takes at least the text of its first piece away. -/
theorem length_render_detach {draft : Draft} {index count : Nat} {first : Piece} {others : List Piece}
    (h : (draft.pieces.drop index).take count = first :: others) :
    (draft.detach index count).1.render.length + first.text.length ≤ draft.render.length := by
  have whole : draft.pieces
      = draft.pieces.take index ++ (first :: others) ++ draft.pieces.drop (index + count) := by
    rw [← h, ← List.drop_drop, List.append_assoc, List.take_append_drop, List.take_append_drop]
  have total := congrArg (fun pieces => (pieces.flatMap Piece.source).length) whole
  have lead := congrArg List.length (Text.cutAtLastNewline_append first.leading)
  have ends := length_ends_le { first with leading := (Text.cutAtLastNewline first.leading).2 } others
  have tail := congrArg List.length (Text.cutAtFirstNewline_append
    (({ first with leading := (Text.cutAtLastNewline first.leading).2 } :: others).getLast (by simp)).trailing)
  have shrunk : ((({ first with leading := (Text.cutAtLastNewline first.leading).2 } : Piece) :: others).flatMap
      Piece.source).length + (Text.cutAtLastNewline first.leading).1.length
        = ((first :: others).flatMap Piece.source).length := by
    simp only [List.flatMap_cons, Piece.source, List.length_append] at lead ⊢
    omega
  simp only [List.flatMap_append, List.length_append] at total lead tail
  unfold detach
  rw [h]
  dsimp only [render] at ends tail ⊢
  split
  · next hzero =>
    subst hzero
    have := length_modifyHead_le
      ((Text.cutAtFirstNewline (({ first with leading := (Text.cutAtLastNewline first.leading).2 }
        :: others).getLast (by simp)).trailing).2 ++ (Text.cutAtLastNewline first.leading).1)
      (draft.pieces.drop (0 + count))
    simp only [List.length_append] at this
    simp only [List.take_zero, List.flatMap_nil, List.length_nil] at total
    omega
  · have hbehind := length_modifyHead_le
      (Text.cutAtFirstNewline (({ first with leading := (Text.cutAtLastNewline first.leading).2 }
        :: others).getLast (by simp)).trailing).2 (draft.pieces.drop (index + count))
    have hbefore := length_modify_le (Text.cutAtLastNewline first.leading).1 (draft.pieces.take index) (index - 1)
    simp only [List.flatMap_append, List.length_append]
    omega

end Draft

end SwiftTemplate.Repair
