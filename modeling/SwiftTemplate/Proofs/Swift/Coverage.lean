import Mathlib.Data.List.Forall2
import SwiftTemplate.Proofs.Swift.Standalone
import SwiftTemplate.Proofs.Template.Slices

/-!
# Tokens cover their text

Every text has tokens, the last of them for its end. The trivia before each token, the token and the
trivia behind it are ranges of bytes that follow each other from the first byte of the text to the
last, so that no character is lost and none belongs to two tokens.
-/
namespace SwiftTemplate.Swift.Token

open Text (byteSize slice?)

/-- Spans that follow each other from the byte `first` up to the byte `last`. -/
def Covers (first last : Nat) : List Span → Prop
  | [] => first = last
  | span :: spans => span.first = first ∧ Covers span.last last spans

/-- A span of a text holds a token: its three ranges are between characters, and what stands in them
is the trivia before the token, the token itself, and the trivia behind it. -/
structure Holds (whole : List Char) (span : Span) (token : Token) : Prop where
  leading : slice? span.first span.start whole = some token.leading
  text : slice? span.start span.stop whole = some token.text
  trailing : slice? span.stop span.last whole = some token.trailing

/-- Tokens of which the last, and no other, is the end of a text. -/
structure Ended (tokens : List Token) (front : List Token) (final : Token) : Prop where
  split : tokens = front ++ [final]
  kind : final.kind = .endOfText
  text : final.text = []
  trailing : final.trailing = []
  others : ∀ token ∈ front, token.kind ≠ .endOfText ∧ token.text ≠ []

theorem covers_spans (first : Nat) (tokens : List Token) :
    Covers first (first + byteSize (render tokens)) (spans first tokens) := by
  induction tokens generalizing first with
  | nil => rfl
  | cons token tokens ih =>
    constructor
    · rfl
    · have size : first + byteSize (render (token :: tokens)) = (spanFrom first token).last + byteSize (render tokens) := by
        simp only [render_cons, source, spanFrom, Text.byteSize_append]
        omega
      rw [size]
      exact ih _

theorem holds_spanFrom (front : List Char) (token : Token) (behind : List Char) :
    Holds (front ++ (token.source ++ behind)) (spanFrom (byteSize front) token) token := by
  constructor
  · have whole : front ++ (token.source ++ behind)
        = front ++ token.leading ++ (token.text ++ token.trailing ++ behind) := by
      simp [source]
    rw [whole]
    apply Text.slice?_append
    · rfl
    · rfl
  · have whole : front ++ (token.source ++ behind)
        = (front ++ token.leading) ++ token.text ++ (token.trailing ++ behind) := by
      simp [source]
    rw [whole]
    apply Text.slice?_append
    · simp [spanFrom]
    · rfl
  · have whole : front ++ (token.source ++ behind)
        = (front ++ token.leading ++ token.text) ++ token.trailing ++ behind := by
      simp [source]
    rw [whole]
    apply Text.slice?_append
    · simp [spanFrom, Nat.add_assoc]
    · rfl

theorem holds_spans (front : List Char) (tokens : List Token) :
    List.Forall₂ (Holds (front ++ render tokens)) (spans (byteSize front) tokens) tokens := by
  induction tokens generalizing front with
  | nil => exact .nil
  | cons token tokens ih =>
    have own := holds_spanFrom front token (render tokens)
    have others := ih (front ++ token.source)
    have next : byteSize (front ++ token.source) = (spanFrom (byteSize front) token).last := by
      simp only [source, spanFrom, Text.byteSize_append]
      omega
    rw [List.append_assoc, next] at others
    exact .cons own others

theorem Lexed.exists_ended {tokens : List Token} (h : Lexed tokens) : ∃ front final, Ended tokens front final := by
  induction tokens with
  | nil => exact absurd rfl h.ne_nil
  | cons token tokens ih =>
    by_cases last : tokens = []
    · subst last
      have kind := h.kind_of_singleton
      obtain ⟨text, trailing⟩ := h.nil_of_endOfText kind
      exact ⟨[], token, rfl, kind, text, trailing, by simp⟩
    · obtain ⟨front, final, split, kind, text, trailing, others⟩ := ih (h.tail last)
      have own := h.kind_ne last
      have filled : token.text ≠ [] := (length_leading_le h.next_eq own).2
      refine ⟨token :: front, final, ?_, kind, text, trailing, ?_⟩
      · rw [split]
        rfl
      · intro other hmem
        rcases List.mem_cons.1 hmem with rfl | hmem
        · exact ⟨own, filled⟩
        · exact others other hmem

/-- Only string literals and the end of the text are ever left open. -/
theorem Lexed.kind_of_mem_unterminated {tokens : List Token} (h : Lexed tokens) {token : Token} (hmem : token ∈ tokens)
    (unterminated : token.unterminated = true) : token.kind = .string ∨ token.kind = .endOfText := by
  obtain ⟨before, behind, rfl⟩ := List.append_of_mem hmem
  have own : Lexed (token :: behind) := h.of_append (by simp)
  by_cases last : behind = []
  · subst last
    exact .inr own.kind_of_singleton
  · exact .inl (own.kind_of_unterminated last unterminated)

/-- The tokens of a text cover it without gaps and without overlap, on the boundaries of characters.
The last token is the end of the text and is empty, and all others are not. A line break between two
tokens stands before the second of them. -/
theorem ofText_covers (text : List Char) :
    (ofText text).flatMap source = text ∧
      Covers 0 (byteSize text) (spans 0 (ofText text)) ∧
      List.Forall₂ (Holds text) (spans 0 (ofText text)) (ofText text) ∧
      (∃ front final, Ended (ofText text) front final) ∧
      (∀ token ∈ ofText text,
        '\n' ∉ token.trailing ∧ (token.unterminated = true → token.kind = .string ∨ token.kind = .endOfText)) ∧
      ∀ before token following behind, ofText text = before ++ token :: following :: behind →
        Text.newlines (token.trailing ++ following.leading) = Text.newlines following.leading := by
  have lexed := lexed_ofText text
  have whole : render (ofText text) = text := flatMap_source_ofText text
  have stays := lexed.newline_not_mem_trailing
  refine ⟨whole, ?_, ?_, lexed.exists_ended, ?_, ?_⟩
  · have covers := covers_spans 0 (ofText text)
    rwa [whole, Nat.zero_add] at covers
  · have holds := holds_spans [] (ofText text)
    rwa [whole] at holds
  · intro token hmem
    exact ⟨stays token hmem, lexed.kind_of_mem_unterminated hmem⟩
  · intro before token following behind h
    have own : '\n' ∉ token.trailing := stays token (by simp [h])
    have none : Text.newlines token.trailing = 0 := List.count_eq_zero.2 own
    rw [Text.newlines_append, none, Nat.zero_add]

/-- A comment over two lines stands before the literal behind it, which is left open. -/
theorem ofText_covers_openLiteral :
    ofText "a /*\n*/ \"b".toList =
        [⟨.identifier, [], ['a'], [' '], false⟩, ⟨.string, "/*\n*/ ".toList, ['"', 'b'], [], true⟩, ⟨.endOfText, [], [], [], false⟩] ∧
      Text.newlines (" ".toList ++ "/*\n*/ ".toList) = Text.newlines "/*\n*/ ".toList ∧
      (Kind.string = .string ∨ Kind.string = .endOfText) := by
  have tokens : ofText "a /*\n*/ \"b".toList =
      [⟨.identifier, [], ['a'], [' '], false⟩, ⟨.string, "/*\n*/ ".toList, ['"', 'b'], [], true⟩,
        ⟨.endOfText, [], [], [], false⟩] := by
    decide +kernel
  obtain ⟨-, -, -, -, each, between⟩ := ofText_covers "a /*\n*/ \"b".toList
  refine ⟨tokens, ?_, ?_⟩
  · exact between [] _ _ _ tokens
  · have literal := each ⟨.string, "/*\n*/ ".toList, ['"', 'b'], [], true⟩ (by rw [tokens]; decide)
    exact literal.2 rfl

end SwiftTemplate.Swift.Token
