import SwiftTemplate.Swift.Lexeme
import SwiftTemplate.Swift.Trivia

/-!
# Tokens

A token owns the trivia around it, so that the tokens of a text, written one after the other, are
the text. Every text has tokens, and the last of them stands for its end.
-/
namespace SwiftTemplate.Swift

structure Token where
  kind : Kind
  /-- The trivia before the token, line breaks included. -/
  leading : List Char
  text : List Char
  /-- The trivia after the token on its line. -/
  trailing : List Char
  /-- Whether the token is a string literal, or has a block comment before it, that is not closed. -/
  unterminated : Bool
  deriving DecidableEq, Repr

namespace Token

def source (token : Token) : List Char := token.leading ++ token.text ++ token.trailing

/-- Whether a line break separates the token from the one before it. -/
def startsLine (token : Token) : Bool := token.leading.contains '\n'

/-- The token that begins with the character `c` behind some trivia, and the text behind it. -/
def beginning (leading : List Char) (left_open : Bool) (c : Char) (rest : List Char) : Token × List Char :=
  let lexeme := Lexeme.read c rest
  let behind := rest.drop lexeme.extent
  let tail := Trivia.trailing behind
  (⟨lexeme.kind, leading, c :: rest.take lexeme.extent, behind.take tail, lexeme.unterminated || left_open⟩,
    behind.drop tail)

def next (text : List Char) : Token × List Char :=
  let blank := Trivia.leading text
  match text.drop blank.1 with
  | [] => (⟨.endOfText, text, [], [], blank.2⟩, [])
  | c :: rest => beginning (text.take blank.1) blank.2 c rest

theorem length_beginning_le (leading : List Char) (left_open : Bool) (c : Char) (rest : List Char) :
    (beginning leading left_open c rest).2.length ≤ rest.length := by
  simp [beginning]

theorem length_next_lt {text : List Char} (h : (next text).1.kind ≠ .endOfText) :
    (next text).2.length < text.length := by
  unfold next at h ⊢
  dsimp only at h ⊢
  split at h
  · exact absurd rfl h
  · next c rest hdrop =>
    have hlen := congrArg List.length hdrop
    have := length_beginning_le (text.take (Trivia.leading text).1) (Trivia.leading text).2 c rest
    simp only [List.length_drop, List.length_cons] at hlen
    omega

def ofText (text : List Char) : List Token :=
  let first := next text
  if _ : first.1.kind = .endOfText then [first.1] else first.1 :: ofText first.2
termination_by text.length
decreasing_by exact length_next_lt ‹_›

theorem source_beginning_append (leading : List Char) (left_open : Bool) (c : Char) (rest : List Char) :
    (beginning leading left_open c rest).1.source ++ (beginning leading left_open c rest).2
      = leading ++ c :: rest := by
  simp only [beginning, source, List.append_assoc, List.cons_append, List.take_append_drop]

/-- The first token and the text behind it are the text. -/
theorem source_next_append (text : List Char) : (next text).1.source ++ (next text).2 = text := by
  unfold next
  dsimp only
  split
  · simp [source]
  · next c rest hdrop =>
    rw [source_beginning_append, ← hdrop, List.take_append_drop]

theorem rest_eq_nil {text : List Char} (h : (next text).1.kind = .endOfText) : (next text).2 = [] := by
  unfold next at h ⊢
  dsimp only at h ⊢
  split at h
  · rfl
  · exact absurd h (Lexeme.kind_read_ne _ _)

/-- The tokens of a text, written one after the other, are the text. -/
theorem flatMap_source_ofText (text : List Char) : (ofText text).flatMap source = text := by
  fun_induction ofText text with
  | case1 text first h => simpa [rest_eq_nil h] using source_next_append text
  | case2 text first h ih => simpa [ih] using source_next_append text

/-- The bytes of a text that a token covers, from `start` to `stop`, and with the trivia around it from `first`
to `last`. -/
structure Span where
  first : Nat
  start : Nat
  stop : Nat
  last : Nat
  deriving DecidableEq, Repr

def spanFrom (first : Nat) (token : Token) : Span :=
  let start := first + Text.byteSize token.leading
  let stop := start + Text.byteSize token.text
  ⟨first, start, stop, stop + Text.byteSize token.trailing⟩

def spans (first : Nat) : List Token → List Span
  | [] => []
  | token :: tokens =>
    let span := spanFrom first token
    span :: spans span.last tokens

end Token

end SwiftTemplate.Swift
