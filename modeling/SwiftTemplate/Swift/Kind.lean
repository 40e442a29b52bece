import SwiftTemplate.Swift.Keyword

/-!
# Kinds of tokens

What a token of Swift can be. Delimiters carry the bracket they open or close, so that an opener
and its closer are the same bracket.
-/
namespace SwiftTemplate.Swift

inductive Bracket
  | brace | paren | square
  deriving DecidableEq, Repr

inductive Kind
  | identifier
  | keyword (word : Keyword)
  /-- A word behind `#`, such as `#if`. -/
  | pound
  | integer
  | float
  | string
  | opener (bracket : Bracket)
  | closer (bracket : Bracket)
  | comma
  | colon
  | semicolon
  | dot
  | atSign
  | backslash
  | arrow
  | equal
  | operator
  /-- A character that begins no token of Swift. -/
  | unknown
  | endOfText
  deriving DecidableEq, Repr

end SwiftTemplate.Swift
