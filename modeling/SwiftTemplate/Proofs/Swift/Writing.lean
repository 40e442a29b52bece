import SwiftTemplate.Proofs.Swift.Spelling
import SwiftTemplate.Proofs.Swift.Standalone

/-!
# Written tokens

Tokens that are written one right behind the other, or with a blank between them, are read as they
were written, if no token goes on with the characters of the next.
-/
namespace SwiftTemplate.Swift

open Text (Breaks run)

/-! ## Lexemes -/

namespace Word

/-- No digit and no sign with a meaning of its own begins a word. -/
theorem ne_of_isStart {c : Char} (h : isStart c = true) {d : Char} (hd : isStart d = false) : c ≠ d := by
  rintro rfl
  rw [h] at hd
  cases hd

/-- The signs between and behind the letters of ASCII. -/
def laterSigns : List Char := ['[', '\\', ']', '^', '\x60', '\x7b', '|', '\x7d', '~']

/-- What stands before the letters begins no word, and neither do the signs between and behind them. -/
theorem isStart_eq_false {c : Char} (h : c.toNat < 65 ∨ c ∈ laterSigns) : isStart c = false := by
  rcases h with small | sign
  · have letters : isStart c = (c = '_' || (decide (65 ≤ c.toNat) &&
        (decide (c.toNat ≤ 90) || Text.inRanges c.toNat (Text.letterRanges.drop 1)))) := rfl
    have other : c ≠ '_' := by
      rintro rfl
      exact absurd small (by decide)
    rw [letters, decide_eq_false (Nat.not_le.2 small), Bool.false_and, Bool.or_false, decide_eq_false other]
  · have signs : laterSigns.any isStart = false := by decide +kernel
    exact Bool.eq_false_iff.2 (List.any_eq_false.1 signs c sign)

theorem isDigit_of_isStart {c : Char} (h : isStart c = true) : Text.Decimal.isDigit c = false := by
  refine Bool.eq_false_iff.2 fun digit => ?_
  simp only [Text.Decimal.isDigit, Bool.and_eq_true, decide_eq_true_eq, UInt32.le_iff_toNat_le] at digit
  have high : c.toNat ≤ 57 := digit.2
  rw [isStart_eq_false (.inl (by omega))] at h
  cases h

end Word

namespace Lexeme

/-- Whether a text is an identifier: a word that is not reserved, a word behind `$`, or a text on one
line between back quotes. -/
def isIdentifier : List Char → Bool
  | [] => false
  | c :: rest =>
    if c = '\x60' then rest.getLast? = some '\x60' && rest.dropLast.all fun d => d ≠ '\x60' && d ≠ '\n'
    else if c = '$' then rest.all Word.isInside
    else Word.isStart c && rest.all Word.isInside && (Keyword.ofName? (c :: rest)).isNone

/-- A word ends before what cannot stand inside a word. -/
theorem read_word {c : Char} {w rest : List Char} (hc : Word.isStart c = true) (hw : w.all Word.isInside = true)
    (hrest : rest.head?.any Word.isInside = false) :
    read c (w ++ rest) = ⟨wordKind (c :: w), w.length, false⟩ := by
  have other {d : Char} (hd : Word.isStart d = false) : c ≠ d := Word.ne_of_isStart hc hd
  have signs : ∀ entry ∈ punctuation, entry.1.toNat < 65 ∨ entry.1 ∈ Word.laterSigns := by decide
  have marks : ∀ entry ∈ punctuation, Word.isStart entry.1 = false :=
    fun entry hmem => Word.isStart_eq_false (signs entry hmem)
  have mark : punctuation.lookup c = none :=
    List.lookup_eq_none_iff.2 fun entry hmem => by simpa using other (marks entry hmem)
  have operators : ∀ d, isOperatorChar d = true → Word.isStart d = false := by
    intro d hd
    have listed : ['/', '=', '-', '+', '!', '*', '%', '<', '>', '&', '|', '^', '~', '?'].all
        (fun d => d.toNat < 65 ∨ d ∈ Word.laterSigns) = true := by
      decide
    exact Word.isStart_eq_false (of_decide_eq_true (List.all_eq_true.1 listed d (List.contains_iff_mem.1 hd)))
  have operator : isOperatorChar c = false := Bool.eq_false_iff.2 fun hop => other (operators c hop) rfl
  have quote : Word.isStart '"' = false := Word.isStart_eq_false (by decide)
  have hash : Word.isStart '#' = false := Word.isStart_eq_false (by decide)
  have tick : Word.isStart '\x60' = false := Word.isStart_eq_false (by decide)
  have dollar : Word.isStart '$' = false := Word.isStart_eq_false (by decide)
  have point : Word.isStart '.' = false := Word.isStart_eq_false (by decide)
  simp only [read, mark, readLong, if_neg (other quote), if_neg (other hash), if_neg (other tick),
    if_neg (other dollar), Word.isDigit_of_isStart hc, Bool.false_eq_true, if_false, if_neg (other point), operator,
    hc, if_true, Text.run_append_of_all hw hrest, List.take_left]

/-- An identifier ends before what cannot stand inside a word. -/
theorem read_identifier {c : Char} {w rest : List Char} (h : isIdentifier (c :: w) = true)
    (hrest : rest.head?.any Word.isInside = false) :
    read c (w ++ rest) = ⟨.identifier, w.length, false⟩ := by
  rw [isIdentifier] at h
  split at h
  · next tick =>
    subst tick
    obtain ⟨closes, plain⟩ := Bool.and_eq_true_iff.1 h
    obtain ⟨name, rfl⟩ := List.getLast?_eq_some_iff.1 (of_decide_eq_true closes)
    rw [List.dropLast_concat] at plain
    have extent : quotedExtent (name ++ ['\x60'] ++ rest) = name.length + 1 := by
      have inner : run (fun d => decide (d ≠ '\x60') && decide (d ≠ '\n')) (name ++ '\x60' :: rest) = name.length :=
        Text.run_append_of_all plain rfl
      unfold quotedExtent
      dsimp only
      rw [List.append_assoc, List.singleton_append, inner, List.drop_left, List.head?_cons, if_pos rfl]
    have quoted : read '\x60' (name ++ ['\x60'] ++ rest)
        = ⟨.identifier, quotedExtent (name ++ ['\x60'] ++ rest), false⟩ := rfl
    rw [quoted, extent, List.length_append]
    rfl
  split at h
  · next dollar =>
    subst dollar
    have sign : read '$' (w ++ rest) = ⟨.identifier, run Word.isInside (w ++ rest), false⟩ := rfl
    rw [sign, Text.run_append_of_all h hrest]
  · rw [Bool.and_eq_true, Bool.and_eq_true, Option.isNone_iff_eq_none] at h
    rw [read_word h.1.1 h.1.2 hrest, wordKind, h.2]

theorem read_quote (rest : List Char) :
    read '"' rest = ⟨.string, (Literal.measure 0 rest).extent, !(Literal.measure 0 rest).closed⟩ := rfl

end Lexeme

/-! ## Trivia -/

namespace Trivia

/-- Whether a character may belong to the trivia behind a token. -/
def isTrailing (c : Char) : Bool := c = ' ' || c = '\t' || c = '/'

theorem isTrailing_eq_false {c : Char} (h : isSpace c = false ∧ c ≠ '/') : isTrailing c = false := by
  obtain ⟨blank, slash⟩ := h
  simp only [isSpace, Bool.or_eq_false_iff] at blank
  simp [isTrailing, slash, blank.1.1.1.1.1, blank.1.1.1.1.2]

theorem trailing_cons {c : Char} (h : isTrailing c = false) (rest : List Char) : trailing (c :: rest) = 0 := by
  simp only [isTrailing, Bool.or_eq_false_iff, decide_eq_false_iff_not] at h
  rw [trailing, Text.walk_halt (by simp [trailingStep, Text.isSpaceOrTab, Comment.beginsLine, Comment.beginsBlock, h])]

theorem trailing_blank {rest : List Char} (h : trailing rest = 0) : trailing (' ' :: rest) = 1 := by
  have taken : trailingStep () ' ' rest = some (0, ()) := rfl
  rw [trailing, Text.walk_take taken, List.drop_zero]
  exact congrArg (0 + 1 + ·) h

end Trivia

/-! ## Tokens -/

namespace Token

/-- A token that is written right behind the one before it. -/
def written (kind : Kind) (text trailing : List Char) : Token := ⟨kind, [], text, trailing, false⟩

/-- Tokens that are read before a text as they are written. -/
def Reads (tokens : List Token) (rest : List Char) : Prop := ofText (render tokens ++ rest) = tokens ++ ofText rest

variable {tokens others : List Token} {rest : List Char}

theorem Reads.append (h : Reads tokens (render others ++ rest)) (h' : Reads others rest) :
    Reads (tokens ++ others) rest := by
  rw [Reads, render_append, List.append_assoc, h, h', List.append_assoc]

theorem Reads.cons {token : Token} (h : Reads [token] (render others ++ rest)) (h' : Reads others rest) :
    Reads (token :: others) rest := h.append h'

/-- A line break before some tokens belongs to the first of them. -/
theorem ofText_newline (text : List Char) : ofText ('\n' :: text) = prepend ['\n'] (ofText text) := by
  refine @ofText_append_of_leading ['\n'] text ?_
  have taken : Trivia.leadingStep false '\n' text = some (0, false) := rfl
  rw [List.singleton_append, Trivia.leading, Text.walk_take taken]
  rfl

/-- A token is read as it is written where its lexeme ends with it and its trivia does. -/
theorem reads_of_read {kind : Kind} {c : Char} {w trailing : List Char} (hkind : kind ≠ .endOfText)
    (hc : Trivia.isSpace c = false ∧ c ≠ '/')
    (hread : Lexeme.read c (w ++ (trailing ++ rest)) = ⟨kind, w.length, false⟩)
    (htrailing : Trivia.trailing (trailing ++ rest) = trailing.length) :
    Reads [written kind (c :: w) trailing] rest := by
  have hnext : next ((written kind (c :: w) trailing).source ++ rest) = (written kind (c :: w) trailing, rest) := by
    refine (@next_eq_iff (written kind (c :: w) trailing) rest hkind).2
      ⟨c, w, false, false, rfl, ?_, hread, htrailing, rfl⟩
    exact Text.walk_halt (Trivia.leadingStep_eq_none hc.1 hc.2 _)
  rw [Reads, render_cons, render_nil, List.append_nil, ofText_of_next hnext hkind]
  rfl

theorem isSpace_of_isStart {c : Char} (h : Word.isStart c = true) : Trivia.isSpace c = false ∧ c ≠ '/' := by
  have other (d : Char) (small : d.toNat < 65) : c ≠ d := Word.ne_of_isStart h (Word.isStart_eq_false (.inl small))
  refine ⟨?_, other '/' (by decide)⟩
  simp [Trivia.isSpace, other ' ' (by decide), other '\t' (by decide), other '\n' (by decide),
    other '\r' (by decide), other '\x0B' (by decide), other '\x0C' (by decide)]

/-- A mark of punctuation is a token whatever follows it. -/
theorem reads_mark {c : Char} {kind : Kind} {trailing : List Char} (h : Lexeme.punctuation.lookup c = some kind)
    (htrailing : Trivia.trailing (trailing ++ rest) = trailing.length) : Reads [written kind [c] trailing] rest := by
  have marks : ∀ entry ∈ Lexeme.punctuation,
      entry.2 ≠ .endOfText ∧ Trivia.isSpace entry.1 = false ∧ entry.1 ≠ '/' := by
    decide
  obtain ⟨before, behind, split, -⟩ := List.lookup_eq_some_iff.1 h
  obtain ⟨hkind, hc⟩ := marks (c, kind) (by simp [split])
  exact reads_of_read hkind hc (Lexeme.read_of_lookup h _) htrailing

/-- A word is a token before what cannot stand inside a word. -/
theorem reads_word {word trailing : List Char} (hword : word ≠ [])
    (hstart : word.head?.any Word.isStart = true) (hinside : word.tail.all Word.isInside = true)
    (hrest : (trailing ++ rest).head?.any Word.isInside = false)
    (htrailing : Trivia.trailing (trailing ++ rest) = trailing.length) :
    Reads [written (Lexeme.wordKind word) word trailing] rest := by
  obtain ⟨c, w, rfl⟩ := List.exists_cons_of_ne_nil hword
  have hc : Word.isStart c = true := by simpa using hstart
  have hkind : Lexeme.wordKind (c :: w) ≠ .endOfText := by
    have := Lexeme.kind_read_ne c (w ++ (trailing ++ rest))
    rwa [Lexeme.read_word (w := w) hc hinside hrest] at this
  exact reads_of_read hkind (isSpace_of_isStart hc) (Lexeme.read_word hc hinside hrest) htrailing

/-- An identifier begins with no trivia. -/
theorem exists_cons_of_isIdentifier {name : List Char} (h : Lexeme.isIdentifier name = true) :
    ∃ c w, name = c :: w ∧ Trivia.isSpace c = false ∧ c ≠ '/' := by
  cases name with
  | nil => cases h
  | cons c w =>
    refine ⟨c, w, rfl, ?_⟩
    by_cases tick : c = '\x60'
    · subst tick
      decide
    by_cases dollar : c = '$'
    · subst dollar
      decide
    · rw [Lexeme.isIdentifier, if_neg tick, if_neg dollar, Bool.and_eq_true, Bool.and_eq_true] at h
      exact isSpace_of_isStart h.1.1

/-- An identifier is a token before what cannot stand inside a word. -/
theorem reads_identifier {name trailing : List Char} (h : Lexeme.isIdentifier name = true)
    (hrest : (trailing ++ rest).head?.any Word.isInside = false)
    (htrailing : Trivia.trailing (trailing ++ rest) = trailing.length) :
    Reads [written .identifier name trailing] rest := by
  obtain ⟨c, w, rfl, hc⟩ := exists_cons_of_isIdentifier h
  exact reads_of_read (by decide) hc (Lexeme.read_identifier h hrest) htrailing

/-- A word behind `#` is a token before what cannot stand inside a word. -/
theorem reads_pound {word : List Char} (hstart : word.head?.any Word.isStart = true)
    (hinside : word.all Word.isInside = true) (hrest : rest.head?.any Word.isInside = false)
    (htrailing : Trivia.trailing rest = 0) : Reads [written .pound ('#' :: word) []] rest := by
  refine reads_of_read (by decide) (by decide) ?_ htrailing
  cases word with
  | nil => cases hstart
  | cons c w =>
    have hc : Word.isStart c = true := by simpa using hstart
    have other (d : Char) (small : d.toNat < 65) : c ≠ d := Word.ne_of_isStart hc (Word.isStart_eq_false (.inl small))
    have unquoted : Lexeme.quotes (c :: (w ++ rest)) = false := by
      rw [Lexeme.quotes_cons, if_neg (other '#' (by decide))]
      exact decide_eq_false (other '"' (by decide))
    have read : Lexeme.read '#' (c :: (w ++ rest)) = Lexeme.pound (c :: (w ++ rest)) := rfl
    have extent : run Word.isInside (c :: (w ++ rest)) = (c :: w).length :=
      Text.run_append_of_all hinside hrest
    rw [List.nil_append, List.cons_append, read, Lexeme.pound_of_not_quotes unquoted, List.head?_cons,
      Option.any_some, if_pos hc, extent]

/-- Digits are a token before anything but more of a number. -/
theorem reads_digits {digits : List Char} (hne : digits ≠ []) (hdigits : digits.all Text.Decimal.isDigit = true)
    (hrest : rest.head?.any Number.goesOn = false) (htrailing : Trivia.trailing rest = 0) :
    Reads [written .integer digits []] rest := by
  obtain ⟨c, digits, rfl⟩ := List.exists_cons_of_ne_nil hne
  rw [List.all_cons, Bool.and_eq_true] at hdigits
  have facts := digit_facts hdigits.1
  exact reads_of_read (by decide) ⟨facts.1, facts.2.1⟩ (read_digits hdigits.1 hdigits.2 hrest) htrailing

/-- A literal on one line is a token before anything but a quote. -/
theorem reads_inline {text trailing : List Char} {parts : List Literal.Part} (h : Literal.Spells false text parts)
    (hrest : (trailing ++ rest).head? ≠ some '"')
    (htrailing : Trivia.trailing (trailing ++ rest) = trailing.length) :
    Reads [written .string ('"' :: (text ++ ['"'])) trailing] rest := by
  refine reads_of_read (by decide) (by decide) ?_ htrailing
  have measured := Literal.measure_inline h hrest
  rw [List.append_assoc, List.singleton_append, Lexeme.read_quote, measured]
  simp

/-- A literal on several lines is a token whatever follows it. -/
theorem reads_block {text trailing : List Char} {parts : List Literal.Part} (h : Literal.Spells true text parts)
    (htrailing : Trivia.trailing (trailing ++ rest) = trailing.length) :
    Reads [written .string ('"' :: '"' :: '"' :: '\n' :: (text ++ ['\n', '"', '"', '"'])) trailing] rest := by
  refine reads_of_read (by decide) (by decide) ?_ htrailing
  have measured := Literal.measure_block h (trailing ++ rest)
  simp only [List.cons_append, List.append_assoc, List.nil_append]
  rw [Lexeme.read_quote, measured]
  simp

end Token

end SwiftTemplate.Swift
