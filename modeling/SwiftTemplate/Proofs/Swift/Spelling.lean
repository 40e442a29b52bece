import SwiftTemplate.Proofs.Swift.Interpolations

/-!
# What string literals spell

A literal without `#` is decoded by undoing its escapes; code between `\(` and `)` is left as it is.
Text that is written into a literal spells something there if the scanner stays inside the literal
while it reads the text, and decoding gives that back.
-/
namespace SwiftTemplate.Swift.Literal

open Text (Passes walk)

/-! ## Decoding -/

/-- What a place of a literal stands for. -/
inductive Part
  | char (c : Char)
  /-- The value of some code. -/
  | code (code : List Char)
  deriving DecidableEq, Repr

/-- The character that an escape stands for, by the character behind its backslash. -/
def unescape? (c : Char) : Option Char :=
  [('\\', '\\'), ('"', '"'), ('\'', '\''), ('n', '\n'), ('r', '\r'), ('t', '\t'), ('0', '\x00')].lookup c

/-- What the text between the delimiters of a literal spells. -/
def parts? : List Char → Option (List Part)
  | [] => some []
  | c :: rest =>
    if c ≠ '\\' then (parts? rest).map (.char c :: ·)
    else
      match rest with
      | [] => none
      | d :: behind =>
        if d = '(' then
          match scan [.interpolation 0] behind with
          | (n, []) => (parts? (behind.drop n)).map (.code (behind.take (n - 1)) :: ·)
          | _ => none
        else (unescape? d).bind fun meant => (parts? behind).map (.char meant :: ·)
termination_by text => text.length
decreasing_by all_goals (simp only [List.length_drop, List.length_cons]; omega)

/-- The text between two others. -/
def between? (opening closing text : List Char) : Option (List Char) :=
  let inner := text.drop opening.length
  if opening.isPrefixOf text && closing.isSuffixOf inner then some (inner.take (inner.length - closing.length))
  else none

/-- What a literal without `#` spells. The line breaks behind the opening and before the closing
quotes of a literal on several lines do not count. -/
def spelled? : List Char → Option (List Part)
  | '"' :: rest =>
    if isTriple rest then (between? ['"', '"', '\n'] ['\n', '"', '"', '"'] rest).bind parts?
    else (between? [] ['"'] rest).bind parts?
  | _ => none

theorem between?_append (opening body closing : List Char) :
    between? opening closing (opening ++ (body ++ closing)) = some body := by
  have front : opening.isPrefixOf (opening ++ (body ++ closing)) = true :=
    List.isPrefixOf_iff_prefix.2 (List.prefix_append _ _)
  have back : closing.isSuffixOf (body ++ closing) = true := List.isSuffixOf_iff_suffix.2 (List.suffix_append _ _)
  simp [between?, front, back]

theorem parts?_char {c : Char} (h : c ≠ '\\') (rest : List Char) :
    parts? (c :: rest) = (parts? rest).map (.char c :: ·) := by
  rw [parts?.eq_def]
  exact if_pos h

theorem parts?_escape {d c : Char} (h : unescape? d = some c) (rest : List Char) :
    parts? ('\\' :: d :: rest) = (parts? rest).map (.char c :: ·) := by
  have other : d ≠ '(' := by
    rintro rfl
    cases h
  rw [parts?, if_neg (by decide)]
  simp only [if_neg other, h, Option.bind_some]

theorem parts?_code {code : List Char} (h : SelfContained code) (rest : List Char) :
    parts? ('\\' :: '(' :: (code ++ ')' :: rest)) = (parts? rest).map (.code code :: ·) := by
  have behind : (code ++ ')' :: rest).drop (code.length + 1) = rest := by
    rw [← List.drop_drop, List.drop_left]
    rfl
  rw [parts?, if_neg (by decide)]
  simp only [if_pos, h rest, behind, Nat.add_sub_cancel, List.take_left]

/-! ## Text inside a literal -/

/-- Text that spells some parts inside a literal, on one line or several, whatever is around it. -/
structure Spells (multiline : Bool) (text : List Char) (parts : List Part) : Prop where
  /-- The scanner is in the literal behind the text as it was before. -/
  passes : ∀ behind outer, Passes step behind (.text 0 multiline :: outer) text (.text 0 multiline :: outer)
  read : ∀ behind, parts? (text ++ behind) = (parts? behind).map (parts ++ ·)

namespace Spells

variable {multiline : Bool} {text other : List Char} {parts more : List Part}

theorem nil (multiline : Bool) : Spells multiline [] [] := by
  refine ⟨fun behind outer => .stay _, fun behind => ?_⟩
  simp

theorem append (h : Spells multiline text parts) (h' : Spells multiline other more) :
    Spells multiline (text ++ other) (parts ++ more) := by
  refine ⟨fun behind outer => (h.passes _ outer).append (h'.passes behind outer), fun behind => ?_⟩
  rw [List.append_assoc, h.read, h'.read, Option.map_map]
  congr 1
  funext found
  exact (List.append_assoc parts more found).symm

theorem flatMap {write : Char → List Char} {text : List Char}
    (h : ∀ c ∈ text, Spells multiline (write c) [.char c]) : Spells multiline (text.flatMap write) (text.map .char) := by
  induction text with
  | nil => exact nil multiline
  | cons c text ih =>
    obtain ⟨own, others⟩ := List.forall_mem_cons.1 h
    exact own.append (ih others)

/-- A character that is no backslash, no quote and, on one line, no line break stands for itself. -/
theorem char {c : Char} (backslash : c ≠ '\\') (quote : c ≠ '"') (line : multiline = true ∨ Comment.isBreak c = false) :
    Spells multiline [c] [.char c] := by
  refine ⟨fun behind outer => ?_, parts?_char backslash⟩
  have stays : textStep 0 multiline outer c behind = some (0, .text 0 multiline :: outer) := by
    rw [textStep, if_neg (by simp [backslash]), if_neg (by simp [quote]), if_neg]
    rcases line with several | other
    · simp [several]
    · simp [other]
  exact .take (w := []) stays (Nat.le_refl 0) (.stay _)

/-- An escape stands for its character. -/
theorem escape {d c : Char} (h : unescape? d = some c) : Spells multiline ['\\', d] [.char c] := by
  refine ⟨fun behind outer => ?_, parts?_escape h⟩
  have stays : textStep 0 multiline outer '\\' (d :: behind) = some (1, .text 0 multiline :: outer) := by
    have letter : d ≠ '(' ∧ Comment.isBreak d = false := by
      constructor
      · rintro rfl
        cases h
      · refine Bool.eq_false_iff.2 fun line => ?_
        rcases Bool.or_eq_true_iff.1 line with hd | hd
        · rw [of_decide_eq_true hd] at h
          cases h
        · rw [of_decide_eq_true hd] at h
          cases h
    simp [textStep, hashesAhead, letter]
  exact .take (w := [d]) stays (Nat.le_refl 1) (.stay _)

/-- An interpolation stands for the value of its code. -/
theorem code {code : List Char} (h : SelfContained code) :
    Spells multiline ('\\' :: '(' :: (code ++ [')'])) [.code code] := by
  refine ⟨fun behind outer => ?_, fun behind => ?_⟩
  · have enters : textStep 0 multiline outer '\\' ('(' :: (code ++ [')']) ++ behind)
        = some (1, .interpolation 0 :: .text 0 multiline :: outer) := by
      simp [textStep, hashesAhead]
    exact .take enters (by simp) (h.passes _ behind)
  · simpa using parts?_code h behind

/-- Nothing spells nothing. -/
theorem eq_nil (h : Spells multiline [] parts) : parts = [] := by
  have := h.read []
  simpa [parts?] using this.symm

/-- A quote that stands in a literal on one line without a backslash would end it. -/
theorem head?_ne (h : Spells false text parts) : text.head? ≠ some '"' := by
  intro hhead
  obtain ⟨rest, rfl⟩ := List.head?_eq_some_iff.1 hhead
  have closes : textStep 0 false [] '"' (rest ++ []) = some (0, []) := by
    simp [textStep, hashesAhead, quoteExtent]
  cases h.passes [] [] with
  | take taken inside further =>
    rw [step, closes] at taken
    cases taken
    cases further with
    | take taken => cases taken

theorem isTriple_eq_false (h : Spells false text parts) {behind : List Char} (hbehind : behind.head? ≠ some '"') :
    isTriple (text ++ '"' :: behind) = false := by
  cases text with
  | nil =>
    cases behind with
    | nil => rfl
    | cons c behind =>
      have other : '"' ≠ c := by
        rintro rfl
        exact hbehind rfl
      simp [isTriple, List.isPrefixOf, other]
  | cons c text =>
    have other : '"' ≠ c := by
      rintro rfl
      exact h.head?_ne rfl
    simp [isTriple, List.isPrefixOf, other]

end Spells

/-! ## Whole literals -/

variable {text : List Char} {parts : List Part}

/-- A literal on one line ends with the quote behind what it spells. -/
theorem measure_inline (h : Spells false text parts) {behind : List Char} (hbehind : behind.head? ≠ some '"') :
    measure 0 (text ++ '"' :: behind) = ⟨text.length + 1, true⟩ := by
  have closes : step [.text 0 false] '"' behind = some (0, []) := by
    simp [step, textStep, hashesAhead, quoteExtent]
  simp only [measure, scan, h.isTriple_eq_false hbehind, quoteExtent, Bool.false_eq_true, if_false, List.drop_zero,
    (h.passes _ []).walk_eq, Text.walk_take closes, walk_outside]
  simp

theorem spelled?_inline (h : Spells false text parts) : spelled? ('"' :: (text ++ ['"'])) = some parts := by
  have whole := between?_append [] text ['"']
  have decoded : parts? text = some parts := by
    have := h.read []
    simpa [parts?] using this
  rw [List.nil_append] at whole
  rw [spelled?, h.isTriple_eq_false (by simp), if_neg (by decide), whole, Option.bind_some, decoded]

/-- A literal on several lines ends with the three quotes behind what it spells. -/
theorem measure_block (h : Spells true text parts) (behind : List Char) :
    measure 0 ('"' :: '"' :: '\n' :: (text ++ '\n' :: '"' :: '"' :: '"' :: behind)) = ⟨text.length + 7, true⟩ := by
  have line : Spells true ['\n'] [.char '\n'] := .char (by decide) (by decide) (.inl rfl)
  have inner := (line.append h).append line
  have closes : step [.text 0 true] '"' ('"' :: '"' :: behind) = some (2, []) := by
    simp [step, textStep, hashesAhead, quoteExtent, isTriple, List.isPrefixOf]
  have scanned := (inner.passes ('"' :: '"' :: '"' :: behind) []).walk_eq
  rw [Text.walk_take closes] at scanned
  simp only [List.append_assoc, List.cons_append, List.nil_append, List.drop_succ_cons, List.drop_zero, walk_outside]
    at scanned
  have triple : isTriple ('"' :: '"' :: '\n' :: (text ++ '\n' :: '"' :: '"' :: '"' :: behind)) = true := rfl
  simp only [measure, scan, triple, quoteExtent, if_true, List.drop_succ_cons, List.drop_zero, scanned]
  simp
  omega

theorem spelled?_block (h : Spells true text parts) :
    spelled? ('"' :: '"' :: '"' :: '\n' :: (text ++ ['\n', '"', '"', '"'])) = some parts := by
  have whole := between?_append ['"', '"', '\n'] text ['\n', '"', '"', '"']
  have decoded : parts? text = some parts := by
    have := h.read []
    simpa [parts?] using this
  have triple : isTriple ('"' :: '"' :: '\n' :: (text ++ ['\n', '"', '"', '"'])) = true := rfl
  rw [spelled?, if_pos triple]
  exact (congrArg (Option.bind · parts?) whole).trans decoded

/-! ## Quoted texts -/

/-- Every character has a spelling in quoted texts. -/
theorem spells_escape (multiline : Bool) (c : Char) : Spells multiline (escape c) [.char c] := by
  unfold escape
  split
  · next hc =>
    subst hc
    exact .escape rfl
  split
  · next hc =>
    subst hc
    exact .escape rfl
  split
  · next hc =>
    subst hc
    exact .escape rfl
  split
  · next hc =>
    subst hc
    exact .escape rfl
  split
  · next hc =>
    subst hc
    exact .escape rfl
  split
  · next hc =>
    subst hc
    exact .escape rfl
  · next backslash quote line return' tab null =>
    refine .char backslash quote (.inr ?_)
    simp [Comment.isBreak, line, return']

theorem spells_quoted (value : List Char) : Spells false (value.flatMap escape) (value.map .char) :=
  .flatMap fun c _ => spells_escape false c

end SwiftTemplate.Swift.Literal
