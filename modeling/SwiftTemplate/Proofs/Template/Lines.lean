import SwiftTemplate.Proofs.Text.Continuation
import SwiftTemplate.Template.Segment

/-!
# Lines of templates

What a line of a template is, its line break included, and which lines are lines of code.
-/
namespace SwiftTemplate.Template.Segment

open Text (isSpaceOrTab)

/-! ## One line -/

/-- A text is one line before `behind`, with its line break if it has one. -/
def IsLine (text behind : List Char) : Prop :=
  ∃ line, '\n' ∉ line ∧ (text = line ++ ['\n'] ∨ text = line ∧ behind = [])

/-- Every text begins with a line. -/
theorem exists_isLine (text : List Char) : ∃ line left, text = line ++ left ∧ IsLine line left := by
  have plain : '\n' ∉ text.takeWhile (· ≠ '\n') := by
    intro hmem
    simpa using List.all_eq_true.1 List.all_takeWhile _ hmem
  have whole := (List.takeWhile_append_dropWhile (p := (· ≠ '\n')) (l := text)).symm
  cases left : text.dropWhile (· ≠ '\n') with
  | nil => exact ⟨_, [], by rwa [left] at whole, _, plain, .inr ⟨rfl, rfl⟩⟩
  | cons c left' =>
    have broken : c = '\n' := by simpa using Text.head_dropWhile left
    refine ⟨text.takeWhile (· ≠ '\n') ++ ['\n'], left', ?_, _, plain, .inl rfl⟩
    rw [left, broken] at whole
    rw [List.append_assoc, List.singleton_append]
    exact whole

theorem lineExtent_of_isLine {line behind : List Char} (h : IsLine line behind) :
    lineExtent (line ++ behind) = line.length := by
  obtain ⟨inner, plain, shape⟩ := h
  have all : inner.all (· ≠ '\n') = true := List.all_eq_true.2 (Text.ne_newline_of_not_mem plain)
  unfold lineExtent
  rcases shape with rfl | ⟨rfl, rfl⟩
  · have run : Text.run (· ≠ '\n') (inner ++ '\n' :: behind) = inner.length := Text.run_append_of_all all rfl
    rw [List.append_assoc, List.singleton_append, run, if_pos (by simp), List.length_append, List.length_singleton]
  · have run : Text.run (· ≠ '\n') (line ++ []) = line.length := Text.run_append_of_all all rfl
    rw [run]
    simp

/-- The rest of a line goes up to its break, and takes it along. -/
theorem exists_lineExtent (rest : List Char) :
    ∃ line left, rest = line ++ left ∧ line.length = lineExtent rest ∧ IsLine line left := by
  obtain ⟨line, left, rfl, shape⟩ := exists_isLine rest
  exact ⟨line, left, rfl, (lineExtent_of_isLine shape).symm, shape⟩

theorem lineExtent_cons {c : Char} (hc : c ≠ '\n') (rest : List Char) :
    lineExtent (c :: rest) = lineExtent rest + 1 := by
  unfold lineExtent
  rw [Text.run_cons, if_pos (decide_eq_true hc), List.length_cons]
  by_cases broken : Text.run (· ≠ '\n') rest < rest.length
  · rw [if_pos broken, if_pos (Nat.succ_lt_succ broken)]
  · rw [if_neg broken, if_neg fun h => broken (Nat.lt_of_succ_lt_succ h)]

/-! ## Lines of code -/

/-- The first sign on a line is a `%` that begins neither a block nor a doubled sign. -/
def IsCodeLine (line : List Char) : Prop :=
  ∃ indent c rest, line = indent ++ '%' :: c :: rest ∧ indent.all isSpaceOrTab = true ∧ c ≠ '\x7b' ∧ c ≠ '%'

theorem beginsCodeLine_cons (c : Char) (rest : List Char) :
    beginsCodeLine (c :: rest) = if isSpaceOrTab c then beginsCodeLine rest
      else c = '%' && rest.head?.any fun d => d ≠ '\x7b' && d ≠ '%' := by
  by_cases blank : isSpaceOrTab c = true
  · rw [if_pos blank, beginsCodeLine, beginsCodeLine, List.dropWhile_cons_of_pos blank]
  · rw [if_neg blank, beginsCodeLine, List.dropWhile_cons_of_neg blank]
    by_cases sign : c = '%'
    · subst sign
      cases rest with
      | nil => rfl
      | cons d rest => simp
    · simp [sign]

theorem beginsCodeLine_iff {line : List Char} : beginsCodeLine line = true ↔ IsCodeLine line := by
  constructor
  · intro h
    unfold beginsCodeLine at h
    split at h
    · next c rest hdrop =>
      refine ⟨line.takeWhile isSpaceOrTab, c, rest, ?_, List.all_takeWhile, ?_⟩
      · rw [← hdrop, List.takeWhile_append_dropWhile]
      · simpa using h
    · cases h
  · rintro ⟨indent, c, rest, rfl, blanks, block, sign⟩
    have drop : (indent ++ '%' :: c :: rest).dropWhile isSpaceOrTab = '%' :: c :: rest := by
      rw [List.dropWhile_append_of_pos (List.all_eq_true.1 blanks), List.dropWhile_cons_of_neg (by decide)]
    unfold beginsCodeLine
    rw [drop]
    simp [block, sign]

/-- A line of code begins with a blank or with its sign. -/
theorem front_of_beginsCodeLine {c : Char} {rest : List Char} (h : beginsCodeLine (c :: rest) = true) :
    isSpaceOrTab c = true ∨ c = '%' ∧ ∃ d, rest.head? = some d ∧ d ≠ '\x7b' ∧ d ≠ '%' := by
  rw [beginsCodeLine_cons] at h
  split at h
  · next blank => exact .inl blank
  · obtain ⟨sign, ahead⟩ := Bool.and_eq_true_iff.1 h
    obtain ⟨d, hd, other⟩ := (Option.any_eq_true _ _).1 ahead
    exact .inr ⟨of_decide_eq_true sign, d, hd, by simpa using other⟩

theorem newline_not_mem {indent line : List Char} (hindent : indent.all isSpaceOrTab = true) (hline : '\n' ∉ line) :
    '\n' ∉ indent ++ '%' :: line := by
  intro hmem
  rcases List.mem_append.1 hmem with hmem | hmem
  · exact absurd (List.all_eq_true.1 hindent _ hmem) (by decide)
  · rcases List.mem_cons.1 hmem with same | hmem
    · cases same
    · exact hline hmem

end SwiftTemplate.Template.Segment
