import SwiftTemplate.Proofs.Swift.Standalone

/-!
# Directives alone on their lines

A directive can be cut out of a program if no comment reaches over the seams that this makes. A
directive with nothing but spaces and tabs beside it on its line always can.
-/
namespace SwiftTemplate.Swift

open Text (Passes isSpaceOrTab walk)

namespace Trivia

/-- What stands behind the last line break of some trivia. -/
def lastLine (trivia : List Char) : List Char := (trivia.reverse.takeWhile (· ≠ '\n')).reverse

theorem lastLine_of_not_mem {trivia : List Char} (h : '\n' ∉ trivia) : lastLine trivia = trivia := by
  have plain := Text.ne_newline_of_not_mem (s := trivia.reverse) (by simpa using h)
  rw [lastLine, List.takeWhile_eq_self_iff.2 plain, List.reverse_reverse]

theorem lastLine_append_newline (before : List Char) {indent : List Char} (h : '\n' ∉ indent) :
    lastLine (before ++ '\n' :: indent) = indent := by
  have reversed : (before ++ '\n' :: indent).reverse = indent.reverse ++ '\n' :: before.reverse := by simp
  have plain := Text.ne_newline_of_not_mem (s := indent.reverse) (by simpa using h)
  rw [lastLine, reversed, List.takeWhile_append_of_pos plain]
  simp

/-! ## Spaces and tabs -/

theorem passes_trailingStep_of_isSpaceOrTab {trivia : List Char} (h : trivia.all isSpaceOrTab = true) (u : List Char) :
    Passes trailingStep u () trivia () := by
  induction trivia with
  | nil => exact .stay ()
  | cons c trivia ih =>
    rw [List.all_cons, Bool.and_eq_true] at h
    exact .take (by rw [trailingStep, if_pos h.1]) (Nat.zero_le _) (ih h.2)

theorem leavesOpen_of_isSpaceOrTab {trivia : List Char} (h : trivia.all isSpaceOrTab = true) : LeavesOpen trivia := by
  rw [LeavesOpen, trailing, (passes_trailingStep_of_isSpaceOrTab h _).walk_eq]
  rw [Text.walk_halt rfl]
  rfl

theorem whole_of_passes {u trivia : List Char} (passed : Passes leadingStep ('\n' :: u) false trivia false) :
    Whole trivia := by
  have own := passes_leadingStep_congr (u := '\n' :: u) (v := ['\n']) ⟨id, id, id⟩ (by simp) passed
  rw [Whole, leading, own.walk_eq, Text.walk_take (show leadingStep false '\n' [] = some (0, false) from rfl)]
  simp

theorem whole_of_isSpaceOrTab {trivia : List Char} (h : trivia.all isSpaceOrTab = true) : Whole trivia :=
  whole_of_passes (u := []) (passes_leadingStep_of_trailingStep (passes_trailingStep_of_isSpaceOrTab h _) false)

/-! ## Line breaks behind which nothing but spaces and tabs follow -/

/-- A comment does not end with a space or a tab on its last line. -/
theorem inside_of_isSpaceOrTab {u w indent : List Char} {left_open after : Bool} {c : Char} {k : Nat} (hu : u ≠ [])
    (taken : leadingStep left_open c (w ++ '\n' :: indent ++ u) = some (k, after))
    (inside : k ≤ (w ++ '\n' :: indent).length)
    (hindent : indent.all isSpaceOrTab = true) : k ≤ w.length := by
  refine Nat.le_of_not_lt fun hlt => ?_
  have reach : ((w ++ '\n' :: indent ++ u).take k) = w ++ '\n' :: indent.take (k - w.length - 1) := by
    rw [List.take_append_of_le_length inside, List.take_append, List.take_of_length_le (Nat.le_of_lt hlt),
      show k - w.length = (k - w.length - 1) + 1 by omega, List.take_succ_cons]
    rfl
  rcases leadingStep_cases taken with ⟨-, rfl, -⟩ | ⟨-, rfl, -⟩ | ⟨-, -, rfl, -⟩
  · exact absurd hlt (Nat.not_lt_zero _)
  · have := Text.run_append_cons_le (p := fun d => !Comment.isBreak d) (c := '\n') (by decide) w (indent ++ u)
    rw [← List.cons_append, ← List.append_assoc] at this
    exact absurd hlt (Nat.not_lt.2 this)
  · cases hclosed : (Comment.block (w ++ '\n' :: indent ++ u)).closed with
    | false =>
      have whole := Comment.extent_of_not_closed (List.append_ne_nil_of_right_ne_nil _ hu) hclosed
      have := List.length_pos_iff.2 hu
      rw [whole, List.length_append] at inside
      omega
    | true =>
      have last := Comment.getLast?_take_extent hclosed
      rw [reach, List.getLast?_append_cons] at last
      have blank := List.mem_of_getLast? last
      rcases List.mem_cons.1 blank with heq | hmem
      · cases heq
      · exact absurd (List.all_eq_true.1 hindent _ (List.mem_of_mem_take hmem)) (by decide)

/-- Trivia up to a line break behind which only spaces and tabs follow is trivia on its own. -/
theorem passes_before_newline {u w indent : List Char} {left_open after : Bool} (hu : u ≠ [])
    (hindent : indent.all isSpaceOrTab = true) (passed : Passes leadingStep u left_open (w ++ '\n' :: indent) after) :
    Passes leadingStep ('\n' :: (indent ++ u)) left_open w after := by
  have whole := eq_of_passes_leading passed hu
  subst whole
  induction hlen : w.length using Nat.strongRecOn generalizing w with
  | ind n ih =>
  subst hlen
  cases w with
  | nil => exact .stay _
  | cons c w =>
    rw [List.cons_append] at passed
    cases passed with
    | @take _ inner _ _ _ k taken inside further =>
      have reach := inside_of_isSpaceOrTab hu taken inside hindent
      obtain rfl := eq_of_passes_leading further hu
      rw [List.drop_append_of_le_length reach] at further
      refine .take ?_ reach (ih (w.drop k).length (by simp only [List.length_drop, List.length_cons]; omega) further rfl)
      rw [← taken]
      simp

/-- Trivia with only spaces and tabs on its last line can be cut there. -/
theorem whole_cutAtLastNewline {u trivia : List Char} (hu : u ≠ []) (passed : Passes leadingStep u false trivia false)
    (blank : (lastLine trivia).all isSpaceOrTab = true) : Whole (Text.cutAtLastNewline trivia).1 := by
  rcases Text.cutAtLastNewline_cases trivia with ⟨hnone, hcut⟩ | ⟨before, indent, rfl, hindent, hcut⟩
  · rw [lastLine_of_not_mem hnone] at blank
    rw [hcut]
    exact whole_of_isSpaceOrTab blank
  · rw [lastLine_append_newline before hindent] at blank
    rw [hcut]
    exact whole_of_passes (passes_before_newline hu blank passed)

end Trivia

/-! ## Directives and the lines they stand on -/

/-- What stands in front of a token can be cut before its last line, if that holds only spaces and tabs. -/
theorem Token.Lexed.whole_cutAtLastNewline {head : Token} {rest : List Token} (h : Token.Lexed (head :: rest))
    (hkind : head.kind ≠ .endOfText) (blank : (Trivia.lastLine head.leading).all isSpaceOrTab = true) :
    Trivia.Whole (Text.cutAtLastNewline head.leading).1 := by
  obtain ⟨c, w, left_open, -, -, hleading, -⟩ := (Token.next_eq_iff hkind).1 h.next_eq
  obtain ⟨passed, -⟩ := Text.passes_of_walk hleading
  obtain rfl := Trivia.eq_of_passes_leading passed (by simp)
  exact Trivia.whole_cutAtLastNewline (by simp) passed blank

/-- Whether a line break, or nothing but the end of the text, follows the token before. -/
def Token.FollowsBreak (token : Token) : Prop :=
  token.leading.head? = some '\n' ∨ token.kind = .endOfText ∧ token.leading = []

instance (token : Token) : Decidable token.FollowsBreak := inferInstanceAs (Decidable (_ ∨ _))

namespace Directive

/-- Whether no comment reaches over the last line break before the directive at some place. -/
def LeavesWhole (tokens : List Token) (index : Nat) : Prop :=
  ∀ head ∈ tokens[index]?, Trivia.Whole (Text.cutAtLastNewline head.leading).1

/-- Whether no line comment stands behind the directive at some place. -/
def LeavesLineOpen (tokens : List Token) (index : Nat) (form : Directive) : Prop :=
  ∀ close ∈ tokens[index + form.size - 1]?, Trivia.LeavesOpen close.trailing

/-- Whether the line of the directive at some place ends behind it. -/
def EndsLine (tokens : List Token) (index : Nat) (form : Directive) : Prop :=
  ∀ next ∈ tokens[index + form.size]?, next.FollowsBreak

/-- A directive at some place among tokens that can be cut out there and put in elsewhere. -/
structure Detachable (tokens : List Token) (index : Nat) (form : Directive) : Prop where
  whole : LeavesWhole tokens index
  free : LeavesLineOpen tokens index form
  ends : EndsLine tokens index form

/-- A directive at some place among tokens that is alone on its line: it begins the line and ends it,
with nothing but spaces and tabs beside it. -/
structure Alone (tokens : List Token) (index : Nat) (form : Directive) : Prop where
  begins : ∀ head ∈ tokens[index]?, index = 0 ∨ head.startsLine = true
  before : ∀ head ∈ tokens[index]?, (Trivia.lastLine head.leading).all isSpaceOrTab = true
  behind : ∀ close ∈ tokens[index + form.size - 1]?, close.trailing.all isSpaceOrTab = true
  ends : EndsLine tokens index form

section
variable (tokens : List Token) (index : Nat) (form : Directive)

instance : Decidable (LeavesWhole tokens index) := inferInstanceAs (Decidable (∀ head ∈ _, _))

instance : Decidable (LeavesLineOpen tokens index form) := inferInstanceAs (Decidable (∀ close ∈ _, _))

instance : Decidable (EndsLine tokens index form) := inferInstanceAs (Decidable (∀ next ∈ _, _))

instance : Decidable (Detachable tokens index form) :=
  decidable_of_iff (_ ∧ _ ∧ _) ⟨fun ⟨whole, free, ends⟩ => ⟨whole, free, ends⟩, fun h => ⟨h.whole, h.free, h.ends⟩⟩

instance : Decidable (Alone tokens index form) :=
  decidable_of_iff (_ ∧ _ ∧ _ ∧ _) ⟨fun ⟨begins, before, behind, ends⟩ => ⟨begins, before, behind, ends⟩,
    fun h => ⟨h.begins, h.before, h.behind, h.ends⟩⟩

end

/-- A directive alone on its line can be cut out. -/
theorem Alone.detachable {tokens : List Token} {index : Nat} {form : Directive} (h : Alone tokens index form)
    (lexed : Token.Lexed tokens) (hform : first? (tokens.drop index) = some form) : Detachable tokens index form := by
  refine ⟨fun head hhead => ?_, fun close hclose => Trivia.leavesOpen_of_isSpaceOrTab (h.behind close hclose), h.ends⟩
  obtain ⟨hlt, rfl⟩ := List.getElem?_eq_some_iff.1 hhead
  have own : Token.Lexed (tokens[index] :: tokens.drop (index + 1)) := by
    rw [← List.drop_eq_getElem_cons hlt]
    refine @Token.Lexed.of_append (tokens.take index) _ (by rwa [List.take_append_drop]) ?_
    simpa using hlt
  have hkind : tokens[index].kind ≠ .endOfText := by
    obtain ⟨head, rest, hcons, hbegins⟩ := begins_of_first? hform
    rw [List.drop_eq_getElem_cons hlt] at hcons
    rw [(List.cons.inj hcons).1, Directive.kind_of_begins hbegins]
    decide
  exact own.whole_cutAtLastNewline hkind (h.before _ hhead)

end Directive

end SwiftTemplate.Swift
