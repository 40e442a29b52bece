import Mathlib.Data.List.TakeWhile
import SwiftTemplate.Text.Decimal
import SwiftTemplate.Text.LineIndex

/-!
# Lines

Where texts are cut at line breaks, which of their bytes are line breaks, and the lines on which positions
lie.
-/
namespace SwiftTemplate.Text

/-! ## Cuts -/

theorem cutAtLastNewline_of_not_mem {s : List Char} (h : '\n' ∉ s) : cutAtLastNewline s = (s, []) := by
  have plain := ne_newline_of_not_mem (s := s.reverse) (by simpa using h)
  unfold cutAtLastNewline
  rw [List.dropWhile_eq_nil_iff.2 plain]

theorem cutAtLastNewline_append_newline (before : List Char) {indent : List Char} (h : '\n' ∉ indent) :
    cutAtLastNewline (before ++ '\n' :: indent) = (before, '\n' :: indent) := by
  have plain := ne_newline_of_not_mem (s := indent.reverse) (by simpa using h)
  have reversed : (before ++ '\n' :: indent).reverse = indent.reverse ++ '\n' :: before.reverse := by simp
  unfold cutAtLastNewline
  rw [reversed, List.dropWhile_append_of_pos plain, List.takeWhile_append_of_pos plain]
  simp

/-- What stands behind a cut at the last line break is nothing, or the break and what is on the last line. -/
theorem cutAtLastNewline_cases (s : List Char) :
    ('\n' ∉ s ∧ cutAtLastNewline s = (s, [])) ∨
      ∃ before indent, s = before ++ '\n' :: indent ∧ '\n' ∉ indent ∧ cutAtLastNewline s = (before, '\n' :: indent) := by
  induction s with
  | nil => exact .inl ⟨by simp, rfl⟩
  | cons c s ih =>
    rcases ih with ⟨hs, -⟩ | ⟨before, indent, rfl, hindent, -⟩
    · by_cases hc : c = '\n'
      · subst hc
        exact .inr ⟨[], s, rfl, hs, cutAtLastNewline_append_newline [] hs⟩
      · have : '\n' ∉ c :: s := by simp [hs, Ne.symm hc]
        exact .inl ⟨this, cutAtLastNewline_of_not_mem this⟩
    · exact .inr ⟨c :: before, indent, rfl, hindent, cutAtLastNewline_append_newline (c :: before) hindent⟩

theorem cutAtFirstNewline_of_not_mem {s : List Char} (h : '\n' ∉ s) : cutAtFirstNewline s = (s, []) := by
  have plain := ne_newline_of_not_mem h
  rw [cutAtFirstNewline, List.takeWhile_eq_self_iff.2 plain, List.dropWhile_eq_nil_iff.2 plain]

/-! ## Bytes -/

/-- The UTF-8 form of a text. -/
def bytes (s : List Char) : List UInt8 := s.flatMap String.utf8EncodeChar

@[simp] theorem bytes_cons (c : Char) (s : List Char) : bytes (c :: s) = String.utf8EncodeChar c ++ bytes s := rfl

@[simp] theorem bytes_append (s t : List Char) : bytes (s ++ t) = bytes s ++ bytes t := List.flatMap_append

theorem length_bytes (s : List Char) : (bytes s).length = byteSize s := by
  induction s with
  | nil => rfl
  | cons c s ih => rw [bytes_cons, List.length_append, String.length_utf8EncodeChar, ih, byteSize_cons]

/-- The byte of a line break stands for nothing but a line break. -/
theorem newline_not_mem_utf8EncodeChar {c : Char} (h : c ≠ '\n') : '\n'.toUInt8 ∉ String.utf8EncodeChar c := by
  have own : c.val.toNat ≠ 10 := by
    intro value
    apply h
    apply Char.ext
    apply UInt32.toNat_inj.1
    exact value
  have other {n : Nat} (different : n ≠ 10) (small : n < 256) : '\n'.toUInt8 ≠ UInt8.ofNat n := by
    intro same
    have value := congrArg UInt8.toNat same
    rw [UInt8.toNat_ofNat_of_lt' small] at value
    exact different value.symm
  have continuation (n : Nat) : '\n'.toUInt8 ≠ UInt8.ofNat (n % 64 + 128) := other (by omega) (by omega)
  unfold String.utf8EncodeChar
  dsimp only
  split
  · simp only [List.mem_cons, List.not_mem_nil, or_false]
    exact other own (by omega)
  split
  · simp only [List.mem_cons, List.not_mem_nil, or_false, not_or]
    exact ⟨other (by omega) (by omega), continuation _⟩
  split
  · simp only [List.mem_cons, List.not_mem_nil, or_false, not_or]
    exact ⟨other (by omega) (by omega), continuation _, continuation _⟩
  · simp only [List.mem_cons, List.not_mem_nil, or_false, not_or]
    exact ⟨other (by omega) (by omega), continuation _, continuation _, continuation _⟩

theorem count_utf8EncodeChar {c : Char} (h : c ≠ '\n') : (String.utf8EncodeChar c).count '\n'.toUInt8 = 0 :=
  List.count_eq_zero.2 (newline_not_mem_utf8EncodeChar h)

theorem count_bytes (s : List Char) : (bytes s).count '\n'.toUInt8 = newlines s := by
  induction s with
  | nil => rfl
  | cons c s ih =>
    rw [bytes_cons, List.count_append, ih, newlines, newlines]
    by_cases hc : c = '\n'
    · subst hc
      rw [List.count_cons_self, Nat.add_comm]
      rfl
    · rw [count_utf8EncodeChar hc, List.count_cons_of_ne hc, Nat.zero_add]

/-! ## Line numbers -/

/-- A number is written on one line. -/
theorem newlines_write (n : Nat) : newlines (Decimal.write n) = 0 := by
  refine List.count_eq_zero.2 fun hmem => ?_
  have digits := List.all_eq_true.1 (Decimal.all_isDigit_write n) _ hmem
  exact absurd digits (by decide)

/-- A number is written without gaps. -/
theorem filter_write (n : Nat) : (Decimal.write n).filter (· ≠ '_') = Decimal.write n := by
  refine List.filter_eq_self.2 fun c hc => ?_
  have digit := List.all_eq_true.1 (Decimal.all_isDigit_write n) c hc
  have other : c ≠ '_' := by
    rintro rfl
    exact absurd digit (by decide)
  simpa using other

theorem le_of_mem_newlinePositions {start position : Nat} {s : List Char} (h : position ∈ newlinePositions start s) :
    start ≤ position := by
  induction s generalizing start with
  | nil => cases h
  | cons c s ih =>
    rw [newlinePositions] at h
    split at h
    · rcases List.mem_cons.1 h with rfl | h
      · exact Nat.le_refl _
      · exact Nat.le_of_add_right_le (ih h)
    · exact Nat.le_of_add_right_le (ih h)

theorem pairwise_newlinePositions (start : Nat) (s : List Char) : (newlinePositions start s).Pairwise (· ≤ ·) := by
  induction s generalizing start with
  | nil => exact .nil
  | cons c s ih =>
    rw [newlinePositions]
    split
    · apply List.Pairwise.cons
      · intro position hmem
        exact Nat.le_of_add_right_le (le_of_mem_newlinePositions hmem)
      · exact ih _
    · exact ih _

theorem countP_newlinePositions_of_le {bound start : Nat} (h : bound ≤ start) (s : List Char) :
    (newlinePositions start s).countP (· < bound) = 0 := by
  apply List.countP_eq_zero.2
  intro position hmem
  have := le_of_mem_newlinePositions hmem
  simp only [decide_eq_true_eq]
  omega

/-- The line breaks that begin before a byte are those among the bytes before it. -/
theorem countP_newlinePositions (start n : Nat) (s : List Char) :
    (newlinePositions start s).countP (· < start + n) = ((bytes s).take n).count '\n'.toUInt8 := by
  induction s generalizing start n with
  | nil => simp [newlinePositions, bytes]
  | cons c s ih =>
    by_cases hc : c = '\n'
    · subst hc
      cases n with
      | zero => exact countP_newlinePositions_of_le (Nat.le_refl _) _
      | succ n =>
        have further := ih (start + 1) n
        have bound : start + 1 + n = start + (n + 1) := by omega
        rw [bound] at further
        rw [bytes_cons, show String.utf8EncodeChar '\n' = ['\n'.toUInt8] from rfl, List.singleton_append,
          List.take_succ_cons, List.count_cons_self, ← further, newlinePositions, if_pos rfl,
          List.countP_cons_of_pos (by simp)]
        rfl
    · have none : ((String.utf8EncodeChar c).take n).count '\n'.toUInt8 = 0 := by
        apply List.count_eq_zero.2
        intro hmem
        exact newline_not_mem_utf8EncodeChar hc (List.mem_of_mem_take hmem)
      rw [bytes_cons, newlinePositions, if_neg hc, List.take_append, List.count_append, none, Nat.zero_add,
        String.length_utf8EncodeChar]
      by_cases whole : c.utf8Size ≤ n
      · have further := ih (start + c.utf8Size) (n - c.utf8Size)
        have bound : start + c.utf8Size + (n - c.utf8Size) = start + n := by omega
        rwa [bound] at further
      · -- The byte is inside the first character, in front of all that follows.
        have inside : n - c.utf8Size = 0 := by omega
        rw [inside, countP_newlinePositions_of_le (by omega)]
        rfl

/-- Halving finds the place where a list reaches a bound. -/
theorem lowerBound_eq {below above : List Nat} {bound low high : Nat} (hbelow : ∀ n ∈ below, n < bound)
    (habove : ∀ n ∈ above, bound ≤ n) (hlow : low ≤ below.length) (hhigh : below.length ≤ high)
    (hsize : high ≤ (below ++ above).length) :
    lowerBound (below ++ above).toArray bound low high = below.length := by
  fun_induction lowerBound (below ++ above).toArray bound low high with
  | case1 low high hlt middle hmiddle ih =>
    refine ih ?_ hhigh hsize
    refine Nat.lt_of_not_le fun hle => ?_
    have hin : middle - below.length < above.length := by
      rw [List.length_append] at hsize
      omega
    have hget : (below ++ above).toArray.getD middle 0 = above[middle - below.length] := by
      rw [Array.getD_eq_getD_getElem?, List.getElem?_toArray, List.getElem?_append_right hle,
        List.getElem?_eq_getElem hin]
      rfl
    have := habove _ (List.getElem_mem hin)
    omega
  | case2 low high hlt middle hmiddle ih =>
    refine ih hlow ?_ (by omega)
    refine Nat.le_of_not_lt fun hlt' => hmiddle ?_
    have hget : (below ++ above).toArray.getD middle 0 = below[middle] := by
      rw [Array.getD_eq_getD_getElem?, List.getElem?_toArray, List.getElem?_append_left hlt',
        List.getElem?_eq_getElem hlt']
      rfl
    rw [hget]
    exact hbelow _ (List.getElem_mem hlt')
  | case3 low high hle => omega

/-- In a sorted list nothing is below a bound from the first element on that reaches it. -/
theorem le_of_mem_dropWhile {sorted : List Nat} (h : sorted.Pairwise (· ≤ ·)) {bound n : Nat}
    (hmem : n ∈ sorted.dropWhile (· < bound)) : bound ≤ n := by
  cases hdrop : sorted.dropWhile (· < bound) with
  | nil =>
    rw [hdrop] at hmem
    cases hmem
  | cons first others =>
    have reached : bound ≤ first := by simpa using head_dropWhile hdrop
    have ascending : (first :: others).Pairwise (· ≤ ·) := by
      rw [← hdrop]
      exact h.sublist (List.dropWhile_sublist _)
    rw [hdrop] at hmem
    rcases List.mem_cons.1 hmem with rfl | hmem
    · exact reached
    · exact Nat.le_trans reached (List.rel_of_pairwise_cons ascending hmem)

/-- In a sorted list halving finds how many elements are below a bound. -/
theorem lowerBound_eq_countP {sorted : List Nat} (h : sorted.Pairwise (· ≤ ·)) (bound : Nat) :
    lowerBound sorted.toArray bound 0 sorted.length = sorted.countP (· < bound) := by
  have split := List.takeWhile_append_dropWhile (p := (· < bound)) (l := sorted)
  have below : ∀ n ∈ sorted.takeWhile (· < bound), n < bound := by
    intro n hmem
    simpa using List.mem_takeWhile_imp hmem
  have above : ∀ n ∈ sorted.dropWhile (· < bound), bound ≤ n := fun n hmem => le_of_mem_dropWhile h hmem
  generalize sorted.takeWhile (· < bound) = front at split below
  generalize sorted.dropWhile (· < bound) = behind at split above
  subst split
  have all : front.countP (· < bound) = front.length := by
    apply List.countP_eq_length.2
    simpa using below
  have none : behind.countP (· < bound) = 0 := by
    apply List.countP_eq_zero.2
    simpa using above
  rw [lowerBound_eq below above (Nat.zero_le _) (by simp) (Nat.le_refl _), List.countP_append, all, none, Nat.add_zero]

/-- The line of a position is one more than the line breaks among the bytes before it. -/
theorem lineOf_ofText (text : List Char) (position : Nat) :
    (LineIndex.ofText text).lineOf position = 1 + ((bytes text).take position).count '\n'.toUInt8 := by
  have count := countP_newlinePositions 0 position text
  rw [Nat.zero_add] at count
  rw [LineIndex.lineOf, LineIndex.ofText, List.size_toArray, lowerBound_eq_countP (pairwise_newlinePositions 0 text), count]

/-- The line of the position behind some text is one more than the line breaks in it. -/
theorem lineOf_byteSize (before behind : List Char) :
    (LineIndex.ofText (before ++ behind)).lineOf (byteSize before) = 1 + newlines before := by
  rw [lineOf_ofText, bytes_append, List.take_left' (length_bytes before), count_bytes]

end SwiftTemplate.Text
