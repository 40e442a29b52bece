import SwiftTemplate.Text.Basic

/-!
# Cuts

A text cut at the first or the last occurrence of a character, at all of them, or at the first
occurrence of another text: what is found is told by what stands where.
-/
namespace SwiftTemplate.Text

/-! ## One character -/

theorem cutAt?_eq_some_iff {c : Char} {s before after : List Char} :
    cutAt? c s = some (before, after) ↔ s = before ++ c :: after ∧ c ∉ before := by
  induction s generalizing before with
  | nil => simp [cutAt?]
  | cons d s ih =>
    rw [cutAt?]
    by_cases hd : d = c
    · subst hd
      rw [if_pos rfl]
      constructor
      · intro h
        obtain ⟨rfl, rfl⟩ := Prod.mk.inj (Option.some.inj h)
        simp
      · rintro ⟨hs, absent⟩
        cases before with
        | nil =>
          obtain ⟨-, rfl⟩ := List.cons.inj hs
          rfl
        | cons e before =>
          obtain ⟨rfl, -⟩ := List.cons.inj hs
          exact absurd List.mem_cons_self absent
    · rw [if_neg hd]
      constructor
      · intro h
        obtain ⟨⟨front, back⟩, hcut, heq⟩ := Option.map_eq_some_iff.1 h
        obtain ⟨rfl, rfl⟩ := Prod.mk.inj heq
        obtain ⟨rfl, absent⟩ := ih.1 hcut
        exact ⟨rfl, by simp [absent, Ne.symm hd]⟩
      · rintro ⟨hs, absent⟩
        cases before with
        | nil =>
          obtain ⟨rfl, -⟩ := List.cons.inj hs
          exact absurd rfl hd
        | cons e before =>
          obtain ⟨rfl, rfl⟩ := List.cons.inj hs
          rw [ih.2 ⟨rfl, fun hmem => absent (List.mem_cons_of_mem _ hmem)⟩]
          rfl

theorem cutAtLast?_eq_some_iff {c : Char} {s before after : List Char} :
    cutAtLast? c s = some (before, after) ↔ s = before ++ c :: after ∧ c ∉ after := by
  constructor
  · intro h
    obtain ⟨⟨back, front⟩, hcut, heq⟩ := Option.map_eq_some_iff.1 h
    obtain ⟨rfl, rfl⟩ := Prod.mk.inj heq
    obtain ⟨hs, absent⟩ := cutAt?_eq_some_iff.1 hcut
    exact ⟨by simpa using congrArg List.reverse hs, by simpa using absent⟩
  · rintro ⟨rfl, absent⟩
    have cut : cutAt? c (before ++ c :: after).reverse = some (after.reverse, before.reverse) :=
      cutAt?_eq_some_iff.2 ⟨by simp, by simpa using absent⟩
    rw [cutAtLast?, cut]
    simp

/-! ## Stretches -/

/-- A text stands in another one between two occurrences of `c`, or between one of them and an end, and
holds none itself. -/
def IsStretch (c : Char) (inner s : List Char) : Prop :=
  ∃ before behind, s = before ++ inner ++ behind ∧ c ∉ inner ∧
    (before = [] ∨ before.getLast? = some c) ∧ (behind = [] ∨ behind.head? = some c)

theorem splitOn_of_not_mem {c : Char} {s : List Char} (h : c ∉ s) : splitOn c s = [s] := by
  induction s with
  | nil => rfl
  | cons d s ih =>
    have other : d ≠ c := fun same => h (by simp [same])
    rw [splitOn, if_neg other, ih fun hmem => h (List.mem_cons_of_mem _ hmem)]

theorem splitOn_append_cons (c : Char) (front back : List Char) :
    splitOn c (front ++ c :: back) = splitOn c front ++ splitOn c back := by
  induction front with
  | nil => simp [splitOn]
  | cons d front ih =>
    rw [List.cons_append, splitOn, splitOn]
    by_cases hd : d = c
    · rw [if_pos hd, if_pos hd, ih]
      rfl
    · rw [if_neg hd, if_neg hd, ih]
      cases hfront : splitOn c front with
      | cons first others => rfl
      | nil =>
        -- There is always a first stretch.
        cases front with
        | nil => cases hfront
        | cons e front =>
          rw [splitOn] at hfront
          split at hfront
          · cases hfront
          · split at hfront <;> cases hfront

/-- The parts of a text that is split are its stretches. -/
theorem mem_splitOn_iff {c : Char} {inner s : List Char} : inner ∈ splitOn c s ↔ IsStretch c inner s := by
  constructor
  · intro h
    induction hlen : s.length using Nat.strongRecOn generalizing s with
    | ind n ih =>
    subst hlen
    by_cases hc : c ∈ s
    · obtain ⟨front, back, rfl, absent⟩ := List.eq_append_cons_of_mem hc
      rw [splitOn_append_cons, splitOn_of_not_mem absent, List.singleton_append] at h
      rcases List.mem_cons.1 h with rfl | later
      · exact ⟨[], c :: back, rfl, absent, .inl rfl, .inr rfl⟩
      · obtain ⟨before, behind, rfl, plain, starts, stops⟩ := ih back.length (by simp; omega) later rfl
        refine ⟨front ++ c :: before, behind, by simp, plain, .inr ?_, stops⟩
        rcases starts with rfl | starts
        · simp
        · simp [List.getLast?_append, List.getLast?_cons, starts]
    · rw [splitOn_of_not_mem hc, List.mem_singleton] at h
      subst h
      exact ⟨[], [], by simp, hc, .inl rfl, .inl rfl⟩
  · rintro ⟨before, behind, rfl, plain, starts, stops⟩
    have own : inner ∈ splitOn c (inner ++ behind) := by
      rcases stops with rfl | stops
      · rw [List.append_nil, splitOn_of_not_mem plain]
        exact List.mem_singleton_self inner
      · obtain ⟨behind, rfl⟩ := List.head?_eq_some_iff.1 stops
        rw [splitOn_append_cons, splitOn_of_not_mem plain]
        exact List.mem_cons_self
    rw [List.append_assoc]
    rcases starts with rfl | starts
    · exact own
    · obtain ⟨before, rfl⟩ := List.getLast?_eq_some_iff.1 starts
      rw [List.append_assoc, List.singleton_append, splitOn_append_cons]
      exact List.mem_append_right _ own

/-! ## Another text -/

/-- What stands before a pattern is what stands before its first occurrence. -/
theorem before?_eq_some_iff {pattern s before : List Char} :
    before? pattern s = some before ↔ (∃ after, s = before ++ pattern ++ after) ∧
      ∀ front back, s = front ++ pattern ++ back → before.length ≤ front.length := by
  induction s generalizing before with
  | nil =>
    rw [before?]
    cases pattern <;> simp
  | cons c s ih =>
    rw [before?]
    by_cases here : pattern <+: c :: s
    · rw [if_pos (List.isPrefixOf_iff_prefix.2 here)]
      obtain ⟨behind, hbehind⟩ := here
      constructor
      · intro h
        obtain rfl := Option.some.inj h
        exact ⟨⟨behind, hbehind.symm⟩, fun _ _ _ => Nat.zero_le _⟩
      · rintro ⟨-, first⟩
        have := first [] behind hbehind.symm
        rw [List.length_eq_zero_iff.1 (Nat.le_zero.1 this)]
    · rw [if_neg fun h => here (List.isPrefixOf_iff_prefix.1 h)]
      constructor
      · intro h
        obtain ⟨upTo, hupTo, rfl⟩ := Option.map_eq_some_iff.1 h
        obtain ⟨⟨after, rfl⟩, first⟩ := ih.1 hupTo
        refine ⟨⟨after, rfl⟩, ?_⟩
        intro front back hs
        cases front with
        | nil => exact absurd ⟨back, hs.symm⟩ here
        | cons d front => exact Nat.succ_le_succ (first front back (List.cons.inj hs).2)
      · rintro ⟨⟨after, hs⟩, first⟩
        cases before with
        | nil => exact absurd ⟨after, hs.symm⟩ here
        | cons d upTo =>
          obtain ⟨rfl, rfl⟩ := List.cons.inj hs
          rw [ih.2 ⟨⟨after, rfl⟩, fun front back hs' => ?_⟩]
          · rfl
          · exact Nat.le_of_succ_le_succ (first (c :: front) back (by rw [hs']; rfl))

end SwiftTemplate.Text
