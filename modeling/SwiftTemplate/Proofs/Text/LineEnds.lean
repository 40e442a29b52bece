import SwiftTemplate.Proofs.Text.Continuation

/-!
# Line ends

A text whose lines end with two characters, and what scans find in it. Most scans stop at either of
the two, and then they find what they find where lines end with one.
-/
namespace SwiftTemplate.Text

/-- A text with `\r` in front of every line break. -/
def crlf (s : List Char) : List Char := s.flatMap fun c => if c = '\n' then ['\r', '\n'] else [c]

@[simp] theorem crlf_nil : crlf [] = [] := rfl

@[simp] theorem crlf_newline_cons (s : List Char) : crlf ('\n' :: s) = '\r' :: '\n' :: crlf s := rfl

@[simp] theorem crlf_append (s t : List Char) : crlf (s ++ t) = crlf s ++ crlf t := List.flatMap_append

section

variable {c : Char} {s : List Char}

theorem crlf_cons (h : c ≠ '\n') (s : List Char) : crlf (c :: s) = c :: crlf s := by
  simp [crlf, h]

theorem crlf_of_not_mem (h : '\n' ∉ s) : crlf s = s := by
  induction s with
  | nil => rfl
  | cons c s ih =>
    rw [List.mem_cons, not_or] at h
    rw [crlf_cons (Ne.symm h.1), ih h.2]

theorem newlines_crlf (s : List Char) : newlines (crlf s) = newlines s := by
  induction s with
  | nil => rfl
  | cons c s ih =>
    by_cases hc : c = '\n'
    · subst hc
      simpa [newlines] using ih
    · rw [crlf_cons hc]
      simpa [newlines, hc] using ih

theorem contains_newline_crlf (s : List Char) : (crlf s).contains '\n' = s.contains '\n' := by
  have same : 0 < newlines (crlf s) ↔ 0 < newlines s := by rw [newlines_crlf]
  rw [newlines, newlines, List.count_pos_iff, List.count_pos_iff] at same
  rw [Bool.eq_iff_iff, List.contains_iff_mem, List.contains_iff_mem]
  exact same

theorem cutAt?_newline_crlf (s : List Char) :
    cutAt? '\n' (crlf s) = (cutAt? '\n' s).map fun (line, rest) => (line ++ ['\r'], crlf rest) := by
  induction s with
  | nil => rfl
  | cons c s ih =>
    by_cases hc : c = '\n'
    · subst hc
      rfl
    · rw [crlf_cons hc, cutAt?, cutAt?, if_neg hc, if_neg hc, ih, Option.map_map, Option.map_map]
      rfl

theorem crlf_eq_nil_iff : crlf s = [] ↔ s = [] := by
  cases s with
  | nil => simp
  | cons c s =>
    by_cases hc : c = '\n'
    · simp [hc]
    · simp [crlf_cons hc]

theorem getLast?_crlf (s : List Char) : (crlf s).getLast? = s.getLast? := by
  rcases List.eq_nil_or_concat s with rfl | ⟨front, c, rfl⟩
  · rfl
  · rw [List.concat_eq_append, crlf_append, List.getLast?_concat]
    by_cases hc : c = '\n'
    · simp [hc]
    · rw [crlf_cons hc]
      simp

/-! ## The front of a text -/

/-- A test that both characters of a line end pass, or none of them, does not tell the texts apart. -/
theorem any_head?_crlf {p : Char → Bool} (h : p '\r' = p '\n') (s : List Char) :
    (crlf s).head?.any p = s.head?.any p := by
  cases s with
  | nil => rfl
  | cons c s =>
    by_cases hc : c = '\n'
    · simp [hc, h]
    · simp [crlf_cons hc]

theorem head?_crlf {d : Char} (h : d ≠ '\r' ∧ d ≠ '\n') (s : List Char) :
    (crlf s).head? = some d ↔ s.head? = some d := by
  have same := @any_head?_crlf (· = d) (by simp [Ne.symm h.1, Ne.symm h.2]) s
  cases hs : s.head? with
  | none =>
    obtain rfl := List.head?_eq_none_iff.1 hs
    simp
  | some e =>
    cases ht : (crlf s).head? with
    | none => simp [List.head?_eq_none_iff.1 ht |> crlf_eq_nil_iff.1] at hs
    | some f => simpa [hs, ht] using same

theorem isPrefixOf_crlf {pattern : List Char} (h : ∀ c ∈ pattern, c ≠ '\r' ∧ c ≠ '\n') (s : List Char) :
    pattern.isPrefixOf (crlf s) = pattern.isPrefixOf s := by
  induction pattern generalizing s with
  | nil => simp
  | cons d pattern ih =>
    obtain ⟨own, others⟩ := List.forall_mem_cons.1 h
    cases s with
    | nil => rfl
    | cons c s =>
      by_cases hc : c = '\n'
      · subst hc
        rw [crlf_newline_cons, List.isPrefixOf_cons_cons, List.isPrefixOf_cons_cons, beq_false_of_ne own.1,
          beq_false_of_ne own.2, Bool.false_and, Bool.false_and]
      · rw [crlf_cons hc, List.isPrefixOf_cons_cons, List.isPrefixOf_cons_cons, ih others]

theorem run_crlf {p : Char → Bool} (hr : p '\r' = false) (hn : p '\n' = false) (s : List Char) :
    run p (crlf s) = run p s := by
  induction s with
  | nil => rfl
  | cons c s ih =>
    by_cases hc : c = '\n'
    · subst hc
      simp [run_cons, hr, hn]
    · rw [crlf_cons hc, run_cons, run_cons, ih]

theorem take_crlf {n : Nat} (h : '\n' ∉ s.take n) : (crlf s).take n = s.take n := by
  induction s generalizing n with
  | nil => rfl
  | cons c s ih =>
    cases n with
    | zero => rfl
    | succ n =>
      rw [List.take_succ_cons, List.mem_cons, not_or] at h
      rw [crlf_cons (Ne.symm h.1), List.take_succ_cons, List.take_succ_cons, ih h.2]

theorem drop_crlf {n : Nat} (h : '\n' ∉ s.take n) : (crlf s).drop n = crlf (s.drop n) := by
  induction s generalizing n with
  | nil => simp
  | cons c s ih =>
    cases n with
    | zero => rfl
    | succ n =>
      rw [List.take_succ_cons, List.mem_cons, not_or] at h
      rw [crlf_cons (Ne.symm h.1), List.drop_succ_cons, List.drop_succ_cons, ih h.2]

theorem drop_run_crlf {p : Char → Bool} (hn : p '\n' = false) (s : List Char) :
    (crlf s).drop (run p s) = crlf (s.drop (run p s)) :=
  drop_crlf (newline_not_mem_take_run hn s)

end

/-! ## Machines -/

section Machines

variable {σ : Type} {step : σ → Char → List Char → Option (Nat × σ)}

/-- A single step is a passage. -/
theorem passes_step {s t : σ} {c : Char} {w u : List Char} (h : step s c (w ++ u) = some (w.length, t)) :
    Passes step u s (c :: w) t := by
  refine .take h (Nat.le_refl _) ?_
  rw [List.drop_length]
  exact .stay t

/-- A step over part of a line is the same where lines end with two characters. -/
theorem passes_step_crlf {s t : σ} {c : Char} {w u : List Char} (hw : '\n' ∉ w)
    (h : step s c (crlf (w ++ u)) = some (w.length, t)) : Passes step (crlf u) s (c :: crlf w) t := by
  rw [crlf_of_not_mem hw]
  refine passes_step ?_
  rwa [crlf_append, crlf_of_not_mem hw] at h

/-- Lines may end with one character or with two for a machine: it takes both characters as it takes
one, one after the other and without a change of state, or halts in front of either, and its other
steps are the same on both kinds of text. -/
structure Bridges (step : σ → Char → List Char → Option (Nat × σ)) : Prop where
  inside : ∀ {s c rest k t}, step s c rest = some (k, t) → k ≤ rest.length
  takes : ∀ {s c w u t}, c ≠ '\n' → step s c (w ++ u) = some (w.length, t) →
    Passes step (crlf u) s (c :: crlf w) t
  takesBreak : ∀ {s rest k t}, step s '\n' rest = some (k, t) →
    k = 0 ∧ t = s ∧ ∀ other, step s '\r' other = some (0, s) ∧ step s '\n' other = some (0, s)
  halts : ∀ {s c rest}, c ≠ '\n' → step s c rest = none → step s c (crlf rest) = none
  haltsBreak : ∀ {s rest}, step s '\n' rest = none → ∀ other, step s '\r' other = none

namespace Bridges

variable (bridges : Bridges step)
include bridges

/-- A passage goes over the same text with longer line ends. -/
theorem passes_crlf {s t : σ} {u w : List Char} (h : Passes step u s w t) : Passes step (crlf u) s (crlf w) t := by
  induction h with
  | stay s => exact .stay s
  | @take s t r c w k taken inside further ih =>
    have split : w = w.take k ++ w.drop k := (List.take_append_drop k w).symm
    have length : (w.take k).length = k := List.length_take_of_le inside
    by_cases hc : c = '\n'
    · subst hc
      obtain ⟨rfl, rfl, both⟩ := bridges.takesBreak taken
      rw [crlf_newline_cons]
      exact .take (both _).1 (Nat.zero_le _) (.take (both _).2 (Nat.zero_le _) ih)
    · have own : step s c (w.take k ++ (w.drop k ++ u)) = some ((w.take k).length, t) := by
        rw [← List.append_assoc, List.take_append_drop, length]
        exact taken
      have passed := bridges.takes hc own
      rw [crlf_append] at passed
      have whole := passed.append ih
      rwa [List.cons_append, ← crlf_append, ← split, ← crlf_cons hc] at whole

/-- A machine that halts halts in front of the same text with longer line ends. -/
theorem walk_crlf_eq_zero {s : σ} {u : List Char} (h : walk step s u = (0, s)) : walk step s (crlf u) = (0, s) := by
  cases u with
  | nil => exact walk_nil s
  | cons c u =>
    cases hstep : step s c u with
    | some kt =>
      rw [walk_take hstep] at h
      simp at h
    | none =>
      by_cases hc : c = '\n'
      · subst hc
        exact walk_halt (bridges.haltsBreak hstep _)
      · rw [crlf_cons hc]
        exact walk_halt (bridges.halts hc hstep)

/-- A machine gets as far in a text with longer line ends as it gets in the text, and ends in the same state. -/
theorem exists_walk_crlf (s : σ) (text : List Char) : ∃ w u t, text = w ++ u ∧ walk step s text = (w.length, t) ∧
    walk step s (crlf text) = ((crlf w).length, t) := by
  have inside : (walk step s text).1 ≤ text.length :=
    fst_walk_le_length (fun _ _ _ _ _ taken => bridges.inside taken) s text
  have length := List.length_take_of_le inside
  have split : text = text.take (walk step s text).1 ++ text.drop (walk step s text).1 := (List.take_append_drop _ _).symm
  generalize hn : (walk step s text).1 = n at length split
  generalize ht : (walk step s text).2 = t
  have whole : walk step s (text.take n ++ text.drop n) = ((text.take n).length, t) := by
    rw [← split, length]
    exact Prod.ext hn ht
  obtain ⟨passed, halts⟩ := passes_of_walk whole
  refine ⟨text.take n, text.drop n, t, split, ?_, ?_⟩
  · rw [length]
    exact Prod.ext hn ht
  · conv => lhs; rw [split, crlf_append, (bridges.passes_crlf passed).walk_eq, bridges.walk_crlf_eq_zero halts]
    rw [Nat.add_zero]

end Bridges

end Machines

end SwiftTemplate.Text
