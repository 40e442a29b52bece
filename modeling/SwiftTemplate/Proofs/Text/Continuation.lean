import SwiftTemplate.Text.Walk
import SwiftTemplate.Text.Basic

/-!
# Continuations

A scanner reads the front of a text and looks a little further. What it finds stays the same when
the text behind is exchanged for one that begins alike: with the same characters, up to a place
where every scan stops.
-/
namespace SwiftTemplate.Text

/-- Nothing follows on the line: the text is empty or begins with a line break. -/
def Breaks (s : List Char) : Prop := ∀ c, s.head? = some c → c = '\n'

/-- The punctuation that no scan goes on past. -/
def isMark (c : Char) : Bool := c = ')' || c = ':' || c = '\x7d'

/-- What `v` shows to a scanner that may look at it is what `u` shows, or the end of a line. -/
inductive Alike : List Char → List Char → Prop
  | breaks {u v : List Char} (h : Breaks v) : Alike u v
  | mark {c : Char} {u v : List Char} (h : isMark c = true) : Alike (c :: u) (c :: v)
  | cons {c : Char} {u v : List Char} (h : Alike u v) : Alike (c :: u) (c :: v)

theorem breaks_nil : Breaks [] := by simp [Breaks]

theorem breaks_newline (s : List Char) : Breaks ('\n' :: s) := by simp [Breaks]

theorem Breaks.cases {s : List Char} (h : Breaks s) : s = [] ∨ ∃ rest, s = '\n' :: rest := by
  cases s with
  | nil => exact .inl rfl
  | cons c rest => exact .inr ⟨rest, by rw [h c rfl]⟩

theorem Alike.append (w : List Char) {u v : List Char} (h : Alike u v) : Alike (w ++ u) (w ++ v) := by
  induction w with
  | nil => exact h
  | cons c w ih => exact .cons ih

section
variable {u v : List Char}

theorem Alike.head?_cases (h : Alike u v) : Breaks v ∨ v.head? = u.head? := by
  cases h with
  | breaks h => exact .inl h
  | mark => exact .inr rfl
  | cons => exact .inr rfl

/-- A character in front of `v` other than a line break stands in front of `u`. -/
theorem Alike.head?_eq_some (h : Alike u v) {c : Char} (hc : c ≠ '\n') (hv : v.head? = some c) :
    u.head? = some c := by
  rcases h.head?_cases with breaks | same
  · exact absurd (breaks c hv) hc
  · rw [← same, hv]

/-- Behind a character other than a line break and a mark the texts go on alike. -/
theorem Alike.exists_cons {c : Char} (h : Alike u (c :: v)) (hc : c ≠ '\n' ∧ isMark c = false) :
    ∃ u', u = c :: u' ∧ Alike u' v := by
  cases h with
  | breaks h => exact absurd (h c rfl) hc.1
  | mark h => rw [hc.2] at h; cases h
  | cons h => exact ⟨_, rfl, h⟩

/-- A test that line breaks fail fails in front of `v` if it fails in front of `u`. -/
theorem Alike.any_head?_eq_false (h : Alike u v) {p : Char → Bool} (hp : p '\n' = false)
    (hu : u.head?.any p = false) : v.head?.any p = false := by
  rcases h.head?_cases with breaks | same
  · rcases breaks.cases with rfl | ⟨rest, rfl⟩
    · rfl
    · simpa using hp
  · rw [same, hu]

/-! ## Runs -/

@[simp] theorem run_nil (p : Char → Bool) : run p [] = 0 := rfl

theorem run_cons (p : Char → Bool) (c : Char) (s : List Char) :
    run p (c :: s) = if p c then run p s + 1 else 0 := by
  unfold run
  rw [List.takeWhile_cons]
  split <;> simp

theorem run_eq_zero {p : Char → Bool} {s : List Char} (h : s.head?.any p = false) : run p s = 0 := by
  cases s with
  | nil => rfl
  | cons c s => rw [run_cons]; simp_all

theorem any_head?_of_run_eq_zero {p : Char → Bool} {s : List Char} (h : run p s = 0) : s.head?.any p = false := by
  cases s with
  | nil => rfl
  | cons c s =>
    rw [run_cons] at h
    cases hc : p c with
    | false => simpa using hc
    | true => simp [hc] at h

/-- Behind a run stands no character of it. -/
theorem any_head?_drop_run (p : Char → Bool) (s : List Char) : (s.drop (run p s)).head?.any p = false := by
  induction s with
  | nil => rfl
  | cons c s ih =>
    rw [run_cons]
    split
    · exact ih
    · next hc => simpa using hc

theorem all_take_run (p : Char → Bool) (s : List Char) : (s.take (run p s)).all p = true := by
  have taken : s.take (run p s) = s.takeWhile p := (List.prefix_iff_eq_take.1 (List.takeWhile_prefix p)).symm
  rw [taken]
  exact List.all_takeWhile

/-- A run of characters that are no line breaks is on one line. -/
theorem newline_not_mem_take_run {p : Char → Bool} (hn : p '\n' = false) (s : List Char) : '\n' ∉ s.take (run p s) := by
  intro hmem
  have passed := List.all_eq_true.1 (all_take_run p s) _ hmem
  rw [hn] at passed
  cases passed

theorem not_mem_take_add {c : Char} {s : List Char} {m n : Nat} (first : c ∉ s.take m)
    (second : c ∉ (s.drop m).take n) : c ∉ s.take (m + n) := by
  rw [List.take_add, List.mem_append, not_or]
  exact ⟨first, second⟩

theorem all_of_run {p : Char → Bool} {w s : List Char} (h : run p (w ++ s) = w.length) : w.all p = true := by
  have taken := all_take_run p (w ++ s)
  rwa [h, List.take_left] at taken

theorem run_append_of_all {p : Char → Bool} {w s : List Char} (hw : w.all p = true) (hs : s.head?.any p = false) :
    run p (w ++ s) = w.length := by
  induction w with
  | nil => exact run_eq_zero hs
  | cons c w ih =>
    rw [List.all_cons, Bool.and_eq_true] at hw
    rw [List.cons_append, run_cons, if_pos hw.1, ih hw.2, List.length_cons]

theorem run_le_length (p : Char → Bool) (s : List Char) : run p s ≤ s.length :=
  (List.takeWhile_sublist p).length_le

/-- A run ends in front of a character that does not belong to it. -/
theorem run_append_cons_le {p : Char → Bool} {c : Char} (hc : p c = false) (w rest : List Char) :
    run p (w ++ c :: rest) ≤ w.length := by
  induction w with
  | nil => simp [run_cons, hc]
  | cons d w ih =>
    rw [List.cons_append, run_cons, List.length_cons]
    split
    · exact Nat.succ_le_succ ih
    · exact Nat.zero_le _

theorem lt_length_of_head?_drop {s : List Char} {n : Nat} {c : Char} (h : (s.drop n).head? = some c) :
    n < s.length := by
  rw [List.head?_drop] at h
  exact (List.getElem?_eq_some_iff.1 h).1

/-- A run that ends before `u` ends there before `v`, if it does not begin in front of `v`. -/
theorem run_append_eq {p : Char → Bool} (front : u.head?.any p = false → v.head?.any p = false) (w : List Char)
    (hle : run p (w ++ u) ≤ w.length) : run p (w ++ v) = run p (w ++ u) := by
  induction w with
  | nil =>
    have none : run p u = 0 := Nat.le_zero.1 hle
    rw [List.nil_append, List.nil_append, none, run_eq_zero (front (any_head?_of_run_eq_zero none))]
  | cons c w ih =>
    simp only [List.cons_append, run_cons, List.length_cons] at hle ⊢
    split
    · next hc =>
      rw [if_pos hc] at hle
      rw [ih (by omega)]
    · rfl

theorem run_append_alike {p : Char → Bool} (hp : p '\n' = false) (h : Alike u v) (w : List Char)
    (hle : run p (w ++ u) ≤ w.length) : run p (w ++ v) = run p (w ++ u) :=
  run_append_eq (h.any_head?_eq_false hp) w hle

/-! ## Beginnings -/

/-- A pattern of other characters than line breaks and marks at the front of `v` is at the front of `u`. -/
theorem Alike.isPrefixOf {pattern : List Char} (hpattern : ∀ c ∈ pattern, c ≠ '\n' ∧ isMark c = false)
    (h : Alike u v) (hv : pattern.isPrefixOf v = true) : pattern.isPrefixOf u = true := by
  induction pattern generalizing u v with
  | nil => simp
  | cons p pattern ih =>
    obtain ⟨plain, others⟩ := List.forall_mem_cons.1 hpattern
    cases v with
    | nil => simp at hv
    | cons c v =>
      rw [List.isPrefixOf_cons_cons, Bool.and_eq_true, beq_iff_eq] at hv
      obtain ⟨rfl, hv⟩ := hv
      obtain ⟨u, rfl, further⟩ := h.exists_cons plain
      rw [List.isPrefixOf_cons_cons, ih others further hv]
      simp

/-- A pattern that is at the front of `w ++ u` only if it is inside `w` is at the front of both. -/
theorem isPrefixOf_append_eq {pattern w : List Char}
    (front : pattern.isPrefixOf (w ++ v) = true → pattern.isPrefixOf (w ++ u) = true)
    (hinside : pattern.isPrefixOf (w ++ u) = true → pattern.length ≤ w.length) :
    pattern.isPrefixOf (w ++ v) = pattern.isPrefixOf (w ++ u) := by
  cases hu : pattern.isPrefixOf (w ++ u) with
  | true =>
    have inside : pattern <+: w :=
      List.prefix_of_prefix_length_le (List.isPrefixOf_iff_prefix.1 hu) (List.prefix_append w u) (hinside hu)
    exact List.isPrefixOf_iff_prefix.2 (inside.trans (List.prefix_append w v))
  | false =>
    cases hv : pattern.isPrefixOf (w ++ v) with
    | false => rfl
    | true => rw [front hv] at hu; cases hu

end

/-! ## Passages -/

/-- The machine takes exactly `w` on its way from one state to another, before the text `u`. -/
inductive Passes {σ : Type} (step : σ → Char → List Char → Option (Nat × σ)) (u : List Char) :
    σ → List Char → σ → Prop
  | stay (s : σ) : Passes step u s [] s
  | take {s t r : σ} {c : Char} {w : List Char} {k : Nat} (taken : step s c (w ++ u) = some (k, t))
      (inside : k ≤ w.length) (further : Passes step u t (w.drop k) r) : Passes step u s (c :: w) r

section
variable {σ : Type} {step : σ → Char → List Char → Option (Nat × σ)}

/-- A machine whose steps stay inside the text does so as a whole. -/
theorem fst_walk_le_length (inside : ∀ s c rest k t, step s c rest = some (k, t) → k ≤ rest.length) (s : σ)
    (text : List Char) : (walk step s text).1 ≤ text.length := by
  induction hlen : text.length using Nat.strongRecOn generalizing s text with
  | ind n ih =>
  subst hlen
  cases text with
  | nil => simp
  | cons c rest =>
    cases hstep : step s c rest with
    | none => rw [walk_halt hstep]; exact Nat.zero_le _
    | some kt =>
      obtain ⟨k, t⟩ := kt
      have := inside s c rest k t hstep
      have := ih (rest.drop k).length (by simp only [List.length_drop, List.length_cons]; omega) t (rest.drop k) rfl
      rw [walk_take hstep]
      simp only [List.length_drop, List.length_cons] at *
      omega

/-- Behind the place where a machine halts it takes nothing more. -/
theorem walk_drop_walk (s : σ) (text : List Char) :
    walk step (walk step s text).2 (text.drop (walk step s text).1) = (0, (walk step s text).2) := by
  induction hlen : text.length using Nat.strongRecOn generalizing s text with
  | ind n ih =>
  subst hlen
  cases text with
  | nil => simp
  | cons c rest =>
    cases hstep : step s c rest with
    | none => rw [walk_halt hstep]; exact walk_halt hstep
    | some kt =>
      obtain ⟨k, t⟩ := kt
      have := ih (rest.drop k).length (by simp only [List.length_drop, List.length_cons]; omega) t (rest.drop k) rfl
      rw [walk_take hstep]
      dsimp only
      rw [Nat.add_right_comm, List.drop_succ_cons, ← List.drop_drop]
      exact this

theorem Passes.eq_of_nil {u : List Char} {s t : σ} (h : Passes step u s [] t) : t = s := by
  cases h
  rfl

/-- Two passages, one behind the other, are one. -/
theorem Passes.append {u w z : List Char} {s t r : σ} (h : Passes step (z ++ u) s w t)
    (further : Passes step u t z r) : Passes step u s (w ++ z) r := by
  induction h with
  | stay s => exact further
  | take taken inside behind ih =>
    rw [List.cons_append]
    refine .take (by rw [List.append_assoc]; exact taken) ?_ ?_
    · rw [List.length_append]
      exact Nat.le_add_right_of_le inside
    · rw [List.drop_append_of_le_length inside]
      exact ih further

/-- Behind a passage the machine goes on. -/
theorem Passes.walk_eq {u w : List Char} {s t : σ} (h : Passes step u s w t) :
    walk step s (w ++ u) = (w.length + (walk step t u).1, (walk step t u).2) := by
  induction h with
  | stay s => simp
  | @take s t r c w k taken inside further ih =>
    rw [List.cons_append, walk_take taken, List.drop_append_of_le_length inside, ih]
    simp only [List.length_drop, List.length_cons, Prod.mk.injEq, and_true]
    omega

/-- A machine that passes nothing takes no step. -/
theorem step_eq_none_of_walk {s t : σ} {c : Char} {rest : List Char} (h : walk step s (c :: rest) = (0, t)) :
    step s c rest = none := by
  cases hstep : step s c rest with
  | none => rfl
  | some kt => rw [walk_take hstep] at h; simp at h

/-- A machine that halts before `u` has passed what is before it. -/
theorem passes_of_walk {u w : List Char} {s t : σ} (h : walk step s (w ++ u) = (w.length, t)) :
    Passes step u s w t ∧ walk step t u = (0, t) := by
  induction hlen : w.length using Nat.strongRecOn generalizing s w with
  | ind n ih =>
  subst hlen
  cases w with
  | nil =>
    have final : (walk step s u).2 = t := congrArg Prod.snd h
    have none : (walk step s u).1 = 0 := congrArg Prod.fst h
    have halts : walk step s u = (0, s) := by
      cases u with
      | nil => simp
      | cons c u =>
        cases hstep : step s c u with
        | none => exact walk_halt hstep
        | some kt => rw [walk_take hstep] at none; simp at none
    rw [halts] at final
    cases final
    exact ⟨.stay s, halts⟩
  | cons c w =>
    rw [List.cons_append] at h
    cases hstep : step s c (w ++ u) with
    | none => rw [walk_halt hstep] at h; simp at h
    | some kt =>
      obtain ⟨k, r⟩ := kt
      rw [walk_take hstep] at h
      simp only [List.length_cons, Prod.mk.injEq] at h
      obtain ⟨hlength, hfinal⟩ := h
      have inside : k ≤ w.length := by omega
      rw [List.drop_append_of_le_length inside] at hlength hfinal
      obtain ⟨further, halts⟩ := ih (w.drop k).length (by simp only [List.length_drop, List.length_cons]; omega)
        (s := r) (w := w.drop k)
        (Prod.ext (by simp only [List.length_drop]; omega) hfinal) rfl
      exact ⟨.take hstep inside further, halts⟩

/-- A passage is the same before another text if every step of it is. -/
theorem Passes.congr {u v w : List Char} {s r : σ} (h : Passes step u s w r)
    (same : ∀ s c w k t, step s c (w ++ u) = some (k, t) → k ≤ w.length → Passes step u t (w.drop k) r →
      step s c (w ++ v) = some (k, t)) : Passes step v s w r := by
  induction h with
  | stay s => exact .stay s
  | take taken inside further ih => exact .take (same _ _ _ _ _ taken inside further) inside (ih same)

end

end SwiftTemplate.Text
