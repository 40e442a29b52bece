import SwiftTemplate.Proofs.Swift.Scanning

/-!
# Code inside string literals

Code that an interpolation can hold: the scanner reads it up to the parenthesis behind it, whatever
follows there, and inside of whatever literals.
-/
namespace SwiftTemplate.Swift.Literal

open Text (Alike Passes walk)

/-! ## Scanning inside further modes -/

theorem textStep_append (hashes : Nat) (multiline : Bool) (inner outer : List Mode) (c : Char) (rest : List Char) :
    textStep hashes multiline (inner ++ outer) c rest
      = (textStep hashes multiline inner c rest).map fun taken => (taken.1, taken.2 ++ outer) := by
  unfold textStep
  dsimp only
  repeat' split
  all_goals rfl

theorem interpolationStep_append (depth : Nat) (inner outer : List Mode) (c : Char) (rest : List Char) :
    interpolationStep depth (inner ++ outer) c rest
      = ((interpolationStep depth inner c rest).1, (interpolationStep depth inner c rest).2 ++ outer) := by
  unfold interpolationStep
  dsimp only
  repeat' split
  all_goals rfl

/-- The scanner does not look at the modes around those that it leaves. -/
theorem step_append_modes {modes after : List Mode} {c : Char} {rest : List Char} {k : Nat}
    (h : step modes c rest = some (k, after)) (outer : List Mode) :
    step (modes ++ outer) c rest = some (k, after ++ outer) := by
  match modes with
  | [] => cases h
  | .text hashes multiline :: inner =>
    have own : textStep hashes multiline inner c rest = some (k, after) := h
    rw [List.cons_append, step, textStep_append, own]
    rfl
  | .interpolation depth :: inner =>
    have own : interpolationStep depth inner c rest = (k, after) := Option.some.inj h
    rw [List.cons_append, step, interpolationStep_append, own]

theorem passes_append_modes {u w : List Char} {modes after : List Mode} (h : Passes step u modes w after)
    (outer : List Mode) : Passes step u (modes ++ outer) w (after ++ outer) := by
  induction h with
  | stay modes => exact .stay _
  | take taken inside further ih => exact .take (step_append_modes taken outer) inside ih

/-! ## Where an interpolation ends -/

/-- A step inside an interpolation stays inside it, unless it is the parenthesis that ends it. -/
theorem step_cases {front after : List Mode} {depth : Nat} {c : Char} {rest : List Char} {k : Nat}
    (h : step (front ++ [.interpolation depth]) c rest = some (k, after)) :
    (∃ front' depth', after = front' ++ [.interpolation depth']) ∨
      (front = [] ∧ depth = 0 ∧ c = ')' ∧ k = 0 ∧ after = []) := by
  cases front with
  | nil =>
    have own : interpolationStep depth [] c rest = (k, after) := Option.some.inj h
    unfold interpolationStep at own
    dsimp only at own
    split at own
    · cases own
      exact .inl ⟨[], depth + 1, rfl⟩
    split at own
    · next close =>
      by_cases outermost : depth = 0
      · rw [if_pos outermost] at own
        cases own
        exact .inr ⟨rfl, outermost, close, rfl, rfl⟩
      · rw [if_neg outermost] at own
        cases own
        exact .inl ⟨[], depth - 1, rfl⟩
    left
    split at own
    · cases own
      exact ⟨[.text 0 (isTriple rest)], depth, rfl⟩
    split at own
    · split at own
      · next behind _ =>
        cases own
        exact ⟨[.text _ (isTriple behind)], depth, rfl⟩
      · cases own
        exact ⟨[], depth, rfl⟩
    split at own
    · cases own
      exact ⟨[], depth, rfl⟩
    split at own
    · cases own
      exact ⟨[], depth, rfl⟩
    · cases own
      exact ⟨[], depth, rfl⟩
  | cons mode front =>
    left
    cases inner : step (mode :: front) c rest with
    | none =>
      -- Where the inner modes halt, the line ends in a literal, and the outer one does not matter.
      obtain halted | ⟨hashes, outer, halted, line⟩ := step_eq_none_iff.1 inner
      · cases halted
      · cases halted
        have := (@step_eq_none_iff (.text hashes false :: front ++ [.interpolation depth]) c rest).2
          (.inr ⟨hashes, front ++ [.interpolation depth], rfl, line⟩)
        rw [h] at this
        cases this
    | some taken =>
      rw [step_append_modes inner] at h
      cases h
      exact ⟨taken.2, depth, rfl⟩

/-- The last character that is read of an interpolation is its parenthesis, and what follows it is not looked at. -/
theorem exists_close {u w : List Char} {modes after : List Mode} (h : Passes step u modes w after)
    (inside : ∃ front depth, modes = front ++ [.interpolation depth]) (ends : after = []) :
    ∃ code, w = code ++ [')'] ∧ Passes step (')' :: u) modes code [.interpolation 0] := by
  induction h with
  | stay modes =>
    obtain ⟨front, depth, rfl⟩ := inside
    simp at ends
  | @take modes between after c w k taken bound further ih =>
    obtain ⟨front, depth, rfl⟩ := inside
    obtain again | ⟨rfl, rfl, rfl, rfl, rfl⟩ := step_cases taken
    · obtain ⟨code, hw, passed⟩ := ih again ends
      have length : (w.take k).length = k := List.length_take_of_le bound
      have split : w = w.take k ++ code ++ [')'] := by
        rw [List.append_assoc, ← hw, List.take_append_drop]
      have same : w ++ u = w.take k ++ code ++ ')' :: u := by
        have := congrArg (· ++ u) split
        simpa using this
      refine ⟨c :: (w.take k ++ code), by rw [List.cons_append, ← split], .take (k := k) (t := between) ?_ ?_ ?_⟩
      · rw [← same]
        exact taken
      · rw [List.length_append, length]
        exact Nat.le_add_right k _
      · rw [List.drop_append_of_le_length (Nat.le_of_eq length.symm), List.drop_eq_nil_iff.2 (Nat.le_of_eq length),
          List.nil_append]
        exact passed
    · subst ends
      cases w with
      | nil => exact ⟨[], rfl, .stay _⟩
      | cons d w =>
        -- Outside of everything the scanner halts.
        cases further with
        | take taken => cases taken

/-! ## Self-contained code -/

/-- Code that an interpolation can hold: the scanner reads it and the parenthesis behind it, whatever
follows, and is then outside of everything. -/
def SelfContained (code : List Char) : Prop :=
  ∀ behind, scan [.interpolation 0] (code ++ ')' :: behind) = (code.length + 1, [])

theorem passes_of_scan {code behind : List Char}
    (h : scan [.interpolation 0] (code ++ ')' :: behind) = (code.length + 1, [])) :
    Passes step (')' :: behind) [.interpolation 0] code [.interpolation 0] := by
  have whole : code ++ ')' :: behind = (code ++ [')']) ++ behind := by simp
  have passed := (Text.passes_of_walk (w := code ++ [')']) (t := ([] : List Mode)) (by
    rw [← whole, List.length_append]
    exact h)).1
  obtain ⟨inner, hinner, passed⟩ := exists_close passed ⟨[], 0, rfl⟩ rfl
  obtain rfl := List.append_cancel_right hinner
  exact passed

theorem step_close (outer : List Mode) (rest : List Char) :
    step (.interpolation 0 :: outer) ')' rest = some (0, outer) := rfl

theorem passes_close (outer : List Mode) (behind : List Char) :
    Passes step behind (.interpolation 0 :: outer) [')'] outer :=
  .take (step_close outer behind) (Nat.le_refl 0) (.stay outer)

theorem SelfContained.passes_code {code : List Char} (h : SelfContained code) (outer : List Mode) (behind : List Char) :
    Passes step (')' :: behind) (.interpolation 0 :: outer) code (.interpolation 0 :: outer) :=
  passes_append_modes (passes_of_scan (h behind)) outer

/-- Self-contained code with its parenthesis leads out of the interpolation. -/
theorem SelfContained.passes {code : List Char} (h : SelfContained code) (outer : List Mode) (behind : List Char) :
    Passes step behind (.interpolation 0 :: outer) (code ++ [')']) outer :=
  (h.passes_code outer behind).append (passes_close outer behind)

/-- Outside of everything the scanner takes nothing. -/
theorem walk_outside (text : List Char) : walk step [] text = (0, []) := by
  cases text with
  | nil => exact Text.walk_nil []
  | cons c text => exact Text.walk_halt rfl

theorem selfContained_of_passes {code : List Char}
    (h : ∀ behind, Passes step (')' :: behind) [.interpolation 0] code [.interpolation 0]) : SelfContained code := by
  intro behind
  rw [scan, (h behind).walk_eq, Text.walk_take (step_close [] behind), List.drop_zero, walk_outside]
  rfl

/-- What follows the parenthesis makes no difference to the code before it. -/
theorem selfContained_iff {code : List Char} :
    SelfContained code ↔ scan [.interpolation 0] (code ++ [')']) = (code.length + 1, []) := by
  constructor
  · intro h
    exact h []
  · intro h
    refine selfContained_of_passes fun behind => ?_
    exact passes_step_congr (fronts_of_alike (.mark (by decide))) (passes_of_scan h) (.inl (by simp))

instance (code : List Char) : Decidable (SelfContained code) := decidable_of_iff _ selfContained_iff.symm

end SwiftTemplate.Swift.Literal
