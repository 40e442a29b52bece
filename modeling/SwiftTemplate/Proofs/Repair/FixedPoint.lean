import SwiftTemplate.Repair.Relocation

/-!
# Fixed points of repair

Repair is a run of two kinds of steps: moves, of which there are at most as many as the budget
grants, and removals, which go on until nothing is at fault. Every step finds the directive it is
about, every removal shortens the program, and so the run ends in a program that needs no step.
-/
namespace SwiftTemplate.Repair

/-- The run of `rounds` moves that begins with `text` and ends with `moved`. Every move is about the
first problem of the program it starts from. -/
inductive Moves : Nat → List Char → List Char → Prop
  | none (text : List Char) : Moves 0 text text
  | first {rounds : Nat} {text moved : List Char} {problem : Problem} {others : List Problem}
      (flagged : problems text = problem :: others)
      (further : Moves rounds (relocate text problem.line) moved) : Moves (rounds + 1) text moved

theorem moves_succ_iff {rounds : Nat} {text moved : List Char} {problem : Problem} {others : List Problem}
    (flagged : problems text = problem :: others) :
    Moves (rounds + 1) text moved ↔ Moves rounds (relocate text problem.line) moved := by
  constructor
  · intro run
    cases run with
    | first flagged' further =>
      obtain ⟨rfl, -⟩ := List.cons.inj (flagged.symm.trans flagged')
      exact further
  · exact .first flagged

theorem not_moves_succ {rounds : Nat} {text moved : List Char} (clean : problems text = []) :
    ¬ Moves (rounds + 1) text moved := by
  intro run
  cases run with
  | first flagged => rw [clean] at flagged; cases flagged

instance decidableMoves : (rounds : Nat) → (text moved : List Char) → Decidable (Moves rounds text moved)
  | 0, text, moved => decidable_of_iff (text = moved) ⟨fun h => h ▸ .none text, fun run => by cases run; rfl⟩
  | rounds + 1, text, moved =>
    match flagged : problems text with
    | [] => .isFalse (not_moves_succ flagged)
    | problem :: _ =>
      @decidable_of_iff' _ _ (moves_succ_iff flagged) (decidableMoves rounds (relocate text problem.line) moved)

/-- The run of `rounds` removals that begins with `text` and ends with `left`. Every removal takes
out the directive found on the line of the first problem. -/
inductive Drops : Nat → List Char → List Char → Prop
  | none (text : List Char) : Drops 0 text text
  | first {rounds : Nat} {text shorter left : List Char} {problem : Problem} {others : List Problem}
      (flagged : problems text = problem :: others)
      (removed : withoutDirective? text problem.line = some shorter)
      (further : Drops rounds shorter left) : Drops (rounds + 1) text left

/-- A directive stands on the line of every problem. -/
theorem exists_directiveOn? {text : List Char} {problem : Problem} (h : problem ∈ problems text) :
    ∃ place, directiveOn? (Swift.Source.ofText text) problem.line = some place := by
  obtain ⟨place, hplace, hproblem⟩ := List.mem_filterMap.1 h
  obtain ⟨diagnostic, -, rfl⟩ := Option.map_eq_some_iff.1 hproblem
  apply Option.isSome_iff_exists.1
  unfold directiveOn?
  exact List.find?_isSome.2 ⟨place, hplace, by simp⟩

/-- The directive of a problem can be taken out. -/
theorem exists_withoutDirective? {text : List Char} {problem : Problem} (h : problem ∈ problems text) :
    ∃ shorter, withoutDirective? text problem.line = some shorter := by
  obtain ⟨place, hplace⟩ := exists_directiveOn? h
  exact ⟨_, by rw [withoutDirective?, hplace]; rfl⟩

theorem problems_dropFlagged (text : List Char) : problems (dropFlagged text) = [] := by
  fun_induction dropFlagged text with
  | case1 text h => exact h
  | case2 text problem others h hnone =>
    obtain ⟨shorter, hsome⟩ := @exists_withoutDirective? text problem (h ▸ List.mem_cons_self)
    simp [hsome] at hnone
  | case3 text problem others h shorter hsome ih => exact ih

theorem drops_dropFlagged (text : List Char) :
    ∃ rounds, rounds ≤ text.length ∧ Drops rounds text (dropFlagged text) := by
  fun_induction dropFlagged text with
  | case1 text h => exact ⟨0, Nat.zero_le _, .none text⟩
  | case2 text problem others h hnone => exact ⟨0, Nat.zero_le _, .none text⟩
  | case3 text problem others h shorter hsome ih =>
    obtain ⟨rounds, hle, hrun⟩ := ih
    have hlt := length_withoutDirective_lt hsome
    exact ⟨rounds + 1, by omega, .first h hsome hrun⟩

theorem problems_settle (rounds : Nat) (text : List Char) : problems (settle rounds text) = [] := by
  induction rounds generalizing text with
  | zero => exact problems_dropFlagged text
  | succ rounds ih =>
    rw [settle]
    split
    · next h => exact h
    · exact ih _

theorem settle_of_problems_eq_nil {rounds : Nat} {text : List Char} (h : problems text = []) :
    settle rounds text = text := by
  cases rounds with
  | zero => rw [settle, dropFlagged]; simp [h]
  | succ rounds => rw [settle]; simp [h]

/-- Settling is a run of moves and a run of removals behind it. -/
theorem run_settle (rounds : Nat) (text : List Char) :
    ∃ moves drops moved, moves ≤ rounds ∧ Moves moves text moved ∧
      drops ≤ moved.length ∧ Drops drops moved (settle rounds text) := by
  induction rounds generalizing text with
  | zero =>
    obtain ⟨drops, hle, hrun⟩ := drops_dropFlagged text
    exact ⟨0, drops, text, Nat.le_refl _, .none text, hle, hrun⟩
  | succ rounds ih =>
    rw [settle]
    split
    · exact ⟨0, 0, text, Nat.zero_le _, .none text, Nat.zero_le _, .none text⟩
    · next problem others h =>
      obtain ⟨moves, drops, moved, hmoves, hmoved, hdrops, hleft⟩ := ih (relocate text problem.line)
      exact ⟨moves + 1, drops, moved, by omega, .first h hmoved, hdrops, hleft⟩

theorem problems_fix (text : List Char) : problems (fix text) = [] := problems_settle _ text

theorem fix_of_problems_eq_nil {text : List Char} (h : problems text = []) : fix text = text :=
  settle_of_problems_eq_nil h

/-- Repair ends on every text, behind no more moves than the budget grants and no more removals than
the text then has characters, because no step fails to find its directive. Nothing is at fault in
what it leaves, so that repairing again changes nothing, and it leaves exactly those programs as
they are in which nothing is at fault. -/
theorem fix_is_fixed_point (text : List Char) :
    (∃ moves drops moved, moves ≤ budget text ∧ Moves moves text moved ∧
        drops ≤ moved.length ∧ Drops drops moved (fix text)) ∧
      (∀ problem ∈ problems text, ∃ shorter, withoutDirective? text problem.line = some shorter) ∧
      problems (fix text) = [] ∧ fix (fix text) = fix text ∧
      (fix text = text ↔ problems text = []) := by
  refine ⟨run_settle _ text, fun problem => exists_withoutDirective?, problems_fix text,
    fix_of_problems_eq_nil (problems_fix text), ?_, fix_of_problems_eq_nil⟩
  intro unchanged
  rw [← unchanged]
  exact problems_fix text

end SwiftTemplate.Repair
