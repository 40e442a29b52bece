/-!
# Walks

Most questions about the start of a text ask how far some machine gets: at each stop it looks at
the rest of the text and either halts or takes a few characters and changes its state.
-/
namespace SwiftTemplate.Text

/-- How many characters a machine takes from the front of a text, and the state it ends in. In
state `s` before the character `c` and the text `rest`, `step s c rest` is `none` where the machine
halts, and `some (k, t)` where it takes `c` with `k` more characters and goes on in state `t`. -/
def walk {σ : Type} (step : σ → Char → List Char → Option (Nat × σ)) (s : σ) : List Char → Nat × σ
  | [] => (0, s)
  | c :: rest =>
    match step s c rest with
    | none => (0, s)
    | some (k, t) =>
      let (n, u) := walk step t (rest.drop k)
      (k + 1 + n, u)
termination_by text => text.length
decreasing_by simp only [List.length_drop, List.length_cons]; omega

variable {σ : Type} {step : σ → Char → List Char → Option (Nat × σ)}

@[simp] theorem walk_nil (s : σ) : walk step s [] = (0, s) := by rw [walk]

theorem walk_halt {s : σ} {c : Char} {rest : List Char} (h : step s c rest = none) :
    walk step s (c :: rest) = (0, s) := by rw [walk, h]

theorem walk_take {s t : σ} {c : Char} {rest : List Char} {k : Nat} (h : step s c rest = some (k, t)) :
    walk step s (c :: rest) = (k + 1 + (walk step t (rest.drop k)).1, (walk step t (rest.drop k)).2) := by
  rw [walk, h]

end SwiftTemplate.Text
