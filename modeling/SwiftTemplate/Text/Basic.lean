/-!
# Texts

A text is a list of characters. Sizes and positions that leave the library are counted in the
bytes of its UTF-8 form, and lines are separated by `\n` alone.
-/
namespace SwiftTemplate.Text

def byteSize (s : List Char) : Nat := s.foldr (fun c n => c.utf8Size + n) 0

def newlines (s : List Char) : Nat := s.count '\n'

/-- The text before the first `c` and the text after it, if `c` occurs. -/
def cutAt? (c : Char) : List Char → Option (List Char × List Char)
  | [] => none
  | d :: s => if d = c then some ([], s) else (cutAt? c s).map fun (before, after) => (d :: before, after)

/-- The stretches of a text between the occurrences of `c`, empty ones included. -/
def splitOn (c : Char) : List Char → List (List Char)
  | [] => [[]]
  | d :: s =>
    if d = c then [] :: splitOn c s
    else match splitOn c s with
      | [] => [[d]]
      | first :: others => (d :: first) :: others

/-- A text with every occurrence of `pattern`, read from the left without overlap, replaced by `value`. -/
def replaceAll (pattern value : List Char) : List Char → List Char
  | [] => []
  | c :: s =>
    if pattern.isPrefixOf (c :: s) then value ++ replaceAll pattern value (s.drop (pattern.length - 1))
    else c :: replaceAll pattern value s
termination_by s => s.length
decreasing_by all_goals (simp only [List.length_drop, List.length_cons]; omega)

def before? (pattern : List Char) : List Char → Option (List Char)
  | [] => if pattern.isEmpty then some [] else none
  | c :: s => if pattern.isPrefixOf (c :: s) then some [] else (before? pattern s).map (c :: ·)

def cutAtLast? (c : Char) (s : List Char) : Option (List Char × List Char) :=
  (cutAt? c s.reverse).map fun (after, before) => (before.reverse, after.reverse)

def dropLast? (c : Char) (s : List Char) : Option (List Char) :=
  if s.getLast? = some c then some s.dropLast else none

def isSpaceOrTab (c : Char) : Bool := c = ' ' || c = '\t'

def run (p : Char → Bool) (s : List Char) : Nat := (s.takeWhile p).length

/-- A text cut at its last line break: what stands before it, and the rest from the break on.
Without a break everything stands before. -/
def cutAtLastNewline (s : List Char) : List Char × List Char :=
  match s.reverse.dropWhile (· ≠ '\n') with
  | [] => (s, [])
  | _ :: before => (before.reverse, '\n' :: (s.reverse.takeWhile (· ≠ '\n')).reverse)

/-- A text cut at its first line break: what stands before it, and the rest from the break on. -/
def cutAtFirstNewline (s : List Char) : List Char × List Char :=
  (s.takeWhile (· ≠ '\n'), s.dropWhile (· ≠ '\n'))

@[simp] theorem byteSize_nil : byteSize [] = 0 := rfl

@[simp] theorem byteSize_cons (c : Char) (s : List Char) : byteSize (c :: s) = c.utf8Size + byteSize s := rfl

@[simp] theorem byteSize_append (s t : List Char) : byteSize (s ++ t) = byteSize s + byteSize t := by
  induction s with
  | nil => simp
  | cons c s ih => simp only [List.cons_append, byteSize_cons, ih]; omega

@[simp] theorem newlines_nil : newlines [] = 0 := rfl

@[simp] theorem newlines_append (s t : List Char) : newlines (s ++ t) = newlines s + newlines t := by
  simp [newlines]

theorem ne_newline_of_not_mem {s : List Char} (h : '\n' ∉ s) : ∀ c ∈ s, decide (c ≠ '\n') = true := by
  intro c hc
  refine decide_eq_true ?_
  rintro rfl
  exact h hc

theorem cutAt?_eq_some {c : Char} {s before after : List Char} (h : cutAt? c s = some (before, after)) :
    s = before ++ c :: after := by
  induction s generalizing before with
  | nil => simp [cutAt?] at h
  | cons d s ih =>
    rw [cutAt?] at h
    split at h
    · simp_all
    · cases hs : cutAt? c s with
      | none => simp [hs] at h
      | some parts => simp [hs] at h; obtain ⟨rfl, rfl⟩ := h; simp [ih hs]

theorem cutAtFirstNewline_append (s : List Char) :
    (cutAtFirstNewline s).1 ++ (cutAtFirstNewline s).2 = s :=
  List.takeWhile_append_dropWhile

/-- The element at which dropping stops fails the test. -/
theorem head_dropWhile {α : Type} {p : α → Bool} {s rest : List α} {c : α} (h : s.dropWhile p = c :: rest) :
    p c = false := by
  induction s with
  | nil => simp at h
  | cons d s ih =>
    rw [List.dropWhile_cons] at h
    split at h
    · exact ih h
    · next hd => cases h; simpa using hd

theorem cutAtLastNewline_append (s : List Char) :
    (cutAtLastNewline s).1 ++ (cutAtLastNewline s).2 = s := by
  have parts := List.takeWhile_append_dropWhile (p := (· ≠ '\n')) (l := s.reverse)
  unfold cutAtLastNewline
  split
  · simp
  · next c before h =>
    have hc : c = '\n' := by simpa using head_dropWhile h
    rw [h, hc] at parts
    simpa using congrArg List.reverse parts

end SwiftTemplate.Text
