import SwiftTemplate.Swift.Lexeme
import SwiftTemplate.Proofs.Text.Continuation

/-!
# Comments and literals before other texts

The scanners of comments and string literals find the same before texts that begin alike. A block
comment that is closed does not depend on what follows at all.
-/
namespace SwiftTemplate.Swift

open Text (Alike isMark Passes walk run)

/-- A test of the first character has the same answer before `u` and before `v`, if `u` answers it
only where the character is not its own. -/
theorem head?_append_eq {u v : List Char} {c : Char} (h : v.head? = some c → u.head? = some c) (w : List Char)
    (hinside : (w ++ u).head? = some c → w ≠ []) : ((w ++ v).head? = some c) ↔ ((w ++ u).head? = some c) := by
  cases w with
  | nil =>
    simp only [List.nil_append] at hinside ⊢
    exact ⟨h, fun hu => absurd rfl (hinside hu)⟩
  | cons d w => simp

namespace Comment

theorem slash_of_beginsLine {c : Char} {rest : List Char} (h : beginsLine c rest = true) : c = '/' :=
  of_decide_eq_true (Bool.and_eq_true_iff.1 h).1

theorem slash_of_beginsBlock {c : Char} {rest : List Char} (h : beginsBlock c rest = true) : c = '/' :=
  of_decide_eq_true (Bool.and_eq_true_iff.1 h).1

/-- What `v` begins with says no more about comments than what `u` begins with. -/
structure Fronts (u v : List Char) : Prop where
  slash : v.head? = some '/' → u.head? = some '/'
  star : v.head? = some '*' → u.head? = some '*'
  line : u.head?.any (fun c => !isBreak c) = false → v.head?.any (fun c => !isBreak c) = false

theorem fronts_of_alike {u v : List Char} (h : Alike u v) : Fronts u v :=
  ⟨h.head?_eq_some (by decide), h.head?_eq_some (by decide), h.any_head?_eq_false (by decide)⟩

theorem Fronts.append (w : List Char) {u v : List Char} (h : Fronts u v) : Fronts (w ++ u) (w ++ v) := by
  cases w with
  | nil => exact h
  | cons c w => exact ⟨id, id, id⟩

section
variable {u v : List Char} (h : Fronts u v)
include h

theorem lineExtent_append_eq (w : List Char) (hle : lineExtent (w ++ u) ≤ w.length) :
    lineExtent (w ++ v) = lineExtent (w ++ u) :=
  Text.run_append_eq h.line w hle

theorem beginsLine_append_eq (c : Char) (w : List Char) (hinside : beginsLine c (w ++ u) = true → w ≠ []) :
    beginsLine c (w ++ v) = beginsLine c (w ++ u) := by
  by_cases slash : c = '/'
  · simp only [beginsLine, slash, decide_true, Bool.true_and, decide_eq_true_eq, decide_eq_decide] at hinside ⊢
    exact head?_append_eq h.slash w hinside
  · simp [beginsLine, slash]

theorem beginsBlock_append_eq (c : Char) (w : List Char) (hinside : beginsBlock c (w ++ u) = true → w ≠ []) :
    beginsBlock c (w ++ v) = beginsBlock c (w ++ u) := by
  by_cases slash : c = '/'
  · simp only [beginsBlock, slash, decide_true, Bool.true_and, decide_eq_true_eq, decide_eq_decide] at hinside ⊢
    exact head?_append_eq h.star w hinside
  · simp [beginsBlock, slash]

theorem Fronts.beginsLine {c : Char} (hv : beginsLine c v = true) : beginsLine c u = true := by
  obtain ⟨slash, ahead⟩ := Bool.and_eq_true_iff.1 hv
  exact Bool.and_eq_true_iff.2 ⟨slash, decide_eq_true (h.slash (of_decide_eq_true ahead))⟩

theorem Fronts.beginsBlock {c : Char} (hv : beginsBlock c v = true) : beginsBlock c u = true := by
  obtain ⟨slash, ahead⟩ := Bool.and_eq_true_iff.1 hv
  exact Bool.and_eq_true_iff.2 ⟨slash, decide_eq_true (h.star (of_decide_eq_true ahead))⟩

end

theorem lineExtent_pos {c : Char} {rest : List Char} (h : beginsLine c rest = true) : 0 < lineExtent rest := by
  have slash := (Bool.and_eq_true_iff.1 h).2
  obtain ⟨more, rfl⟩ := List.head?_eq_some_iff.1 (of_decide_eq_true slash)
  simp [lineExtent, Text.run_cons, isBreak]

/-- Whether a comment stands at the front of a text. -/
def begins : List Char → Bool
  | [] => false
  | c :: rest => beginsLine c rest || beginsBlock c rest

theorem extent_pos (rest : List Char) : 0 < (block rest).extent := by
  simp only [block]
  omega

/-! ## Block comments -/

theorem walk_blockStep_zero (s : List Char) : walk blockStep 0 s = (0, 0) := by
  cases s with
  | nil => simp
  | cons c s => exact Text.walk_halt (by simp [blockStep])

theorem depth_of_blockStep_eq_none {depth : Nat} {c : Char} {rest : List Char} (h : blockStep depth c rest = none) :
    depth = 0 := by
  by_cases hd : depth = 0
  · exact hd
  · unfold blockStep at h
    rw [if_neg hd] at h
    repeat' split at h
    all_goals cases h

/-- A step inside a block comment takes a mark of two characters, or one character and changes nothing. -/
theorem blockStep_cases {depth k after : Nat} {c : Char} {rest : List Char}
    (h : blockStep depth c rest = some (k, after)) :
    depth ≠ 0 ∧ ((k = 1 ∧ rest ≠ []) ∨ (k = 0 ∧ after = depth)) := by
  unfold blockStep at h
  split at h
  · cases h
  · next hd =>
    refine ⟨hd, ?_⟩
    split at h
    · next opens =>
      cases h
      refine .inl ⟨rfl, ?_⟩
      rintro rfl
      simp [beginsBlock] at opens
    · split at h
      · next closes =>
        cases h
        refine .inl ⟨rfl, ?_⟩
        rintro rfl
        simp at closes
      · cases h
        exact .inr ⟨rfl, rfl⟩

/-- A block comment that is closed is closed before any text. -/
theorem passes_blockStep_congr {u : List Char} (v : List Char) {depth : Nat} {w : List Char}
    (h : Passes blockStep u depth w 0) : Passes blockStep v depth w 0 := by
  refine h.congr fun depth c w k after taken inside further => ?_
  cases w with
  | nil =>
    -- The last character of a comment is the second of a mark.
    obtain rfl : k = 0 := by simpa using inside
    obtain ⟨hd, ⟨himpossible, -⟩ | ⟨-, rfl⟩⟩ := blockStep_cases taken
    · cases himpossible
    · rw [List.drop_nil] at further
      exact absurd further.eq_of_nil.symm hd
  | cons d w => simpa [blockStep, beginsBlock] using taken

theorem block_append_of_closed {u w : List Char} (hw : w ≠ []) (hclosed : (block (w ++ u)).closed = true)
    (hle : (block (w ++ u)).extent ≤ w.length) (v : List Char) : block (w ++ v) = block (w ++ u) := by
  obtain ⟨c, w, rfl⟩ := List.exists_cons_of_ne_nil hw
  simp only [block, List.cons_append, List.drop_succ_cons, List.drop_zero, decide_eq_true_eq,
    List.length_cons] at hclosed hle ⊢
  have split : w = w.take (walk blockStep 1 (w ++ u)).1 ++ w.drop (walk blockStep 1 (w ++ u)).1 :=
    (List.take_append_drop _ w).symm
  have length : (w.take (walk blockStep 1 (w ++ u)).1).length = (walk blockStep 1 (w ++ u)).1 := by
    rw [List.length_take]; omega
  generalize hn : (walk blockStep 1 (w ++ u)).1 = n at split length hle
  have halted : walk blockStep 1 (w.take n ++ (w.drop n ++ u)) = ((w.take n).length, 0) := by
    rw [← List.append_assoc, ← split, length]
    exact Prod.ext hn hclosed
  have passed := passes_blockStep_congr (w.drop n ++ v) (Text.passes_of_walk halted).1
  have again := passed.walk_eq
  rw [← List.append_assoc, ← split, walk_blockStep_zero, length] at again
  rw [again, hclosed]
  simp

private theorem blockStep_inside (depth : Nat) (c : Char) (rest : List Char) (k after : Nat)
    (h : blockStep depth c rest = some (k, after)) : k ≤ rest.length := by
  obtain ⟨-, ⟨rfl, hs⟩ | ⟨rfl, -⟩⟩ := blockStep_cases h
  · exact List.length_pos_iff.2 hs
  · exact Nat.zero_le _

theorem extent_le_length {rest : List Char} (h : rest ≠ []) : (block rest).extent ≤ rest.length := by
  obtain ⟨c, rest, rfl⟩ := List.exists_cons_of_ne_nil h
  have := Text.fst_walk_le_length blockStep_inside 1 rest
  simp only [block, List.drop_succ_cons, List.drop_zero, List.length_cons]
  omega

private theorem fst_walk_blockStep {depth : Nat} {s : List Char} (h : (walk blockStep depth s).2 ≠ 0) :
    (walk blockStep depth s).1 = s.length := by
  have inside := Text.fst_walk_le_length blockStep_inside depth s
  have halts := @Text.walk_drop_walk Nat blockStep depth s
  cases hdrop : s.drop (walk blockStep depth s).1 with
  | nil =>
    have := List.drop_eq_nil_iff.1 hdrop
    omega
  | cons c rest =>
    rw [hdrop] at halts
    cases hstep : blockStep (walk blockStep depth s).2 c rest with
    | none => exact absurd (depth_of_blockStep_eq_none hstep) h
    | some kt => rw [Text.walk_take hstep] at halts; simp at halts

/-- A block comment that is not closed reaches to the end of the text. -/
theorem extent_of_not_closed {rest : List Char} (hrest : rest ≠ []) (h : (block rest).closed = false) :
    (block rest).extent = rest.length := by
  obtain ⟨c, rest, rfl⟩ := List.exists_cons_of_ne_nil hrest
  simp only [block, List.drop_succ_cons, List.drop_zero, decide_eq_false_iff_not, List.length_cons] at h ⊢
  rw [fst_walk_blockStep h]
  omega

private theorem getLast?_of_passes_blockStep {u w : List Char} {depth after : Nat}
    (passed : Passes blockStep u depth w after) (hafter : after = 0) (hdepth : depth ≠ 0) :
    w.getLast? = some '/' := by
  induction passed with
  | stay depth => exact absurd hafter hdepth
  | @take depth inner after c w k taken inside further ih =>
    by_cases hinner : inner = 0
    · subst hinner
      have last : w.drop k = [] := by
        generalize w.drop k = behind at further
        cases further with
        | stay => rfl
        | take taken => simp [blockStep] at taken
      obtain ⟨-, ⟨rfl, -⟩ | ⟨-, hsame⟩⟩ := blockStep_cases taken
      · obtain ⟨d, rfl⟩ : ∃ d, w = [d] := List.length_eq_one_iff.1 (by
          have := List.drop_eq_nil_iff.1 last
          omega)
        simp only [blockStep, if_neg hdepth] at taken
        split at taken
        · cases taken
        · split at taken
          · next closes => simpa using (Bool.and_eq_true_iff.1 closes).2
          · cases taken
      · exact absurd hsame.symm hdepth
    · have hlast := ih hafter hinner
      rw [List.getLast?_drop] at hlast
      split at hlast
      · cases hlast
      · rw [List.getLast?_cons, hlast]
        rfl

/-- A block comment ends with a slash. -/
theorem getLast?_take_extent {rest : List Char} (hclosed : (block rest).closed = true) :
    (rest.take (block rest).extent).getLast? = some '/' := by
  cases rest with
  | nil => simp [block] at hclosed
  | cons c s =>
    have length : (s.take (walk blockStep 1 s).1).length = (walk blockStep 1 s).1 := by
      rw [List.length_take, Nat.min_eq_left (Text.fst_walk_le_length blockStep_inside 1 s)]
    have halted : walk blockStep 1 (s.take (walk blockStep 1 s).1 ++ s.drop (walk blockStep 1 s).1)
        = ((s.take (walk blockStep 1 s).1).length, 0) := by
      rw [List.take_append_drop]
      exact Prod.ext length.symm (of_decide_eq_true hclosed)
    have last := getLast?_of_passes_blockStep (Text.passes_of_walk halted).1 rfl (by decide)
    show ((c :: s).take (1 + (walk blockStep 1 s).1)).getLast? = some '/'
    rw [Nat.add_comm, List.take_succ_cons, List.getLast?_cons, last]
    rfl

end Comment

namespace Literal

/-- Whether a character may stand in the delimiter of a literal. -/
def isDelimiter (c : Char) : Bool := c = '"' || c = '#'

/-- What `v` begins with says no more about comments and the delimiters of literals than what `u`
begins with. -/
structure Fronts (u v : List Char) : Prop extends Comment.Fronts u v where
  delimiters : ∀ pattern : List Char, pattern.all isDelimiter = true → pattern.isPrefixOf v = true →
    pattern.isPrefixOf u = true

theorem fronts_of_alike {u v : List Char} (h : Alike u v) : Fronts u v := by
  refine ⟨Comment.fronts_of_alike h, fun pattern own => h.isPrefixOf fun c hc => ?_⟩
  rcases Bool.or_eq_true_iff.1 (List.all_eq_true.1 own c hc) with sign | sign <;>
    (rw [of_decide_eq_true sign]; decide)

section
variable {u v : List Char} (h : Fronts u v)
include h

theorem Fronts.append (w : List Char) : Fronts (w ++ u) (w ++ v) := by
  refine ⟨h.toFronts.append w, ?_⟩
  induction w with
  | nil => exact h.delimiters
  | cons c w ih =>
    intro pattern own hv
    cases pattern with
    | nil => rfl
    | cons d pattern =>
      rw [List.all_cons, Bool.and_eq_true] at own
      rw [List.cons_append, List.isPrefixOf_cons_cons, Bool.and_eq_true] at hv ⊢
      exact ⟨hv.1, ih pattern own.2 hv.2⟩

theorem Fronts.any_head?_eq_false {c : Char} (hc : isDelimiter c = true) (hu : u.head?.any (· = c) = false) :
    v.head?.any (· = c) = false := by
  cases v with
  | nil => rfl
  | cons d v =>
    refine decide_eq_false fun same => ?_
    have ahead := h.delimiters [c] (by simpa using hc) (by simp [same])
    cases u with
    | nil => cases ahead
    | cons e u => simp_all

/-- A delimiter that is at the front of `w ++ u` only if it is inside `w` is at the front of both. -/
theorem Fronts.isPrefixOf_append {pattern : List Char} (own : pattern.all isDelimiter = true) (w : List Char)
    (hinside : pattern.isPrefixOf (w ++ u) = true → pattern.length ≤ w.length) :
    pattern.isPrefixOf (w ++ v) = pattern.isPrefixOf (w ++ u) :=
  Text.isPrefixOf_append_eq ((h.append w).delimiters pattern own) hinside

theorem isTriple_append_eq (w : List Char) (hinside : isTriple (w ++ u) = true → 2 ≤ w.length) :
    isTriple (w ++ v) = isTriple (w ++ u) :=
  h.isPrefixOf_append (by decide) w hinside

end

private theorem isDelimiter_hashes (n : Nat) : (List.replicate n '#').all isDelimiter = true := by
  simp [isDelimiter]

/-- The delimiter that closes a literal, less its first quote. -/
def closer (hashes : Nat) (multiline : Bool) : List Char :=
  List.replicate (quoteExtent multiline) '"' ++ List.replicate hashes '#'

theorem isPrefixOf_closer (hashes : Nat) (multiline : Bool) (rest : List Char) :
    ((!multiline || isTriple rest) && hashesAhead hashes (rest.drop (quoteExtent multiline)))
      = (closer hashes multiline).isPrefixOf rest := by
  cases multiline with
  | false => simp [closer, quoteExtent, hashesAhead]
  | true =>
    have two : List.replicate 2 '"' = ['"', '"'] := rfl
    match rest with
    | [] => simp [closer, quoteExtent, isTriple, two]
    | [c] => simp [closer, quoteExtent, isTriple, two, List.isPrefixOf]
    | c :: d :: rest => simp [closer, quoteExtent, isTriple, hashesAhead, two, List.isPrefixOf, Bool.and_assoc]

private theorem isDelimiter_closer (hashes : Nat) (multiline : Bool) :
    (closer hashes multiline).all isDelimiter = true := by
  rw [closer, List.all_append, isDelimiter_hashes, Bool.and_true]
  simp [isDelimiter]

theorem textStep_eq (hashes : Nat) (multiline : Bool) (outer : List Mode) (c : Char) (rest : List Char) :
    textStep hashes multiline outer c rest =
      if c = '\\' && hashesAhead hashes rest then
        match (rest.drop hashes).head? with
        | none => some (hashes, .text hashes multiline :: outer)
        | some d =>
          if d = '(' then some (hashes + 1, .interpolation 0 :: .text hashes multiline :: outer)
          else if !multiline && Comment.isBreak d then some (hashes, .text hashes multiline :: outer)
          else some (hashes + 1, .text hashes multiline :: outer)
      else if c = '"' && (closer hashes multiline).isPrefixOf rest then
        some (quoteExtent multiline + hashes, outer)
      else if !multiline && Comment.isBreak c then none
      else some (0, .text hashes multiline :: outer) := by
  rw [← isPrefixOf_closer, ← Bool.and_assoc]
  rfl

theorem textStep_append_eq {u v : List Char} (h : Fronts u v) {hashes : Nat} {multiline : Bool}
    {outer modes : List Mode} {c : Char} {w : List Char} {k : Nat}
    (taken : textStep hashes multiline outer c (w ++ u) = some (k, modes)) (inside : k ≤ w.length)
    (closes : u = [] → w.drop k = [] → modes = []) : textStep hashes multiline outer c (w ++ v) = some (k, modes) := by
  rw [textStep_eq] at taken ⊢
  by_cases escape : (decide (c = '\\') && hashesAhead hashes (w ++ u)) = true
  · rw [if_pos escape] at taken
    have long : hashes ≤ w.length := by
      split at taken
      · cases taken; exact inside
      · split at taken
        · cases taken; omega
        · split at taken
          · cases taken; exact inside
          · cases taken; omega
    have same : hashesAhead hashes (w ++ v) = hashesAhead hashes (w ++ u) :=
      h.isPrefixOf_append (isDelimiter_hashes hashes) w fun _ => by simpa using long
    rw [if_pos (by rw [same]; exact escape)]
    rw [List.drop_append_of_le_length long] at taken ⊢
    cases hw : w.drop hashes with
    | cons d behind => simpa [hw] using taken
    | nil =>
      -- The escaped character is the first of `u`: the escape is cut short by the end of the line.
      have exact_length : w.length = hashes := by
        have := congrArg List.length hw
        simp only [List.length_drop, List.length_nil] at this
        omega
      simp only [hw, List.nil_append] at taken ⊢
      cases hu : u.head? with
      | none =>
        simp only [hu, Option.some.injEq, Prod.mk.injEq] at taken
        obtain ⟨rfl, rfl⟩ := taken
        exact absurd (closes (List.head?_eq_none_iff.1 hu) hw) (by simp)
      | some d =>
        simp only [hu] at taken
        split at taken
        · cases taken; omega
        · split at taken
          · next hd hbreak =>
            cases taken
            obtain ⟨oneLine, isBreak⟩ := Bool.and_eq_true_iff.1 hbreak
            have ends := h.line (by simp [hu, isBreak])
            cases v with
            | nil => rfl
            | cons e v =>
              have again : Comment.isBreak e = true := by simpa using ends
              have other : e ≠ '(' := by
                rintro rfl
                cases again
              simp [oneLine, again, other]
          · cases taken; omega
  · rw [if_neg escape] at taken
    have unescaped : ¬ (decide (c = '\\') && hashesAhead hashes (w ++ v)) = true := by
      intro hv
      rw [Bool.and_eq_true] at hv escape
      exact escape ⟨hv.1, (h.append w).delimiters _ (isDelimiter_hashes hashes) hv.2⟩
    rw [if_neg unescaped]
    by_cases quote : c = '"'
    · have same := h.isPrefixOf_append (isDelimiter_closer hashes multiline) w fun hu => by
        rw [if_pos (by simp [quote, hu])] at taken
        cases taken
        simpa [closer] using inside
      rw [same]
      exact taken
    · simpa [quote] using taken

theorem interpolationStep_append_eq {u v : List Char} (h : Fronts u v) {depth : Nat} {outer modes : List Mode}
    {c : Char} {w : List Char} {k : Nat} (taken : interpolationStep depth outer c (w ++ u) = (k, modes))
    (inside : k ≤ w.length) (closes : u = [] → w.drop k = [] → modes = []) :
    interpolationStep depth outer c (w ++ v) = (k, modes) := by
  unfold interpolationStep at taken ⊢
  by_cases opens : c = '('
  · simpa [opens] using taken
  by_cases shuts : c = ')'
  · simpa [shuts] using taken
  by_cases quote : c = '"'
  · subst quote
    have same := isTriple_append_eq h w fun hu => by
      simp [hu, quoteExtent] at taken
      omega
    simpa [same] using taken
  by_cases hash : c = '#'
  · subst hash
    simp only [opens, shuts, quote, if_false, if_true] at taken ⊢
    have long : run (fun d => decide (d = '#')) (w ++ u) ≤ w.length := by
      split at taken
      · cases taken; omega
      · cases taken; exact inside
    rw [Text.run_append_eq (h.any_head?_eq_false (by decide)) w long]
    rw [List.drop_append_of_le_length long] at taken ⊢
    cases hw : w.drop (run (fun d => decide (d = '#')) (w ++ u)) with
    | cons d behind =>
      rw [hw] at taken
      have room : 1 + behind.length + run (fun d => decide (d = '#')) (w ++ u) = w.length := by
        have := congrArg List.length hw
        simp only [List.length_drop, List.length_cons] at this
        omega
      by_cases quoted : d = '"'
      · subst quoted
        have same := isTriple_append_eq h behind fun hu => by
          simp [hu, quoteExtent] at taken
          omega
        simpa [same] using taken
      · simpa [quoted] using taken
    | nil =>
      have all : w.length ≤ run (fun d => decide (d = '#')) (w ++ u) := List.drop_eq_nil_iff.1 hw
      rw [hw, List.nil_append] at taken
      rw [List.nil_append]
      have unquoted : ∀ rest, u ≠ '"' :: rest := by
        rintro rest rfl
        cases taken
        omega
      have unquoted' : ∀ rest, v ≠ '"' :: rest := by
        rintro rest rfl
        have ahead := h.delimiters ['"'] (by decide) rfl
        cases u with
        | nil => cases ahead
        | cons e u =>
          obtain rfl : '"' = e := by simpa using ahead
          exact unquoted u rfl
      split at taken
      · exact absurd rfl (unquoted _)
      · exact taken
  simp only [opens, shuts, quote, hash, if_false] at taken ⊢
  have fronts := h.toFronts
  by_cases line : Comment.beginsLine c (w ++ u) = true
  · rw [if_pos line] at taken
    obtain ⟨rfl, rfl⟩ := Prod.mk.inj taken
    have hw := List.ne_nil_of_length_pos (Nat.lt_of_lt_of_le (Comment.lineExtent_pos line) inside)
    rw [if_pos (by rw [Comment.beginsLine_append_eq fronts c w fun _ => hw]; exact line),
      Comment.lineExtent_append_eq fronts w inside]
  rw [if_neg line] at taken
  rw [if_neg (by rw [Comment.beginsLine_append_eq fronts c w fun hu => absurd hu line]; exact line)]
  by_cases block : Comment.beginsBlock c (w ++ u) = true
  · rw [if_pos block] at taken
    obtain ⟨rfl, rfl⟩ := Prod.mk.inj taken
    have hw := List.ne_nil_of_length_pos (Nat.lt_of_lt_of_le (Comment.extent_pos _) inside)
    rw [if_pos (by rw [Comment.beginsBlock_append_eq fronts c w fun _ => hw]; exact block)]
    cases closed : (Comment.block (w ++ u)).closed with
    | true => rw [Comment.block_append_of_closed hw closed inside]
    | false =>
      -- Nothing follows a comment left open, but the literal around it is not closed either.
      have whole := Comment.extent_of_not_closed (List.append_ne_nil_of_left_ne_nil hw u) closed
      rw [List.length_append] at whole
      have hu : u = [] := List.length_eq_zero_iff.1 (by omega)
      exact absurd (closes hu (List.drop_eq_nil_iff.2 (by omega))) (by simp)
  · rw [if_neg block] at taken
    rw [if_neg (by rw [Comment.beginsBlock_append_eq fronts c w fun hu => absurd hu block]; exact block)]
    exact taken

private theorem interpolationStep_inside (depth : Nat) (outer : List Mode) (c : Char) (rest : List Char) :
    (interpolationStep depth outer c rest).1 ≤ rest.length := by
  unfold interpolationStep
  have triple {s : List Char} : quoteExtent (isTriple s) ≤ s.length := by
    cases h : isTriple s with
    | false => exact Nat.zero_le _
    | true => exact (List.isPrefixOf_iff_prefix.1 h).length_le
  split
  · exact Nat.zero_le _
  split
  · exact Nat.zero_le _
  split
  · exact triple
  split
  · have hashes := Text.run_le_length (fun d => decide (d = '#')) rest
    dsimp only
    split
    · next behind hdrop =>
      have room := congrArg List.length hdrop
      simp only [List.length_drop, List.length_cons] at room
      have := @triple behind
      dsimp only
      omega
    · exact hashes
  split
  · exact Text.run_le_length _ rest
  split
  · next begins =>
    refine Comment.extent_le_length ?_
    rintro rfl
    simp [Comment.beginsBlock] at begins
  · exact Nat.zero_le _

private theorem textStep_inside {hashes : Nat} {multiline : Bool} {outer modes : List Mode} {c : Char}
    {rest : List Char} {k : Nat} (h : textStep hashes multiline outer c rest = some (k, modes)) : k ≤ rest.length := by
  rw [textStep_eq] at h
  split at h
  · next escape =>
    have ahead : hashes ≤ rest.length := by
      simpa using (List.isPrefixOf_iff_prefix.1 (Bool.and_eq_true_iff.1 escape).2).length_le
    split at h
    · cases h; exact ahead
    · next d hd =>
      have further := Text.lt_length_of_head?_drop hd
      repeat' split at h
      all_goals (cases h; omega)
  · split at h
    · next close =>
      have := (List.isPrefixOf_iff_prefix.1 (Bool.and_eq_true_iff.1 close).2).length_le
      cases h
      simpa [closer] using this
    · split at h
      · cases h
      · cases h; exact Nat.zero_le _

/-- The scanner stays inside the text. -/
theorem step_inside (modes : List Mode) (c : Char) (rest : List Char) (k : Nat) (after : List Mode)
    (h : step modes c rest = some (k, after)) : k ≤ rest.length := by
  match modes with
  | [] => cases h
  | .text hashes multiline :: outer => exact textStep_inside h
  | .interpolation depth :: outer =>
    simp only [step, Option.some.injEq] at h
    have inside := interpolationStep_inside depth outer c rest
    rwa [h] at inside

theorem extent_measure_le (hashes : Nat) (rest : List Char) : (measure hashes rest).extent ≤ rest.length := by
  have inside := Text.fst_walk_le_length step_inside [.text hashes (isTriple rest)]
    (rest.drop (quoteExtent (isTriple rest)))
  simp only [measure, scan]
  cases h : isTriple rest with
  | false => simpa [h, quoteExtent] using inside
  | true =>
    have := (List.isPrefixOf_iff_prefix.1 h).length_le
    simp only [h, quoteExtent, if_true, List.length_drop, List.length_cons, List.length_nil] at inside this ⊢
    omega

theorem step_append_eq {u v : List Char} (h : Fronts u v) {modes modes' : List Mode} {c : Char} {w : List Char}
    {k : Nat} (taken : step modes c (w ++ u) = some (k, modes')) (inside : k ≤ w.length)
    (closes : u = [] → w.drop k = [] → modes' = []) : step modes c (w ++ v) = some (k, modes') := by
  cases modes with
  | nil => cases taken
  | cons mode outer =>
    cases mode with
    | text hashes multiline => exact textStep_append_eq h taken inside closes
    | interpolation depth =>
      simp only [step, Option.some.injEq] at taken ⊢
      exact interpolationStep_append_eq h taken inside closes

/-- A scan that ends, closed or in front of something, does so before every text with such a front. -/
theorem passes_step_congr {u v : List Char} (h : Fronts u v) {modes modes' : List Mode} {w : List Char}
    (passed : Passes step u modes w modes') (ends : u ≠ [] ∨ modes' = []) : Passes step v modes w modes' := by
  refine passed.congr fun modes c w k after taken inside further => ?_
  refine step_append_eq h taken inside fun hu hw => ?_
  rw [hw] at further
  rcases ends with hne | rfl
  · exact absurd hu hne
  · exact further.eq_of_nil.symm

/-- The scanner halts outside of everything, and in a literal on one line where the line ends. -/
theorem step_eq_none_iff {modes : List Mode} {c : Char} {rest : List Char} :
    step modes c rest = none ↔
      modes = [] ∨ ∃ hashes outer, modes = .text hashes false :: outer ∧ Comment.isBreak c = true := by
  match modes with
  | [] => simp [step]
  | .interpolation depth :: outer => simp [step]
  | .text hashes multiline :: outer =>
    constructor
    · intro h
      simp only [step, textStep] at h
      split at h
      · repeat' split at h
        all_goals cases h
      · split at h
        · cases h
        · split at h
          · next hline =>
            rw [Bool.and_eq_true, Bool.not_eq_true'] at hline
            exact .inr ⟨hashes, outer, by rw [hline.1], hline.2⟩
          · cases h
    · rintro (h | ⟨hashes, outer, h, hbreak⟩)
      · cases h
      · cases h
        have plain : c ≠ '\\' ∧ c ≠ '"' := by
          constructor <;> (rintro rfl; exact absurd hbreak (by decide))
        simp [step, textStep, plain, hbreak]

theorem walk_step_alike {u v : List Char} (h : Alike u v) {modes : List Mode}
    (halts : walk step modes u = (0, modes)) (ends : u ≠ [] ∨ modes = []) : walk step modes v = (0, modes) := by
  cases v with
  | nil => simp
  | cons c v =>
    refine Text.walk_halt (step_eq_none_iff.2 ?_)
    rcases ends with hne | rfl
    · obtain ⟨d, u, rfl⟩ := List.exists_cons_of_ne_nil hne
      rcases step_eq_none_iff.1 (Text.step_eq_none_of_walk halts) with rfl | ⟨hashes, outer, rfl, hbreak⟩
      · exact .inl rfl
      · refine .inr ⟨hashes, outer, rfl, ?_⟩
        rcases h.head?_cases with breaks | same
        · rw [breaks c rfl]; decide
        · cases same; exact hbreak
    · exact .inl rfl

/-- What ends a scan at the front of `u` ends it at the front of `v`. -/
structure Stops (u v : List Char) : Prop where
  fronts : Fronts u v
  halts : ∀ modes, u ≠ [] ∨ modes = [] → walk step modes u = (0, modes) → walk step modes v = (0, modes)

theorem stops_of_alike {u v : List Char} (h : Alike u v) : Stops u v :=
  ⟨fronts_of_alike h, fun _ ends halts => walk_step_alike h halts ends⟩

/-- A literal that ends before `u` ends there before `v`. -/
theorem measure_append_eq {u v : List Char} (h : Stops u v) {hashes : Nat} {w : List Char}
    (hle : (measure hashes (w ++ u)).extent = w.length) (ends : (measure hashes (w ++ u)).closed = false → u ≠ []) :
    measure hashes (w ++ v) = measure hashes (w ++ u) := by
  have long : quoteExtent (isTriple (w ++ u)) ≤ w.length := by
    rw [← hle]
    exact Nat.le_add_right _ _
  have same := isTriple_append_eq h.fronts w fun hu => by simpa [hu, quoteExtent] using long
  simp only [measure, scan, same, List.drop_append_of_le_length long] at hle ends ⊢
  generalize isTriple (w ++ u) = multiline at *
  generalize hmodes : (walk step [.text hashes multiline] (w.drop (quoteExtent multiline) ++ u)).2 = modes at *
  obtain ⟨passed, halts⟩ := Text.passes_of_walk (t := modes) (Prod.ext (by simp; omega) hmodes)
  have either : u ≠ [] ∨ modes = [] := by
    cases modes with
    | nil => exact .inr rfl
    | cons mode outer => exact .inl (ends rfl)
  have before := passed.walk_eq
  have behind := (passes_step_congr h.fronts passed either).walk_eq
  rw [halts] at before
  rw [h.halts modes either halts] at behind
  rw [before, behind]

end Literal

end SwiftTemplate.Swift
