import SwiftTemplate.Proofs.Swift.Reading
import SwiftTemplate.Proofs.Text.LineEnds

/-!
# Swift with longer line ends

The tokens of a text are the same where its lines end with `\r\n`. What changes are the blanks between
the tokens, the line breaks inside comments and inside literals on several lines, and an identifier
whose back quotes are left open at the end of a line, which then takes the `\r` along.
-/
namespace SwiftTemplate.Swift

open Text (Bridges Passes crlf walk run)

namespace Comment

theorem beginsLine_crlf (c : Char) (rest : List Char) : beginsLine c (crlf rest) = beginsLine c rest := by
  simp [beginsLine, Text.head?_crlf]

theorem beginsBlock_crlf (c : Char) (rest : List Char) : beginsBlock c (crlf rest) = beginsBlock c rest := by
  simp [beginsBlock, Text.head?_crlf]

/-- A line comment ends in front of either kind of line end. -/
theorem lineExtent_crlf (rest : List Char) : lineExtent (crlf rest) = lineExtent rest :=
  Text.run_crlf rfl rfl rest

theorem newline_not_mem_take_lineExtent (rest : List Char) : '\n' ∉ rest.take (lineExtent rest) :=
  Text.newline_not_mem_take_run rfl rest

theorem blockStep_crlf (depth : Nat) (c : Char) (rest : List Char) :
    blockStep depth c (crlf rest) = blockStep depth c rest := by
  simp [blockStep, beginsBlock_crlf, Text.head?_crlf]

/-- A mark of two characters is on one line. -/
theorem newline_not_mem_of_blockStep {depth after : Nat} {c : Char} {w u : List Char}
    (h : blockStep depth c (w ++ u) = some (w.length, after)) : '\n' ∉ w := by
  obtain ⟨open_comment, ⟨long, -⟩ | ⟨short, -⟩⟩ := blockStep_cases h
  · obtain ⟨d, rfl⟩ := List.length_eq_one_iff.1 long
    rw [List.mem_singleton]
    rintro rfl
    simp [blockStep, open_comment, beginsBlock] at h
  · rw [List.length_eq_zero_iff.1 short]
    simp

theorem bridges_blockStep : Bridges blockStep where
  inside := by
    intro depth c rest k after h
    obtain ⟨-, ⟨rfl, hrest⟩ | ⟨rfl, -⟩⟩ := blockStep_cases h
    · exact List.length_pos_iff.2 hrest
    · exact Nat.zero_le _
  takes := by
    intro depth c w u after hc h
    refine Text.passes_step_crlf (newline_not_mem_of_blockStep h) ?_
    rw [blockStep_crlf]
    exact h
  takesBreak := by
    intro depth rest k after h
    obtain ⟨open_comment, ⟨rfl, hrest⟩ | ⟨rfl, rfl⟩⟩ := blockStep_cases h
    · simp [blockStep, open_comment, beginsBlock] at h
    · simp [blockStep, open_comment, beginsBlock]
  halts := by
    intro depth c rest hc h
    rw [blockStep_crlf]
    exact h
  haltsBreak := by
    intro depth rest h other
    rw [depth_of_blockStep_eq_none h]
    rfl

/-- A block comment takes along the longer line ends inside it. -/
theorem exists_block_crlf {rest : List Char} (h : rest.head? = some '*') : ∃ w u closed, rest = w ++ u ∧
    block rest = ⟨w.length, closed⟩ ∧ block (crlf rest) = ⟨(crlf w).length, closed⟩ := by
  obtain ⟨rest, rfl⟩ := List.head?_eq_some_iff.1 h
  obtain ⟨w, u, depth, rfl, own, other⟩ := bridges_blockStep.exists_walk_crlf 1 rest
  have star : ∀ s, crlf ('*' :: s) = '*' :: crlf s := Text.crlf_cons (by decide)
  refine ⟨'*' :: w, u, depth = 0, rfl, ?_, ?_⟩
  · simp [block, own, Nat.add_comm]
  · rw [star, star]
    simp only [block, List.drop_succ_cons, List.drop_zero, other, List.length_cons, Nat.add_comm]

theorem closed_block_crlf {rest : List Char} (h : rest.head? = some '*') :
    (block (crlf rest)).closed = (block rest).closed := by
  obtain ⟨w, u, closed, -, own, other⟩ := exists_block_crlf h
  rw [own, other]

section Machines

variable {σ : Type} {step : σ → Char → List Char → Option (Nat × σ)} {s t : σ} {c : Char} {w u : List Char}

/-- A machine that takes a line comment takes the same one. -/
theorem passes_line_crlf (own : lineExtent (w ++ u) = w.length)
    (taken : step s c (crlf (w ++ u)) = some (lineExtent (crlf (w ++ u)), t)) :
    Passes step (crlf u) s (c :: crlf w) t := by
  refine Text.passes_step_crlf ?_ ?_
  · have plain := newline_not_mem_take_lineExtent (w ++ u)
    rwa [own, List.take_left] at plain
  · rw [taken, lineExtent_crlf, own]

/-- A machine that takes a block comment takes the longer line ends inside it along. -/
theorem passes_block_crlf (star : (w ++ u).head? = some '*') (own : (block (w ++ u)).extent = w.length)
    (taken : step s c (crlf (w ++ u)) = some ((block (crlf (w ++ u))).extent, t)) :
    Passes step (crlf u) s (c :: crlf w) t := by
  obtain ⟨inner, rest, closed, split, comment, other⟩ := exists_block_crlf star
  rw [comment] at own
  obtain ⟨rfl, rfl⟩ := List.append_inj split own.symm
  rw [other, Text.crlf_append] at taken
  exact Text.passes_step taken

end Machines

theorem head?_of_beginsBlock {c : Char} {rest : List Char} (h : beginsBlock c rest = true) : rest.head? = some '*' :=
  of_decide_eq_true (Bool.and_eq_true_iff.1 h).2

end Comment

namespace Trivia

theorem bridges_leadingStep : Bridges leadingStep where
  inside := by
    intro left_open c rest k after h
    rcases leadingStep_cases h with ⟨-, rfl, -⟩ | ⟨-, rfl, -⟩ | ⟨-, block, rfl, -⟩
    · exact Nat.zero_le _
    · exact Text.run_le_length _ _
    · exact extent_le_of_beginsBlock block
  takes := by
    intro left_open c w u after hc h
    by_cases space : isSpace c = true
    · rw [leadingStep, if_pos space] at h
      obtain ⟨short, rfl⟩ := Prod.mk.inj (Option.some.inj h)
      refine Text.passes_step_crlf ?_ ?_
      · rw [List.length_eq_zero_iff.1 short.symm]
        simp
      · rw [leadingStep, if_pos space, short]
    by_cases line : Comment.beginsLine c (w ++ u) = true
    · rw [leadingStep, if_neg space, if_pos line] at h
      obtain ⟨extent, rfl⟩ := Prod.mk.inj (Option.some.inj h)
      refine Comment.passes_line_crlf extent ?_
      rw [leadingStep, if_neg space, Comment.beginsLine_crlf, if_pos line]
    by_cases block : Comment.beginsBlock c (w ++ u) = true
    · rw [leadingStep, if_neg space, if_neg line, if_pos block] at h
      obtain ⟨extent, rfl⟩ := Prod.mk.inj (Option.some.inj h)
      have star := Comment.head?_of_beginsBlock block
      refine Comment.passes_block_crlf star extent ?_
      rw [leadingStep, if_neg space, Comment.beginsLine_crlf, if_neg line, Comment.beginsBlock_crlf, if_pos block]
      dsimp only
      rw [Comment.closed_block_crlf star]
    · rw [leadingStep, if_neg space, if_neg line, if_neg block] at h
      cases h
  takesBreak := by
    intro left_open rest k after h
    cases h
    exact ⟨rfl, rfl, fun other => ⟨rfl, rfl⟩⟩
  halts := by
    intro left_open c rest hc h
    unfold leadingStep at h ⊢
    rw [Comment.beginsLine_crlf, Comment.beginsBlock_crlf]
    repeat' split at h
    all_goals simp_all
  haltsBreak := by
    intro left_open rest h
    cases h

/-- Whether a block comment ends on its line does not depend on how lines end. -/
theorem stays_crlf {rest : List Char} (h : rest.head? = some '*') : stays (crlf rest) = stays rest := by
  obtain ⟨w, u, closed, rfl, own, other⟩ := Comment.exists_block_crlf h
  have taken : (crlf (w ++ u)).take (crlf w).length = crlf w := by rw [Text.crlf_append, List.take_left]
  simp only [stays, own, other, taken, List.take_left, Text.contains_newline_crlf]

theorem trailingStep_eq (c : Char) (rest : List Char) : trailingStep () c rest =
    if Text.isSpaceOrTab c then some (0, ())
    else if Comment.beginsLine c rest then some (Comment.lineExtent rest, ())
    else if Comment.beginsBlock c rest && stays rest then some ((Comment.block rest).extent, ())
    else none := by
  unfold trailingStep
  cases Comment.beginsBlock c rest <;> rfl

theorem bridges_trailingStep : Bridges trailingStep where
  inside := by
    intro _ c rest k _ h
    rcases trailingStep_cases h with ⟨-, rfl⟩ | ⟨-, rfl⟩ | ⟨-, block, -, rfl⟩
    · exact Nat.zero_le _
    · exact Text.run_le_length _ _
    · exact extent_le_of_beginsBlock block
  takes := by
    intro _ c w u _ hc h
    rw [trailingStep_eq] at h
    by_cases blank : Text.isSpaceOrTab c = true
    · rw [if_pos blank] at h
      obtain ⟨short, -⟩ := Prod.mk.inj (Option.some.inj h)
      refine Text.passes_step_crlf ?_ ?_
      · rw [List.length_eq_zero_iff.1 short.symm]
        simp
      · rw [trailingStep_eq, if_pos blank, short]
    rw [if_neg blank] at h
    by_cases line : Comment.beginsLine c (w ++ u) = true
    · rw [if_pos line] at h
      obtain ⟨extent, -⟩ := Prod.mk.inj (Option.some.inj h)
      refine Comment.passes_line_crlf extent ?_
      rw [trailingStep_eq, if_neg blank, Comment.beginsLine_crlf, if_pos line]
    rw [if_neg line] at h
    by_cases block : (Comment.beginsBlock c (w ++ u) && stays (w ++ u)) = true
    · have star := Comment.head?_of_beginsBlock (Bool.and_eq_true_iff.1 block).1
      rw [if_pos block] at h
      obtain ⟨extent, -⟩ := Prod.mk.inj (Option.some.inj h)
      refine Comment.passes_block_crlf star extent ?_
      rw [trailingStep_eq, if_neg blank, Comment.beginsLine_crlf, if_neg line, Comment.beginsBlock_crlf, stays_crlf star,
        if_pos block]
    · rw [if_neg block] at h
      cases h
  takesBreak := by
    intro _ rest k _ h
    cases h
  halts := by
    intro _ c rest hc h
    rw [trailingStep_eq] at h ⊢
    rw [Comment.beginsLine_crlf, Comment.beginsBlock_crlf]
    split at h
    · cases h
    next blank =>
    split at h
    · cases h
    next line =>
    split at h
    · cases h
    next block =>
    rw [if_neg blank, if_neg line, if_neg]
    rw [Bool.and_eq_true, not_and] at block ⊢
    intro begins
    rw [stays_crlf (Comment.head?_of_beginsBlock begins)]
    exact block begins
  haltsBreak := by
    intro _ rest h other
    rfl

end Trivia

namespace Literal

theorem hashesAhead_crlf (n : Nat) (s : List Char) : hashesAhead n (crlf s) = hashesAhead n s := by
  refine Text.isPrefixOf_crlf ?_ s
  intro c hc
  rw [(List.mem_replicate.1 hc).2]
  decide

theorem isTriple_crlf (rest : List Char) : isTriple (crlf rest) = isTriple rest := by
  refine Text.isPrefixOf_crlf ?_ rest
  intro c hc
  obtain rfl : c = '"' := by simpa using hc
  decide

/-- In a literal a line end is taken as it is, or the literal ends in front of it. -/
theorem textStep_break {hashes : Nat} {multiline : Bool} {outer : List Mode} {c : Char} (hc : Comment.isBreak c = true)
    (rest : List Char) : textStep hashes multiline outer c rest
      = if multiline then some (0, .text hashes multiline :: outer) else none := by
  have plain : c ≠ '\\' ∧ c ≠ '"' := by
    constructor <;> (rintro rfl; cases hc)
  cases multiline <;> simp [textStep, plain, hc]

theorem interpolationStep_break {depth : Nat} {outer : List Mode} {c : Char} (hc : Comment.isBreak c = true)
    (rest : List Char) : interpolationStep depth outer c rest = (0, .interpolation depth :: outer) := by
  rcases Bool.or_eq_true_iff.1 hc with sign | sign
  · rw [of_decide_eq_true sign]
    simp [interpolationStep, Comment.beginsLine, Comment.beginsBlock]
  · rw [of_decide_eq_true sign]
    simp [interpolationStep, Comment.beginsLine, Comment.beginsBlock]

/-! ### Steps through the text of a literal -/

/-- An escape depends on the character behind its signs. -/
theorem textStep_escape (hashes : Nat) (multiline : Bool) (outer : List Mode) (rest : List Char) :
    textStep hashes multiline outer '\\' (List.replicate hashes '#' ++ rest) =
      match rest.head? with
      | none => some (hashes, .text hashes multiline :: outer)
      | some d =>
        if d = '(' then some (hashes + 1, .interpolation 0 :: .text hashes multiline :: outer)
        else if !multiline && Comment.isBreak d then some (hashes, .text hashes multiline :: outer)
        else some (hashes + 1, .text hashes multiline :: outer) := by
  have ahead : hashesAhead hashes (List.replicate hashes '#' ++ rest) = true :=
    List.isPrefixOf_iff_prefix.2 (List.prefix_append _ _)
  rw [textStep_eq, if_pos (by simp [ahead])]
  generalize hbehind : (List.replicate hashes '#' ++ rest).drop hashes = behind
  obtain rfl : behind = rest := by
    rw [← hbehind]
    simp
  cases behind with
  | nil => rfl
  | cons d behind => rfl

/-- Whether an escape begins with the character `c` before `rest`. -/
def escapes (hashes : Nat) (c : Char) (rest : List Char) : Bool := c = '\\' && hashesAhead hashes rest

theorem textStep_crlf {hashes : Nat} {multiline : Bool} {c : Char} {rest : List Char}
    (h : escapes hashes c rest = false) (outer : List Mode) :
    textStep hashes multiline outer c (crlf rest) = textStep hashes multiline outer c rest := by
  have closes : (closer hashes multiline).isPrefixOf (crlf rest) = (closer hashes multiline).isPrefixOf rest := by
    refine Text.isPrefixOf_crlf ?_ rest
    intro d hd
    rcases List.mem_append.1 hd with hd | hd
    · rw [(List.mem_replicate.1 hd).2]
      decide
    · rw [(List.mem_replicate.1 hd).2]
      decide
  unfold escapes at h
  rw [textStep_eq, textStep_eq, hashesAhead_crlf, closes, h]
  rfl

/-- What is taken along that is no escape is a delimiter, on one line. -/
theorem newline_not_mem_of_textStep {hashes k : Nat} {multiline : Bool} {c : Char} {rest : List Char}
    {outer modes : List Mode} (h : escapes hashes c rest = false)
    (taken : textStep hashes multiline outer c rest = some (k, modes)) : '\n' ∉ rest.take k := by
  unfold escapes at h
  rw [textStep_eq, h, if_neg Bool.false_ne_true] at taken
  split at taken
  · next closes =>
    cases taken
    obtain ⟨behind, rfl⟩ := List.isPrefixOf_iff_prefix.1 (Bool.and_eq_true_iff.1 closes).2
    have length : quoteExtent multiline + hashes = (closer hashes multiline).length := by simp [closer]
    rw [length, List.take_left]
    simp [closer]
  · split at taken
    · cases taken
    · cases taken
      simp

/-- An escape covers a line break only in a literal on several lines, and then the first of the two
characters of a longer one. -/
theorem passes_escape_crlf {hashes : Nat} {multiline : Bool} {outer modes : List Mode} {c : Char} {w u : List Char}
    (h : escapes hashes c (w ++ u) = true)
    (taken : textStep hashes multiline outer c (w ++ u) = some (w.length, modes)) :
    Passes step (crlf u) (.text hashes multiline :: outer) (c :: crlf w) modes := by
  obtain ⟨sign, ahead⟩ := Bool.and_eq_true_iff.1 h
  obtain rfl := of_decide_eq_true sign
  obtain ⟨rest, split⟩ := List.isPrefixOf_iff_prefix.1 ahead
  have plain : '\n' ∉ List.replicate hashes '#' := by simp
  have whole : crlf (w ++ u) = List.replicate hashes '#' ++ crlf rest := by
    rw [← split, Text.crlf_append, Text.crlf_of_not_mem plain]
  rw [← split, textStep_escape] at taken
  cases rest with
  | nil =>
    refine Text.passes_step_crlf ?_ ?_
    · intro hmem
      rw [List.append_nil] at split
      rw [split] at plain
      exact plain (List.mem_append_left u hmem)
    · rw [whole, step, textStep_escape]
      exact taken
  | cons d rest =>
    by_cases hd : d = '\n'
    · subst hd
      cases multiline with
      | false =>
        obtain ⟨length, rfl⟩ := Prod.mk.inj (Option.some.inj taken)
        obtain ⟨rfl, rfl⟩ := List.append_inj split (by rw [List.length_replicate, length])
        refine Text.passes_step_crlf plain ?_
        rw [whole, step, textStep_escape, List.length_replicate]
        rfl
      | true =>
        obtain ⟨length, rfl⟩ := Prod.mk.inj (Option.some.inj taken)
        have cut : (List.replicate hashes '#' ++ ['\n']) ++ rest = w ++ u := by
          rw [← split]
          simp
        obtain ⟨rfl, rfl⟩ := List.append_inj cut (by simpa using length)
        have longer : crlf (List.replicate hashes '#' ++ ['\n']) = List.replicate hashes '#' ++ ['\r', '\n'] := by
          rw [Text.crlf_append, Text.crlf_of_not_mem plain]
          rfl
        rw [longer]
        refine .take (k := hashes + 1) (t := .text hashes true :: outer) ?_ (by simp) ?_
        · rw [List.append_assoc, step, textStep_escape]
          rfl
        · have left : (List.replicate hashes '#' ++ ['\r', '\n']).drop (hashes + 1) = ['\n'] := by
            rw [← List.drop_drop, List.drop_left' (List.length_replicate ..)]
            rfl
          rw [left]
          refine Text.passes_step ?_
          rw [step, textStep_break rfl]
          rfl
    · rw [Text.crlf_cons hd] at whole
      refine Text.passes_step_crlf ?_ ?_
      · have bound : w.length ≤ hashes + 1 := by
          dsimp only [List.head?_cons] at taken
          repeat' split at taken
          all_goals
            have length := (Prod.mk.inj (Option.some.inj taken)).1
            omega
        have front : List.replicate hashes '#' ++ [d] <+: w ++ u := by
          rw [← split]
          exact ⟨rest, by simp⟩
        have inside : w <+: List.replicate hashes '#' ++ [d] :=
          List.prefix_of_prefix_length_le (List.prefix_append w u) front (by simpa using bound)
        intro hmem
        rcases List.mem_append.1 (inside.subset hmem) with hmem | hmem
        · exact plain hmem
        · exact hd (List.mem_singleton.1 hmem).symm
      · rw [whole, step, textStep_escape]
        exact taken

/-! ### Steps through the code of an interpolation -/

theorem newline_not_mem_take_quotes (rest : List Char) : '\n' ∉ rest.take (quoteExtent (isTriple rest)) := by
  cases triple : isTriple rest with
  | false => simp [quoteExtent]
  | true =>
    obtain ⟨behind, rfl⟩ := List.isPrefixOf_iff_prefix.1 triple
    simp [quoteExtent]

theorem interpolationStep_crlf {c : Char} {rest : List Char} (block : Comment.beginsBlock c rest = false) (depth : Nat)
    (outer : List Mode) :
    interpolationStep depth outer c (crlf rest) = interpolationStep depth outer c rest := by
  unfold interpolationStep
  dsimp only
  rw [isTriple_crlf, Text.run_crlf rfl rfl, Text.drop_run_crlf rfl, Comment.beginsLine_crlf, Comment.beginsBlock_crlf,
    Comment.lineExtent_crlf, block]
  cases rest.drop (run (· = '#') rest) with
  | nil => rfl
  | cons d behind =>
    by_cases hd : d = '\n'
    · subst hd
      rfl
    · rw [Text.crlf_cons hd]
      by_cases quote : d = '"'
      · subst quote
        simp only [isTriple_crlf]
        rfl
      · simp [quote]

theorem interpolationStep_block {c : Char} {rest : List Char} (block : Comment.beginsBlock c rest = true) (depth : Nat)
    (outer : List Mode) :
    interpolationStep depth outer c rest = ((Comment.block rest).extent, .interpolation depth :: outer) := by
  obtain rfl := Comment.slash_of_beginsBlock block
  have line : Comment.beginsLine '/' rest = false := by simp [Comment.beginsLine, Comment.head?_of_beginsBlock block]
  simp [interpolationStep, line, block]

/-- What is taken along that is no block comment is on one line. -/
theorem newline_not_mem_of_interpolationStep {depth k : Nat} {outer modes : List Mode} {c : Char} {rest : List Char}
    (block : Comment.beginsBlock c rest = false) (h : interpolationStep depth outer c rest = (k, modes)) :
    '\n' ∉ rest.take k := by
  unfold interpolationStep at h
  split at h
  · cases h
    simp
  split at h
  · cases h
    simp
  split at h
  · cases h
    exact newline_not_mem_take_quotes rest
  split at h
  · have hashes := @Text.newline_not_mem_take_run (· = '#') rfl rest
    dsimp only at h
    split at h
    · next behind hdrop =>
      cases h
      rw [Nat.add_assoc, List.take_add, hdrop, Nat.add_comm 1, List.take_succ_cons, List.mem_append, List.mem_cons]
      rintro (hmem | hmem | hmem)
      · exact hashes hmem
      · cases hmem
      · exact newline_not_mem_take_quotes behind hmem
    · cases h
      exact hashes
  split at h
  · cases h
    exact Comment.newline_not_mem_take_lineExtent rest
  rw [block] at h
  cases h
  simp

theorem bridges_step : Bridges step where
  inside := by
    intro modes c rest k after h
    exact step_inside modes c rest k after h
  takes := by
    intro modes c w u after hc h
    rcases modes with _ | ⟨⟨hashes, multiline⟩ | depth, outer⟩
    · cases h
    · cases escape : escapes hashes c (w ++ u) with
      | true => exact passes_escape_crlf escape h
      | false =>
        refine Text.passes_step_crlf ?_ ?_
        · have plain := newline_not_mem_of_textStep escape h
          rwa [List.take_left] at plain
        · rw [step, textStep_crlf escape]
          exact h
    · have own : interpolationStep depth outer c (w ++ u) = (w.length, after) := Option.some.inj h
      cases block : Comment.beginsBlock c (w ++ u) with
      | true =>
        rw [interpolationStep_block block] at own
        obtain ⟨extent, rfl⟩ := Prod.mk.inj own
        refine Comment.passes_block_crlf (Comment.head?_of_beginsBlock block) extent ?_
        rw [step, interpolationStep_block ((Comment.beginsBlock_crlf _ _).trans block)]
      | false =>
        refine Text.passes_step_crlf ?_ ?_
        · have plain := newline_not_mem_of_interpolationStep block own
          rwa [List.take_left] at plain
        · rw [step, interpolationStep_crlf block, own]
  takesBreak := by
    intro modes rest k after h
    rcases modes with _ | ⟨⟨hashes, multiline⟩ | depth, outer⟩
    · cases h
    · rw [step, textStep_break rfl] at h
      cases multiline with
      | false => cases h
      | true =>
        cases h
        refine ⟨rfl, rfl, fun other => ?_⟩
        rw [step, step, textStep_break rfl, textStep_break rfl]
        exact ⟨rfl, rfl⟩
    · rw [step, interpolationStep_break rfl] at h
      cases h
      refine ⟨rfl, rfl, fun other => ?_⟩
      rw [step, step, interpolationStep_break rfl, interpolationStep_break rfl]
      exact ⟨rfl, rfl⟩
  halts := by
    intro modes c rest hc h
    exact step_eq_none_iff.2 (step_eq_none_iff.1 h)
  haltsBreak := by
    intro modes rest h other
    rcases step_eq_none_iff.1 h with outside | ⟨hashes, outer, line, -⟩
    · exact step_eq_none_iff.2 (.inl outside)
    · exact step_eq_none_iff.2 (.inr ⟨hashes, outer, line, rfl⟩)

/-- A literal takes along the longer line ends inside it. -/
theorem exists_measure_crlf (hashes : Nat) (rest : List Char) : ∃ w u closed, rest = w ++ u ∧
    measure hashes rest = ⟨w.length, closed⟩ ∧ measure hashes (crlf rest) = ⟨(crlf w).length, closed⟩ := by
  have plain := newline_not_mem_take_quotes rest
  have triple : quoteExtent (isTriple rest) ≤ rest.length := by
    cases h : isTriple rest with
    | false => exact Nat.zero_le _
    | true => exact (List.isPrefixOf_iff_prefix.1 h).length_le
  obtain ⟨w, u, modes, split, own, other⟩ :=
    bridges_step.exists_walk_crlf [.text hashes (isTriple rest)] (rest.drop (quoteExtent (isTriple rest)))
  refine ⟨rest.take (quoteExtent (isTriple rest)) ++ w, u, modes.isEmpty, ?_, ?_, ?_⟩
  · rw [List.append_assoc, ← split, List.take_append_drop]
  · simp [measure, scan, own, List.length_take_of_le triple]
  · rw [Text.crlf_append, Text.crlf_of_not_mem plain]
    simp [measure, scan, isTriple_crlf, Text.drop_crlf plain, other, List.length_take_of_le triple]

end Literal

namespace Word

theorem isInside_return : isInside '\r' = false := by decide +kernel

end Word

namespace Number

theorem digitAhead_crlf (s : List Char) : digitAhead (crlf s) = digitAhead s := Text.any_head?_crlf (by decide) s

theorem fraction_crlf (s : List Char) : fraction (crlf s) = fraction s := by
  cases s with
  | nil => rfl
  | cons c s =>
    by_cases hc : c = '\n'
    · subst hc
      rfl
    · rw [Text.crlf_cons hc, fraction, fraction, digitAhead_crlf, Text.run_crlf (by decide) (by decide)]

theorem signAhead_crlf (s : List Char) : signAhead (crlf s) = signAhead s := by
  simp [signAhead, Text.head?_crlf]

theorem exponent_crlf (s : List Char) : exponent (crlf s) = exponent s := by
  cases s with
  | nil => rfl
  | cons c s =>
    by_cases hc : c = '\n'
    · subst hc
      simp [exponent_cons]
    · have sign := Text.drop_crlf (newline_not_mem_take_sign s)
      rw [Text.crlf_cons hc, exponent_cons, exponent_cons, signAhead_crlf, sign, digitAhead_crlf,
        Text.run_crlf (by decide) (by decide)]

theorem beginsRadix_crlf (c : Char) (rest : List Char) : beginsRadix c (crlf rest) = beginsRadix c rest := by
  simp [beginsRadix, Text.head?_crlf]

/-- A number does not depend on how lines end. -/
theorem measure_crlf (c : Char) (rest : List Char) : measure c (crlf rest) = measure c rest := by
  unfold measure
  rw [beginsRadix_crlf]
  by_cases radix : beginsRadix c rest = true
  · rw [if_pos radix, if_pos radix, Text.drop_crlf (newline_not_mem_take_letter radix),
      Text.run_crlf (by decide) (by decide)]
  · have whole : '\n' ∉ rest.take (run isDigitOrGap rest) := Text.newline_not_mem_take_run (by decide) rest
    have part := Text.not_mem_take_add whole (newline_not_mem_take_fraction _)
    have power := Text.not_mem_take_add part (newline_not_mem_take_exponent _)
    rw [if_neg radix, if_neg radix]
    dsimp only
    rw [Text.run_crlf (by decide) (by decide), Text.drop_crlf whole, fraction_crlf, Text.drop_crlf part, exponent_crlf,
      Text.drop_crlf power, Text.run_crlf Word.isInside_return Word.isInside_newline]

end Number

/-! ## Lexemes and tokens -/

/-- What is left of two texts of which the second has the longer line ends. The `\r` of the first line
end may be gone already. -/
def Follows (u v : List Char) : Prop := v = crlf u ∨ ∃ rest, u = '\n' :: rest ∧ v = '\n' :: crlf rest

namespace Lexeme

/-- Two lexemes of one kind, the first in front of a text, the second in front of the same text with
longer line ends, with the same text behind them. -/
structure Agree (rest : List Char) (own other : Lexeme) : Prop where
  kind : other.kind = own.kind
  unterminated : other.unterminated = own.unterminated
  behind : Follows (rest.drop own.extent) ((crlf rest).drop other.extent)

variable {rest : List Char}

/-- A lexeme on one line is the same. -/
theorem agree_of_not_mem {own : Lexeme} (h : '\n' ∉ rest.take own.extent) : Agree rest own own :=
  ⟨rfl, rfl, .inl (Text.drop_crlf h)⟩

/-- Whether a character may stand between back quotes. -/
def isQuotable (c : Char) : Bool := c ≠ '\x60' && c ≠ '\n'

theorem quotedExtent_append {front back : List Char} (hfront : front.all isQuotable = true)
    (hback : back.head?.any isQuotable = false) :
    quotedExtent (front ++ back) = if back.head? = some '\x60' then front.length + 1 else front.length := by
  have name : run (fun c => decide (c ≠ '\x60') && decide (c ≠ '\n')) (front ++ back) = front.length :=
    Text.run_append_of_all hfront hback
  unfold quotedExtent
  rw [name]
  dsimp only
  rw [List.drop_left]

/-- A quoted identifier that its line leaves open takes the `\r` of the line end along. -/
theorem agree_quoted (rest : List Char) :
    Agree rest ⟨.identifier, quotedExtent rest, false⟩ ⟨.identifier, quotedExtent (crlf rest), false⟩ := by
  have hfront := Text.all_take_run isQuotable rest
  have hback := Text.any_head?_drop_run isQuotable rest
  have plain : '\n' ∉ rest.take (run isQuotable rest) := Text.newline_not_mem_take_run (by decide) rest
  have split : rest = rest.take (run isQuotable rest) ++ rest.drop (run isQuotable rest) :=
    (List.take_append_drop _ rest).symm
  generalize rest.take (run isQuotable rest) = front at *
  generalize rest.drop (run isQuotable rest) = back at *
  subst split
  have longer : crlf (front ++ back) = front ++ crlf back := by rw [Text.crlf_append, Text.crlf_of_not_mem plain]
  have own := quotedExtent_append hfront hback
  cases back with
  | nil =>
    rw [longer, Text.crlf_nil]
    refine agree_of_not_mem ?_
    intro hmem
    have := List.mem_of_mem_take hmem
    rw [List.append_nil] at this
    exact plain this
  | cons c back =>
    by_cases hc : c = '\n'
    · subst hc
      have open_end : (front ++ ['\r']).all isQuotable = true := by
        rw [List.all_append, hfront]
        decide
      have other := @quotedExtent_append (front ++ ['\r']) ('\n' :: crlf back) open_end rfl
      refine ⟨rfl, rfl, .inr ⟨back, ?_, ?_⟩⟩
      · dsimp only
        rw [own, if_neg (by simp), List.drop_left]
      · have cut : crlf (front ++ '\n' :: back) = (front ++ ['\r']) ++ '\n' :: crlf back := by
          rw [longer]
          simp
        dsimp only
        rw [cut, other, if_neg (by simp), List.drop_left]
    · have quote : c = '\x60' := by simpa [isQuotable, hc] using hback
      subst quote
      have other := @quotedExtent_append front ('\x60' :: crlf back) hfront rfl
      rw [longer, Text.crlf_cons hc, other, own]
      refine ⟨rfl, rfl, .inl ?_⟩
      simp only [List.head?_cons, if_true]
      rw [longer, Text.crlf_cons hc, ← List.drop_drop, ← List.drop_drop, List.drop_left, List.drop_left]
      rfl

/-- A literal takes along the longer line ends inside it. -/
theorem agree_literal {hashes more : Nat} {behind : List Char} (plain : '\n' ∉ rest.take more)
    (h : rest.drop more = behind) :
    Agree rest ⟨.string, more + (Literal.measure hashes behind).extent, !(Literal.measure hashes behind).closed⟩
      ⟨.string, more + (Literal.measure hashes (crlf behind)).extent, !(Literal.measure hashes (crlf behind)).closed⟩ := by
  obtain ⟨w, u, closed, rfl, own, other⟩ := Literal.exists_measure_crlf hashes behind
  rw [own, other]
  refine ⟨rfl, rfl, .inl ?_⟩
  dsimp only
  rw [← List.drop_drop, ← List.drop_drop, Text.drop_crlf plain, h, Text.crlf_append, List.drop_left, List.drop_left]

theorem operatorExtent_crlf (rest : List Char) : operatorExtent (crlf rest) = operatorExtent rest := by
  induction rest with
  | nil => rfl
  | cons c rest ih =>
    by_cases hc : c = '\n'
    · subst hc
      rfl
    · rw [Text.crlf_cons hc, operatorExtent, operatorExtent, Comment.beginsLine_crlf, Comment.beginsBlock_crlf, ih]

theorem newline_not_mem_take_operatorExtent (rest : List Char) : '\n' ∉ rest.take (operatorExtent rest) := by
  induction rest with
  | nil => simp
  | cons c rest ih =>
    rw [operatorExtent]
    split
    · simp
    · next goesOn =>
      rw [Nat.add_comm, List.take_succ_cons, List.mem_cons, not_or]
      refine ⟨?_, ih⟩
      rintro rfl
      exact goesOn rfl

theorem quotes_crlf (rest : List Char) : quotes (crlf rest) = quotes rest := by
  simp [quotes, Text.run_crlf, Text.drop_run_crlf, Text.head?_crlf]

/-- Whether a string literal begins with the character `c` before `rest`. -/
def opensLiteral (c : Char) (rest : List Char) : Bool := c = '"' || (c = '#' && quotes rest)

theorem agree_literal_of_quotes (quoted : quotes rest = true) : Agree rest (pound rest) (pound (crlf rest)) := by
  have hashes : '\n' ∉ rest.take (run (fun c => decide (c = '#')) rest) := Text.newline_not_mem_take_run rfl rest
  obtain ⟨behind, hbehind⟩ := List.head?_eq_some_iff.1 (of_decide_eq_true quoted)
  have longer : (crlf rest).drop (run (fun c => decide (c = '#')) (crlf rest)) = '"' :: crlf behind := by
    rw [Text.run_crlf rfl rfl, Text.drop_crlf hashes, hbehind, Text.crlf_cons (by decide)]
  rw [pound_of_drop_eq hbehind, pound_of_drop_eq longer, Text.run_crlf rfl rfl]
  refine agree_literal (Text.not_mem_take_add hashes ?_) ?_
  · rw [hbehind]
    simp
  · rw [← List.drop_drop, hbehind]
    rfl

theorem newline_not_mem_take_quotedExtent (rest : List Char) : '\n' ∉ rest.take (quotedExtent rest) := by
  have name : '\n' ∉ rest.take (run (fun c => decide (c ≠ '\x60') && decide (c ≠ '\n')) rest) :=
    Text.newline_not_mem_take_run rfl rest
  unfold quotedExtent
  dsimp only
  split
  · next closes =>
    obtain ⟨behind, hbehind⟩ := List.head?_eq_some_iff.1 closes
    refine Text.not_mem_take_add name ?_
    rw [hbehind]
    simp
  · exact name

/-- What is no string literal is on one line. -/
theorem newline_not_mem_take_readLong {c : Char} (plain : opensLiteral c rest = false) :
    '\n' ∉ rest.take (readLong c rest).extent := by
  have inside : '\n' ∉ rest.take (run Word.isInside rest) := Text.newline_not_mem_take_run Word.isInside_newline rest
  have quote : c ≠ '"' := by simpa using (Bool.or_eq_false_iff.1 plain).1
  unfold readLong
  rw [if_neg quote]
  split
  · next hash =>
    have unquoted : quotes rest = false := by simpa [opensLiteral, hash] using plain
    rw [pound_of_not_quotes unquoted]
    split
    · exact inside
    · simp
  split
  · exact newline_not_mem_take_quotedExtent rest
  split
  · exact inside
  split
  · exact Number.newline_not_mem_take_measure c rest
  split
  · split
    · exact Text.newline_not_mem_take_run (by decide) rest
    · simp
  split
  · exact newline_not_mem_take_operatorExtent rest
  split
  · exact inside
  · simp

/-- Literals and quoted identifiers apart, what begins with a character does not depend on how lines end. -/
theorem readLong_crlf {c : Char} (plain : opensLiteral c rest = false) (tick : c ≠ '\x60') :
    readLong c (crlf rest) = readLong c rest := by
  have quote : c ≠ '"' := by simpa using (Bool.or_eq_false_iff.1 plain).1
  have inside : run Word.isInside (crlf rest) = run Word.isInside rest :=
    Text.run_crlf Word.isInside_return Word.isInside_newline rest
  have point := @Text.head?_crlf '.' (by decide) rest
  unfold readLong
  rw [if_neg quote, if_neg quote]
  split
  · next hash =>
    have unquoted : quotes rest = false := by simpa [opensLiteral, hash] using plain
    rw [pound_of_not_quotes unquoted, pound_of_not_quotes ((quotes_crlf rest).trans unquoted),
      Text.any_head?_crlf (by decide +kernel), inside]
  split
  · rw [inside]
  split
  · rw [Number.measure_crlf]
  split
  · simp only [point]
    split
    · rw [Text.run_crlf (by decide) (by decide)]
    · rfl
  split
  · dsimp only
    rw [operatorExtent_crlf, Text.take_crlf (newline_not_mem_take_operatorExtent rest)]
  split
  · dsimp only
    rw [inside, Text.take_crlf (Text.newline_not_mem_take_run Word.isInside_newline rest)]
  · rfl

theorem agree_readLong (c : Char) (rest : List Char) : Agree rest (readLong c rest) (readLong c (crlf rest)) := by
  by_cases plain : opensLiteral c rest = false
  · by_cases tick : c = '\x60'
    · subst tick
      exact agree_quoted rest
    · rw [readLong_crlf plain tick]
      exact agree_of_not_mem (newline_not_mem_take_readLong plain)
  · rw [Bool.not_eq_false, opensLiteral, Bool.or_eq_true, decide_eq_true_eq, Bool.and_eq_true, decide_eq_true_eq] at plain
    rcases plain with rfl | ⟨rfl, quoted⟩
    · have literal := @agree_literal rest 0 0 rest (by simp) rfl
      simpa [readLong] using literal
    · exact agree_literal_of_quotes quoted

/-- What begins with a character is the same where lines have longer ends. -/
theorem agree_read (c : Char) (rest : List Char) : Agree rest (read c rest) (read c (crlf rest)) := by
  unfold read
  split
  · exact agree_of_not_mem (by simp)
  · exact agree_readLong c rest

end Lexeme

namespace Trivia

/-- The trivia before a token takes the longer line ends along, or what is left of them. -/
theorem exists_leading_follows {u v : List Char} (h : Follows u v) : ∃ before after rest left_open,
    u = before ++ rest ∧ v = after ++ crlf rest ∧ leading u = (before.length, left_open) ∧
      leading v = (after.length, left_open) := by
  have step (s : List Char) : leadingStep false '\n' s = some (0, false) := rfl
  rcases h with rfl | ⟨rest, rfl, rfl⟩
  · obtain ⟨w, rest, left_open, rfl, own, other⟩ := bridges_leadingStep.exists_walk_crlf false u
    exact ⟨w, crlf w, rest, left_open, rfl, Text.crlf_append w rest, own, other⟩
  · obtain ⟨w, rest, left_open, rfl, own, other⟩ := bridges_leadingStep.exists_walk_crlf false rest
    refine ⟨'\n' :: w, '\n' :: crlf w, rest, left_open, rfl, ?_, ?_, ?_⟩
    · rw [Text.crlf_append]
      rfl
    · rw [leading, Text.walk_take (step _), List.drop_zero, own, List.length_cons, Nat.zero_add, Nat.add_comm]
    · rw [leading, Text.walk_take (step _), List.drop_zero, other, List.length_cons, Nat.zero_add, Nat.add_comm]

/-- Behind the trivia before a token no line ends. -/
theorem head?_drop_leading (text : List Char) : (text.drop (leading text).1).head? ≠ some '\n' := by
  intro breaks
  obtain ⟨rest, hrest⟩ := List.head?_eq_some_iff.1 breaks
  have halts := @Text.walk_drop_walk _ leadingStep false text
  rw [show (text.drop (walk leadingStep false text).1) = '\n' :: rest from hrest,
    Text.walk_take (show leadingStep _ '\n' rest = some (0, _) from rfl)] at halts
  have none := congrArg Prod.fst halts
  dsimp only at none
  omega

/-- The trivia behind a token ends in front of the line end. -/
theorem follows_drop_trailing {u v : List Char} (h : Follows u v) :
    Follows (u.drop (trailing u)) (v.drop (trailing v)) := by
  rcases h with rfl | ⟨rest, rfl, rfl⟩
  · obtain ⟨w, rest, _, rfl, own, other⟩ := bridges_trailingStep.exists_walk_crlf () u
    rw [trailing, trailing, own, other, Text.crlf_append, List.drop_left, List.drop_left]
    exact .inl rfl
  · have none (s : List Char) : trailing ('\n' :: s) = 0 := congrArg Prod.fst (Text.walk_halt rfl)
    rw [none, none]
    exact .inr ⟨rest, rfl, rfl⟩

end Trivia

namespace Token

/-- The first tokens of two texts of which the second has the longer line ends are of one kind, and
what is left behind them are such texts again. -/
theorem next_follows {u v : List Char} (h : Follows u v) : (next v).1.kind = (next u).1.kind ∧
    ((next u).1.kind ≠ .endOfText →
      (∃ c rest, u = (next u).1.leading ++ c :: rest ∧ v = (next v).1.leading ++ c :: crlf rest) ∧
        Follows (next u).2 (next v).2) := by
  obtain ⟨before, after, rest, left_open, rfl, rfl, own, other⟩ := Trivia.exists_leading_follows h
  have unbroken := Trivia.head?_drop_leading (before ++ rest)
  unfold next
  rw [own] at unbroken ⊢
  rw [other]
  dsimp only at unbroken ⊢
  rw [List.drop_left] at unbroken ⊢
  rw [List.drop_left, List.take_left, List.take_left]
  cases rest with
  | nil => exact ⟨rfl, fun filled => absurd rfl filled⟩
  | cons c rest =>
    have hc : c ≠ '\n' := by simpa using unbroken
    obtain ⟨kind, -, behind⟩ := Lexeme.agree_read c rest
    rw [Text.crlf_cons hc]
    exact ⟨kind, fun _ => ⟨⟨c, rest, rfl, rfl⟩, Trivia.follows_drop_trailing behind⟩⟩

end Token

end SwiftTemplate.Swift
