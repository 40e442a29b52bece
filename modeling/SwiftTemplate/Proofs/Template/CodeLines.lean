import SwiftTemplate.Proofs.Template.Slices

/-!
# Lines of code and literal text

A line of code is a whole line of the template, and every line that has the shape of one is a
segment of its own unless a substitution or a block goes on over its start. What is left between the
other segments is literal text, in stretches as long as they can be.
-/
namespace SwiftTemplate.Template.Segment

/-! ## Lines -/

/-- Whether a line begins behind some text, which itself stands at the start of a line or not. -/
def lineBehind (atLineStart : Bool) (front : List Char) : Bool :=
  match front.getLast? with
  | none => atLineStart
  | some c => c = '\n'

/-- A line begins behind a text: the text is empty or ends with a line break. -/
def BeginsLine (front : List Char) : Prop := front = [] ∨ front.getLast? = some '\n'

/-- The place behind `front` is inside a segment, neither at its start nor at its end. -/
def Inside (front : List Char) (before : List Segment) (segment : Segment) : Prop :=
  ∃ inner rest, inner ≠ [] ∧ rest ≠ [] ∧ segment.text = inner ++ rest ∧ front = before.flatMap Segment.text ++ inner

/-- A sign that would begin a substitution or a block, but has no end in the text behind it. -/
def Unterminated (text behind : List Char) : Prop :=
  ∃ code, behind = '\x7b' :: code ∧
    (text = ['$'] ∧ substitutionExtent? code = none ∨ text = ['%'] ∧ blockExtent? code = none)

section Lines

variable {c : Char} {front line text behind : List Char} {atLineStart : Bool}

theorem lineBehind_cons (atLineStart : Bool) (c : Char) (front : List Char) :
    lineBehind atLineStart (c :: front) = lineBehind (c = '\n') front := by
  cases front with
  | nil => rfl
  | cons d front => simp [lineBehind, List.getLast?_cons]

theorem lineBehind_append (atLineStart : Bool) (front inner : List Char) :
    lineBehind atLineStart (front ++ inner) = lineBehind (lineBehind atLineStart front) inner := by
  induction front generalizing atLineStart with
  | nil => rfl
  | cons c front ih => rw [List.cons_append, lineBehind_cons, lineBehind_cons, ih]

theorem lineBehind_iff : lineBehind true front = true ↔ BeginsLine front := by
  unfold lineBehind BeginsLine
  cases last : front.getLast? with
  | none => simp [List.getLast?_eq_none_iff.1 last]
  | some c =>
    have filled : front ≠ [] := by
      rintro rfl
      cases last
    simp [filled]

/-- Inside a line no line begins. -/
theorem IsLine.not_beginsLine {inner rest : List Char} (h : IsLine (inner ++ rest) behind) (hinner : inner ≠ [])
    (hrest : rest ≠ []) : ¬ BeginsLine inner := by
  rintro (rfl | last)
  · exact hinner rfl
  · obtain ⟨line, plain, shape⟩ := h
    obtain ⟨start, rfl⟩ := List.getLast?_eq_some_iff.1 last
    apply plain
    rcases shape with broken | ⟨whole, -⟩
    · obtain ⟨rest, d, rfl⟩ := List.eq_nil_or_concat rest |>.resolve_left hrest
      rw [List.concat_eq_append, ← List.append_assoc] at broken
      rw [← (List.append_inj' broken rfl).1]
      simp
    · rw [← whole]
      simp

end Lines

/-! ## Literal text -/

/-- Literal text before `left`: no sign is in it, nor the start of a line of code, and it goes on up
to one of these or to the end of the template. -/
structure IsLiteral (atLineStart : Bool) (taken left : List Char) : Prop where
  plain : ∀ c ∈ taken, c ≠ '$' ∧ c ≠ '%'
  passes : ∀ inner rest, taken = inner ++ rest → rest ≠ [] → lineBehind atLineStart inner = true →
    beginsCodeLine (rest ++ left) = false
  stops : left = [] ∨ (∃ c rest, left = c :: rest ∧ (c = '$' ∨ c = '%')) ∨
    lineBehind atLineStart taken = true ∧ beginsCodeLine left = true

theorem exists_literalExtent (atLineStart : Bool) (text : List Char) :
    ∃ taken left, text = taken ++ left ∧ taken.length = literalExtent atLineStart text ∧
      IsLiteral atLineStart taken left := by
  induction text generalizing atLineStart with
  | nil => exact ⟨[], [], rfl, rfl, by simp, by simp, .inl rfl⟩
  | cons c text ih =>
    by_cases stops : (c = '$' || c = '%' || (atLineStart && beginsCodeLine (c :: text))) = true
    · refine ⟨[], c :: text, rfl, ?_, by simp, ?_, .inr ?_⟩
      · rw [literalExtent, if_pos stops]
        rfl
      · intro inner rest split filled
        exact absurd (List.append_eq_nil_iff.1 split.symm).2 filled
      · simp only [Bool.or_eq_true, Bool.and_eq_true, decide_eq_true_eq] at stops
        rcases stops with sign | code
        · exact .inl ⟨c, text, rfl, sign⟩
        · exact .inr code
    · obtain ⟨taken, left, split, length, plain, passes, ends⟩ := ih (c = '\n')
      have own : c ≠ '$' ∧ c ≠ '%' ∧ ¬ (atLineStart = true ∧ beginsCodeLine (c :: text) = true) := by
        simpa [not_or, and_assoc] using stops
      refine ⟨c :: taken, left, ?_, ?_, ?_, ?_, ?_⟩
      · rw [split]
        rfl
      · rw [literalExtent, if_neg stops, List.length_cons, length]
        omega
      · intro d hd
        rcases List.mem_cons.1 hd with rfl | hd
        · exact ⟨own.1, own.2.1⟩
        · exact plain d hd
      · intro inner rest cut filled starts
        cases inner with
        | nil =>
          have start : atLineStart = true := starts
          have code : ¬ beginsCodeLine (c :: text) = true := fun code => own.2.2 ⟨start, code⟩
          rw [List.nil_append] at cut
          rw [← cut, List.cons_append, ← split]
          simpa using code
        | cons d inner =>
          obtain ⟨rfl, rest'⟩ := List.cons.inj cut
          rw [lineBehind_cons] at starts
          exact passes inner rest rest' filled starts
      · rw [lineBehind_cons]
        exact ends

/-! ## Segments by kind -/

section Kinds

variable {c : Char} {rest : List Char} {atLineStart : Bool} {extent : Nat}

/-- At the start of a line of code a segment of this kind begins. -/
theorem measure_of_beginsCodeLine (h : beginsCodeLine (c :: rest) = true) :
    measure true c rest = (.codeLine, lineExtent rest) := by
  unfold measure
  rcases front_of_beginsCodeLine h with blank | ⟨rfl, d, ahead, block, sign⟩
  · have other : c ≠ '$' ∧ c ≠ '%' := by
      constructor
      · rintro rfl
        cases blank
      · rintro rfl
        cases blank
    simp [other, h]
  · simp [ahead, block, sign, h]

theorem isLine_of_measure (h : measure atLineStart c rest = (.codeLine, extent)) :
    atLineStart = true ∧ IsLine (c :: rest.take extent) (rest.drop extent) := by
  obtain ⟨start, indent, line, ending, text, blanks, plain, shape⟩ := exists_of_measure_eq_codeLine h
  refine ⟨start, indent ++ '%' :: line, newline_not_mem blanks plain, ?_⟩
  rw [text]
  rcases shape with rfl | ⟨rfl, final⟩
  · exact .inl (by simp)
  · exact .inr ⟨by simp, final⟩

/-- A literal is a sign without an end, or a character with literal text behind it. -/
theorem exists_of_measure_literal (h : measure atLineStart c rest = (.literal, extent)) :
    Unterminated (c :: rest.take extent) (rest.drop extent) ∨
      ∃ taken left, rest = taken ++ left ∧ taken.length = extent ∧ IsLiteral (c = '\n') taken left := by
  cases measured_of_measure h with
  | openSubstitution none => exact .inl ⟨_, rfl, .inl ⟨rfl, none⟩⟩
  | openBlock none => exact .inl ⟨_, rfl, .inr ⟨rfl, none⟩⟩
  | literal => exact .inr (exists_literalExtent (c = '\n') rest)

end Kinds

/-! ## Segments in their template -/

/-- How a segment is read from the place where it stands. -/
structure Read (atLineStart : Bool) (segment : Segment) (behind : List Segment) : Prop where
  measured : ∃ c rest extent, measure atLineStart c rest = (segment.kind, extent) ∧
    segment.text = c :: rest.take extent ∧ behind.flatMap Segment.text = rest.drop extent

theorem read_of_ofTextFrom {offset : Nat} {atLineStart : Bool} {text : List Char} {before behind : List Segment}
    {segment : Segment} (h : ofTextFrom offset atLineStart text = before ++ segment :: behind) :
    Read (lineBehind atLineStart (before.flatMap Segment.text)) segment behind := by
  fun_induction ofTextFrom offset atLineStart text generalizing before with
  | case1 => simp at h
  | case2 offset atLineStart c rest measured text =>
    rename_i ih
    cases before with
    | nil =>
      obtain ⟨rfl, rfl⟩ := List.cons.inj h
      exact ⟨c, rest, measured.2, rfl, rfl, flatMap_text_ofTextFrom _ _ _⟩
    | cons first before =>
      obtain ⟨rfl, further⟩ := List.cons.inj h
      have own : decide (text.getLast? = some '\n') = lineBehind atLineStart text := by
        rw [lineBehind, List.getLast?_eq_some_getLast (List.cons_ne_nil _ _)]
        simp
      rw [List.flatMap_cons, lineBehind_append, ← own]
      exact ih further

theorem exists_at {segments : List Segment} {front line : List Char} (h : segments.flatMap Segment.text = front ++ line)
    (hline : line ≠ []) :
    ∃ before segment behind inner rest, segments = before ++ segment :: behind ∧ segment.text = inner ++ rest ∧
      rest ≠ [] ∧ front = before.flatMap Segment.text ++ inner ∧ line = rest ++ behind.flatMap Segment.text := by
  induction segments generalizing front with
  | nil => exact absurd (List.append_eq_nil_iff.1 h.symm).2 hline
  | cons segment segments ih =>
    rw [List.flatMap_cons] at h
    rcases List.append_eq_append_iff.1 h with ⟨more, rfl, others⟩ | ⟨rest, text, rfl⟩
    · obtain ⟨before, found, behind, inner, rest, rfl, text, filled, rfl, rfl⟩ := ih others
      exact ⟨segment :: before, found, behind, inner, rest, rfl, text, filled, by simp, rfl⟩
    · by_cases filled : rest = []
      · subst filled
        obtain ⟨before, found, behind, inner, rest, rfl, own, filled, split, place⟩ := @ih [] rfl
        obtain ⟨none, rfl⟩ := List.append_eq_nil_iff.1 split.symm
        refine ⟨segment :: before, found, behind, [], rest, rfl, own, filled, ?_, place⟩
        simp [none, text]
      · exact ⟨[], segment, segments, front, rest, rfl, text, filled, rfl, rfl⟩

section Template

variable {template : List Char} {before behind : List Segment} {segment : Segment}

/-- No line of code begins inside a segment, unless this is a substitution or a block. -/
theorem not_isCodeLine_of_inside (h : ofText template = before ++ segment :: behind) {inner rest : List Char}
    (text : segment.text = inner ++ rest) (hinner : inner ≠ []) (hrest : rest ≠ [])
    (starts : BeginsLine (before.flatMap Segment.text ++ inner))
    (kind : ¬ (segment.kind = .substitution ∨ segment.kind = .codeBlock)) :
    ¬ IsCodeLine (rest ++ behind.flatMap Segment.text) := by
  obtain ⟨c, others, extent, measured, own, left⟩ := (read_of_ofTextFrom h).measured
  have last : BeginsLine inner := by
    right
    rcases starts with none | last
    · exact absurd (List.append_eq_nil_iff.1 none).2 hinner
    · rw [List.getLast?_append] at last
      obtain ⟨d, hd⟩ := Option.ne_none_iff_exists'.1 fun none => hinner (List.getLast?_eq_none_iff.1 none)
      rw [hd] at last ⊢
      exact last
  have long : 1 < segment.text.length := by
    have := List.length_pos_iff.2 hinner
    have := List.length_pos_iff.2 hrest
    rw [text, List.length_append]
    omega
  rw [own] at text long
  cases hkind : segment.kind with
  | substitution => exact absurd (.inl hkind) kind
  | codeBlock => exact absurd (.inr hkind) kind
  | codeLine =>
    rw [hkind] at measured
    have line := (isLine_of_measure measured).2
    rw [text] at line
    exact absurd last (line.not_beginsLine hinner hrest)
  | doubled =>
    rw [hkind] at measured
    obtain ⟨sign, pair⟩ := exists_of_measure_eq_doubled measured
    rw [pair] at text
    obtain ⟨d, inner, rfl⟩ := List.exists_cons_of_ne_nil hinner
    obtain ⟨rfl, more⟩ := List.cons.inj text
    rcases List.append_eq_singleton_iff.1 more.symm with ⟨rfl, -⟩ | ⟨-, rfl⟩
    · rcases last with none | last
      · cases none
      · obtain rfl : c = '\n' := by simpa using last
        rcases sign with sign | sign
        · cases sign
        · cases sign
    · exact absurd rfl hrest
  | literal =>
    rw [hkind] at measured
    intro code
    obtain ⟨d, inner, rfl⟩ := List.exists_cons_of_ne_nil hinner
    rcases exists_of_measure_literal measured with ⟨_, _, ⟨single, -⟩ | ⟨single, -⟩⟩ | ⟨taken, after, rfl, rfl, literal⟩
    · rw [single] at long
      simp at long
    · rw [single] at long
      simp at long
    · rw [List.take_left] at text
      rw [List.drop_left] at left
      obtain ⟨rfl, split⟩ := List.cons.inj text
      have behind' : lineBehind (c = '\n') inner = true := by
        rw [← lineBehind_cons true]
        exact lineBehind_iff.2 last
      have none := literal.passes inner rest split hrest behind'
      rw [left, ← beginsCodeLine_iff, none] at code
      cases code

/-- Two literals are next to each other only at a sign. -/
theorem sign_of_adjacent {first second : Segment} (h : ofText template = before ++ first :: second :: behind)
    (hfirst : first.kind = .literal) (hsecond : second.kind = .literal) :
    Unterminated first.text ((second :: behind).flatMap Segment.text) ∨
      ∃ c rest, second.text = c :: rest ∧ (c = '$' ∨ c = '%') := by
  obtain ⟨c, rest, extent, measured, own, left⟩ := (read_of_ofTextFrom h).measured
  have split : ofText template = (before ++ [first]) ++ second :: behind := by
    rw [h]
    simp
  obtain ⟨d, others, extent', measured', own', left'⟩ := (read_of_ofTextFrom split).measured
  rw [hfirst] at measured
  rcases exists_of_measure_literal measured with unterminated | ⟨taken, after, rfl, rfl, literal⟩
  · rw [own, left]
    exact .inl unterminated
  · right
    rw [List.drop_left] at left
    rw [List.take_left] at own
    rw [List.flatMap_cons, own', List.cons_append, left', List.take_append_drop] at left
    rcases literal.stops with none | ⟨e, more, sign, signs⟩ | ⟨starts, code⟩
    · rw [none] at left
      cases left
    · rw [sign] at left
      obtain ⟨rfl, -⟩ := List.cons.inj left
      exact ⟨d, _, own', signs⟩
    · rw [← left] at code
      have line : lineBehind true ((before ++ [first]).flatMap Segment.text) = true := by
        rw [List.flatMap_append, lineBehind_append, List.flatMap_singleton, own, lineBehind_cons]
        exact starts
      rw [line, hsecond, measure_of_beginsCodeLine code] at measured'
      cases measured'

end Template

/-- Every line of code is a whole line of the template, and every line that has the shape of one is
such a segment unless its start is inside a substitution or a block. A literal has a sign only as its
first character, and goes on up to the next sign, line of code or end of the template: two literals
are next to each other only if the first is a sign without an end, or the second begins with a sign. -/
theorem ofText_codeLines (template : List Char) :
    (∀ before segment behind, ofText template = before ++ segment :: behind → segment.kind = .codeLine →
      BeginsLine (before.flatMap Segment.text) ∧ IsLine segment.text (behind.flatMap Segment.text)) ∧
    (∀ front line, template = front ++ line → BeginsLine front → IsCodeLine line →
      (∀ before segment behind, ofText template = before ++ segment :: behind →
        segment.kind = .substitution ∨ segment.kind = .codeBlock → ¬ Inside front before segment) →
      ∃ before segment behind, ofText template = before ++ segment :: behind ∧
        before.flatMap Segment.text = front ∧ segment.offset = Text.byteSize front ∧ segment.kind = .codeLine) ∧
    (∀ segment ∈ ofText template, segment.kind = .literal → ∀ c ∈ segment.text.tail, c ≠ '$' ∧ c ≠ '%') ∧
    ∀ before first second behind, ofText template = before ++ first :: second :: behind →
      first.kind = .literal → second.kind = .literal →
      Unterminated first.text ((second :: behind).flatMap Segment.text) ∨
        ∃ c rest, second.text = c :: rest ∧ (c = '$' ∨ c = '%') := by
  refine ⟨?_, ?_, ?_, ?_⟩
  · intro before segment behind h kind
    obtain ⟨c, rest, extent, measured, text, left⟩ := (read_of_ofTextFrom h).measured
    rw [kind] at measured
    obtain ⟨starts, line⟩ := isLine_of_measure measured
    rw [text, left]
    exact ⟨lineBehind_iff.1 starts, line⟩
  · intro front line h starts code outside
    have filled : line ≠ [] := by
      obtain ⟨indent, c, rest, rfl, -⟩ := code
      simp
    have whole : (ofText template).flatMap Segment.text = front ++ line := (flatMap_text_ofText template).trans h
    obtain ⟨before, segment, behind, inner, rest, split, text, hrest, rfl, rfl⟩ := exists_at whole filled
    by_cases hinner : inner = []
    · subst hinner
      rw [List.append_nil] at starts ⊢
      obtain ⟨c, others, extent, measured, own, left⟩ := (read_of_ofTextFrom split).measured
      have place : rest ++ behind.flatMap Segment.text = c :: others := by
        rw [List.nil_append] at text
        rw [← text, own, left, List.cons_append, List.take_append_drop]
      rw [place] at code
      have offset := offset_of_ofTextFrom split
      rw [lineBehind_iff.2 starts, measure_of_beginsCodeLine (beginsCodeLine_iff.2 code)] at measured
      refine ⟨before, segment, behind, split, rfl, ?_, ?_⟩
      · rw [offset, Nat.zero_add]
      · exact (Prod.mk.inj measured).1.symm
    · by_cases kind : segment.kind = .substitution ∨ segment.kind = .codeBlock
      · exact absurd ⟨inner, rest, hinner, hrest, text, rfl⟩ (outside before segment behind split kind)
      · exact absurd code (not_isCodeLine_of_inside split text hinner hrest starts kind)
  · intro segment hmem kind c hc
    obtain ⟨before, behind, split⟩ := List.append_of_mem hmem
    obtain ⟨d, rest, extent, measured, text, -⟩ := (read_of_ofTextFrom split).measured
    rw [kind] at measured
    rw [text, List.tail_cons] at hc
    rcases exists_of_measure_literal measured with ⟨_, _, ⟨single, -⟩ | ⟨single, -⟩⟩ | ⟨taken, after, rfl, rfl, literal⟩
    · rw [(List.cons.inj single).2] at hc
      cases hc
    · rw [(List.cons.inj single).2] at hc
      cases hc
    · rw [List.take_left] at hc
      exact literal.plain c hc
  · intro before first second behind h hfirst hsecond
    exact sign_of_adjacent h hfirst hsecond

/-- A line of code behind a substitution and its line break, and a block without an end behind it. -/
theorem ofText_codeLines_indented :
    (∃ before segment behind, ofText "$\x7bx\x7d\n\t% f()\n%\x7b y".toList = before ++ segment :: behind ∧
      before.flatMap Segment.text = "$\x7bx\x7d\n".toList ∧ segment.offset = 5 ∧ segment.kind = .codeLine) ∧
    (Unterminated ['%'] "\x7b y".toList ∨ ∃ c rest, "\x7b y".toList = c :: rest ∧ (c = '$' ∨ c = '%')) := by
  have segments : ofText "$\x7bx\x7d\n\t% f()\n%\x7b y".toList
      = ⟨.substitution, "$\x7bx\x7d".toList, 0⟩ :: [⟨.literal, ['\n'], 4⟩, ⟨.codeLine, "\t% f()\n".toList, 5⟩,
        ⟨.literal, ['%'], 12⟩, ⟨.literal, "\x7b y".toList, 13⟩] := by
    decide +kernel
  obtain ⟨-, lines, -, adjacent⟩ := ofText_codeLines "$\x7bx\x7d\n\t% f()\n%\x7b y".toList
  constructor
  · apply lines "$\x7bx\x7d\n".toList "\t% f()\n%\x7b y".toList
    · decide
    · exact .inr (by decide)
    · exact ⟨['\t'], ' ', _, rfl, by decide, by decide, by decide⟩
    · intro before segment behind h kind
      rw [segments] at h
      rintro ⟨inner, rest, -, filled, text, place⟩
      cases before with
      | nil =>
        -- The only substitution ends in front of the line break.
        obtain ⟨rfl, -⟩ := List.cons.inj h
        have short := congrArg List.length text
        have long := congrArg List.length place
        have := List.length_pos_iff.2 filled
        simp at short long
        omega
      | cons first before =>
        have hmem : segment ∈ before ++ segment :: behind := by simp
        obtain ⟨-, others⟩ := List.cons.inj h
        have none : ∀ other ∈ before.append (segment :: behind),
            ¬ (other.kind = .substitution ∨ other.kind = .codeBlock) := by
          rw [← others]
          decide
        exact none segment hmem kind
  · exact adjacent [⟨.substitution, "$\x7bx\x7d".toList, 0⟩, ⟨.literal, ['\n'], 4⟩,
      ⟨.codeLine, "\t% f()\n".toList, 5⟩] ⟨.literal, ['%'], 12⟩ ⟨.literal, "\x7b y".toList, 13⟩ [] segments rfl rfl

end SwiftTemplate.Template.Segment
