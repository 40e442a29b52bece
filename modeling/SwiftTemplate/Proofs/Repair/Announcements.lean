import SwiftTemplate.Proofs.Repair.MovedLines

/-!
# What directives announce behind repair

A directive is given its number when it lands, and no later round writes it again. What it announces
is the line below the one it then stood on.
-/
namespace SwiftTemplate

namespace Swift

/-- What some tokens spell, without the trivia around them. -/
def Token.spelling : List Token → List Char
  | [] => []
  | [token] => token.text
  | token :: next :: tokens => token.text ++ token.trailing ++ next.leading ++ spelling (next :: tokens)

theorem Token.spelling_prepend (kept : List Char) (tokens : List Token) :
    spelling (prepend kept tokens) = spelling tokens := by
  cases tokens with
  | nil => rfl
  | cons token tokens => cases tokens <;> rfl

namespace Source

/-- The tokens of the directive at some place. -/
def directiveTokens (source : Source) (place : Nat × Directive) : List Token :=
  (source.tokens.drop place.1).take place.2.size

/-- The text of the directive at some place. -/
def directiveText (source : Source) (place : Nat × Directive) : List Char :=
  Token.spelling (source.directiveTokens place)

end Source

end Swift

namespace Repair

open Swift
open Swift.Token (prepend)

/-- A round of repair moves the directive of a problem, and puts it in at some place. -/
def Lands (text : List Char) (problem : Problem) (landing : Nat × Directive) : Prop :=
  ∃ index, directiveOn? (Source.ofText text) problem.line = some (index, landing.2) ∧
    firstFit? ((Draft.ofTokens (Source.ofText text).tokens).detach index landing.2.size).1
      ((Draft.ofTokens (Source.ofText text).tokens).detach index landing.2.size).2 index
      = some (relocate text problem.line) ∧
    placed ((Draft.ofTokens (Source.ofText text).tokens).detach index landing.2.size).1
      ((Draft.ofTokens (Source.ofText text).tokens).detach index landing.2.size).2 landing.1
      = (relocate text problem.line, (Source.ofText (relocate text problem.line)).lineOf landing.1)

theorem Moves.concat {rounds : Nat} {text moved : List Char} (h : Moves rounds text moved) {problem : Problem}
    {others : List Problem} (flagged : problems moved = problem :: others) :
    Moves (rounds + 1) text (relocate moved problem.line) := by
  induction h with
  | none text => exact .first flagged (.none _)
  | first flagged' further ih => exact .first flagged' (ih flagged)

/-! ## Where a directive comes from -/

/-- Some tokens are those of a directive of a program, perhaps behind more trivia. -/
def Original (text : List Char) (tokens : List Token) : Prop :=
  ∃ place ∈ (Source.ofText text).directives, ∃ kept,
    tokens = prepend kept ((Source.ofText text).directiveTokens place)

/-- Some tokens are those of a directive that landed in a round of the repair of a program, perhaps behind
more trivia, and announce the line below the one on which it landed. -/
def Landed (text : List Char) (tokens : List Token) : Prop :=
  ∃ rounds reached problem others landing, rounds < budget text ∧ Moves rounds text reached ∧
    problems reached = problem :: others ∧ Lands reached problem landing ∧
    landing ∈ (Source.ofText (relocate reached problem.line)).directives ∧
    ∃ unit kept more, (Source.ofText (relocate reached problem.line)).directiveTokens landing = prepend kept unit ∧
      tokens = prepend more unit ∧
      ∀ trivia behind, Directive.announced? (prepend trivia unit ++ behind)
        = (some ((Source.ofText (relocate reached problem.line)).lineOf landing.1 + 1)).filter (· < Directive.lineBound)

/-- Every directive with a line among some parts has its number from the program or from where it landed. -/
def Traced (text : List Char) (parts : List Part) : Prop :=
  ∀ part ∈ parts, part.form? = some .located → Original text part.tokens ∨ Landed text part.tokens

/-! ## Parts by where they come from -/

section
variable {text : List Char}

theorem Original.prepend {tokens : List Token} (h : Original text tokens) (trivia : List Char) :
    Original text (Token.prepend trivia tokens) := by
  obtain ⟨place, hplace, kept, rfl⟩ := h
  exact ⟨place, hplace, trivia ++ kept, Token.prepend_prepend trivia kept _⟩

theorem Landed.prepend {tokens : List Token} (h : Landed text tokens) (trivia : List Char) :
    Landed text (Token.prepend trivia tokens) := by
  obtain ⟨rounds, reached, problem, others, landing, hrounds, run, flagged, lands, hmem, unit, kept, more, hlanding,
    rfl, announces⟩ := h
  exact ⟨rounds, reached, problem, others, landing, hrounds, run, flagged, lands, hmem, unit, kept, trivia ++ more,
    hlanding, Token.prepend_prepend trivia more unit, announces⟩

/-- More trivia in front changes no part but for trivia. -/
theorem exists_of_mem_pend {trivia : List Char} {parts : List Part} {part : Part} (h : part ∈ pend trivia parts) :
    ∃ other ∈ parts, part.form? = other.form? ∧ ∃ more, part.tokens = Token.prepend more other.tokens := by
  cases parts with
  | nil => cases h
  | cons first parts =>
    have later : part ∈ parts → ∃ other ∈ first :: parts, part.form? = other.form? ∧
        ∃ more, part.tokens = Token.prepend more other.tokens := by
      intro hmem
      exact ⟨part, List.mem_cons_of_mem _ hmem, rfl, [], (Token.prepend_nil _).symm⟩
    cases first with
    | plain token =>
      rcases List.mem_cons.1 h with rfl | hmem
      · exact ⟨.plain token, List.mem_cons_self, rfl, trivia, rfl⟩
      · exact later hmem
    | fixed form tokens =>
      rcases List.mem_cons.1 h with rfl | hmem
      · exact ⟨.fixed form tokens, List.mem_cons_self, rfl, trivia, rfl⟩
      · exact later hmem
    | moved form kept tokens =>
      rcases List.mem_cons.1 h with rfl | hmem
      · exact ⟨.moved form kept tokens, List.mem_cons_self, rfl, trivia,
          (Token.prepend_prepend trivia kept tokens).symm⟩
      · exact later hmem

theorem traced_append {parts others : List Part} :
    Traced text (parts ++ others) ↔ Traced text parts ∧ Traced text others := by
  constructor
  · intro h
    constructor
    · intro part hmem
      exact h part (List.mem_append_left _ hmem)
    · intro part hmem
      exact h part (List.mem_append_right _ hmem)
  · rintro ⟨hparts, hothers⟩ part hmem
    rcases List.mem_append.1 hmem with hmem | hmem
    · exact hparts part hmem
    · exact hothers part hmem

theorem traced_cons {part : Part} {parts : List Part} :
    Traced text (part :: parts)
      ↔ (part.form? = some .located → Original text part.tokens ∨ Landed text part.tokens) ∧ Traced text parts := by
  constructor
  · intro h
    refine ⟨h part List.mem_cons_self, ?_⟩
    intro other hmem
    exact h other (List.mem_cons_of_mem _ hmem)
  · rintro ⟨own, hparts⟩ other hmem
    rcases List.mem_cons.1 hmem with rfl | hmem
    · exact own
    · exact hparts other hmem

theorem Traced.pend {parts : List Part} (h : Traced text parts) (trivia : List Char) :
    Traced text (pend trivia parts) := by
  intro part hmem hform
  obtain ⟨other, hother, same, more, htokens⟩ := exists_of_mem_pend hmem
  rw [htokens]
  rcases h other hother (same ▸ hform) with original | landed
  · exact .inl (original.prepend more)
  · exact .inr (landed.prepend more)

/-- The tokens of a directive among the parts of a program. -/
theorem Holds.directiveTokens_eq {front behind : List Part} {part : Part} {form : Directive}
    (h : Holds text (front ++ part :: behind)) (hform : part.form? = some form) :
    (Source.ofText text).directiveTokens ((tokensOf front).length, form) = part.tokens := by
  obtain ⟨-, hsize⟩ := shape_of_sound h.sound.of_append hform
  rw [Source.directiveTokens, h.source_tokens, tokensOf_append, tokensOf_cons]
  dsimp only
  rw [List.drop_left, ← hsize, List.take_left]

/-- The directives of a program come from it. -/
theorem Holds.traced {parts : List Part} (h : Holds text parts) : Traced text parts := by
  intro part hmem hform
  obtain ⟨front, behind, rfl⟩ := List.append_of_mem hmem
  refine .inl ⟨_, h.mem_directives hform, [], ?_⟩
  rw [h.directiveTokens_eq hform, Token.prepend_nil]

/-- A directive that lands in a round of the repair is traced to there. -/
theorem Landing.landed {reached : List Char} {front behind gap beyond : List Part} {part : Part} {head token : Token}
    {rest : List Token} {rounds line : Nat} {problem : Problem} {others : List Problem}
    (hat : At reached front part behind .located head rest)
    (h : Landing (relocate reached problem.line) front behind .located head rest gap token beyond line)
    (hrounds : rounds < budget text) (run : Moves rounds text reached) (flagged : problems reached = problem :: others)
    (hfind : directiveOn? (Source.ofText reached) problem.line = some ((tokensOf front).length, .located))
    (hfit : firstFit?
      ((Draft.ofTokens (Source.ofText reached).tokens).detach (tokensOf front).length Directive.located.size).1
      ((Draft.ofTokens (Source.ofText reached).tokens).detach (tokensOf front).length Directive.located.size).2
      (tokensOf front).length = some (relocate reached problem.line)) :
    Landed text (announce line (onOwnLine head rest)) := by
  obtain ⟨before, kept, -, holds, hlength, -, -⟩ := h.exists_parts hat
  have located : (onOwnLine head rest).length = Directive.located.size := hat.loose.unit.size
  refine ⟨rounds, reached, problem, others, ((tokensOf (front ++ gap)).length, .located), hrounds, run, flagged,
    ⟨(tokensOf front).length, hfind, hfit, ?_⟩, h.mem_directives hat, announce line (onOwnLine head rest), kept, [], ?_,
    (Token.prepend_nil _).symm, ?_⟩
  · rw [hat.detach_eq, h.placed_eq, h.line_eq]
  · rw [← hlength]
    exact holds.directiveTokens_eq rfl
  · intro trivia more
    rw [announce, if_pos located, h.line_eq]
    exact hat.loose.unit.announced?_renumber (line + 1) trivia more

/-- A round keeps the directives traced. -/
theorem Traced.relocate {reached : List Char} {parts : List Part} (holds : Holds reached parts)
    (h : Traced text parts) {rounds : Nat} (hrounds : rounds < budget text) (run : Moves rounds text reached)
    {problem : Problem} {others : List Problem} (flagged : problems reached = problem :: others) :
    ∃ parts', Holds (Repair.relocate reached problem.line) parts' ∧ Traced text parts' := by
  have hproblem : problem ∈ problems reached := by
    rw [flagged]
    exact List.mem_cons_self
  obtain ⟨front, part, behind, form, head, rest, rfl, hat, hfind, round⟩ := holds.exists_round hproblem
  obtain ⟨hfront, hrest⟩ := traced_append.1 h
  obtain ⟨-, hbehind⟩ := traced_cons.1 hrest
  rcases round with ⟨gap, token, beyond, line, hfit, landing⟩ | ⟨-, removed⟩
  · refine ⟨_, landing.holds, traced_append.2 ⟨hfront, Traced.pend ?_ _⟩⟩
    rw [landing.behind_eq] at hbehind
    obtain ⟨hgap, hbeyond⟩ := traced_append.1 hbehind
    refine traced_append.2 ⟨hgap, traced_cons.2 ⟨?_, hbeyond⟩⟩
    intro hform
    obtain rfl := Option.some.inj hform
    right
    rw [Part.tokens, Token.prepend_nil]
    exact landing.landed hat hrounds run flagged hfind hfit
  · exact ⟨_, removed, traced_append.2 ⟨hfront, hbehind.pend _⟩⟩

theorem Traced.dropFlagged {reached : List Char} {parts : List Part} (holds : Holds reached parts)
    (h : Traced text parts) : ∃ parts', Holds (Repair.dropFlagged reached) parts' ∧ Traced text parts' := by
  fun_induction Repair.dropFlagged reached generalizing parts with
  | case1 reached hnone => exact ⟨parts, holds, h⟩
  | case2 reached problem others hsome hnone => exact ⟨parts, holds, h⟩
  | case3 reached problem others hsome shorter hremove ih =>
    obtain ⟨front, part, behind, form, head, rest, rfl, -, removed⟩ := holds.exists_removed hremove
    obtain ⟨hfront, hrest⟩ := traced_append.1 h
    exact ih removed (traced_append.2 ⟨hfront, (traced_cons.1 hrest).2.pend _⟩)

/-- So does a whole run of rounds within the budget. -/
theorem Traced.settle {reached : List Char} {parts : List Part} (holds : Holds reached parts) (h : Traced text parts)
    {rounds left : Nat} (hrounds : rounds + left = budget text) (run : Moves rounds text reached) :
    ∃ parts', Holds (Repair.settle left reached) parts' ∧ Traced text parts' := by
  induction left generalizing rounds reached parts with
  | zero => exact Traced.dropFlagged holds h
  | succ left ih =>
    rw [Repair.settle]
    split
    · exact ⟨parts, holds, h⟩
    · next problem others flagged =>
      obtain ⟨parts', holds', traced⟩ := Traced.relocate holds h (by omega) run flagged
      exact ih holds' traced (by omega) (run.concat flagged)

end

/-- Every directive with a line in a repaired program is one of the program before, or it announces the
line below the one on which it landed in some round, in the text that this round left. -/
theorem announced?_fix (text : List Char) (tidy : problems text ≠ [] → Tidy (Token.ofText text))
    {place : Nat × Directive} (hplace : place ∈ (Source.ofText (fix text)).directives) {line : Nat}
    (hline : Directive.announced? ((Source.ofText (fix text)).tokens.drop place.1) = some line) :
    (∃ other ∈ (Source.ofText text).directives,
        (Source.ofText (fix text)).directiveText place = (Source.ofText text).directiveText other) ∨
      ∃ rounds reached problem others landing, rounds < budget text ∧ Moves rounds text reached ∧
        problems reached = problem :: others ∧ Lands reached problem landing ∧
        landing ∈ (Source.ofText (relocate reached problem.line)).directives ∧
        (Source.ofText (fix text)).directiveText place
          = (Source.ofText (relocate reached problem.line)).directiveText landing ∧
        line = (Source.ofText (relocate reached problem.line)).lineOf landing.1 + 1 := by
  by_cases hproblems : problems text = []
  · rw [fix_of_problems_eq_nil hproblems] at hplace ⊢
    exact .inl ⟨place, hplace, rfl⟩
  have start := holds_partsOf (tidy hproblems)
  obtain ⟨parts, holds, traced⟩ := Traced.settle start start.traced (Nat.zero_add _) (.none text)
  change Holds (fix text) parts at holds
  obtain ⟨index, form⟩ := place
  obtain ⟨front, part, behind, _, _, rfl, rfl, hat⟩ := holds.exists_at hplace
  have tokens : (Source.ofText (fix text)).tokens.drop (tokensOf front).length = part.tokens ++ tokensOf behind := by
    rw [holds.source_tokens, tokensOf_append, List.drop_left]
    rfl
  have shape := (shape_of_sound hat.sound hat.form).1
  have located : form = .located := by
    rw [tokens, Directive.announced?, Directive.first?_append shape] at hline
    cases form with
    | located => rfl
    | reset => cases hline
  subst located
  have own := holds.directiveTokens_eq hat.form
  rcases traced part (by simp) hat.form with ⟨other, hother, kept, horiginal⟩ | landed
  · left
    refine ⟨other, hother, ?_⟩
    rw [Source.directiveText, own, horiginal, Token.spelling_prepend]
    rfl
  · right
    obtain ⟨rounds, reached, problem, others, landing, hrounds, run, flagged, lands, hmem, unit, kept, more, hlanding,
      hunit, announces⟩ := landed
    refine ⟨rounds, reached, problem, others, landing, hrounds, run, flagged, lands, hmem, ?_, ?_⟩
    · rw [Source.directiveText, own, hunit, Source.directiveText, hlanding, Token.spelling_prepend,
        Token.spelling_prepend]
    · rw [tokens, hunit, announces] at hline
      obtain ⟨numbered, -⟩ := Option.filter_eq_some_iff.1 hline
      exact (Option.some.inj numbered).symm

/-- Two directives inside a call move behind it. The first of them landed on line 4, when the other one
still stood above it, and announces line 5 from line 3 in the end. -/
theorem announced?_fix_crossed :
    let text := "f(\n#sourceLocation(file: \"t\", line: 7)\n#sourceLocation(file: \"t\", line: 8)\n1)\ng()\n".toList
    Tidy (Token.ofText text) ∧
      fix text
        = "f(\n1)\n#sourceLocation(file: \"t\", line: 5)\n#sourceLocation(file: \"t\", line: 5)\ng()\n".toList ∧
      (4, .located) ∈ (Source.ofText (fix text)).directives ∧
      Directive.announced? ((Source.ofText (fix text)).tokens.drop 4) = some 5 ∧
      (Source.ofText (fix text)).lineOf 4 = 3 ∧
      ∃ rounds reached problem others landing, rounds < budget text ∧ Moves rounds text reached ∧
        problems reached = problem :: others ∧ Lands reached problem landing ∧
        landing ∈ (Source.ofText (relocate reached problem.line)).directives ∧
        (Source.ofText (fix text)).directiveText (4, .located)
          = (Source.ofText (relocate reached problem.line)).directiveText landing ∧
        5 = (Source.ofText (relocate reached problem.line)).lineOf landing.1 + 1 := by
  intro text
  have facts : Tidy (Token.ofText text) ∧
      fix text
        = "f(\n1)\n#sourceLocation(file: \"t\", line: 5)\n#sourceLocation(file: \"t\", line: 5)\ng()\n".toList ∧
      (4, .located) ∈ (Source.ofText (fix text)).directives ∧
      Directive.announced? ((Source.ofText (fix text)).tokens.drop 4) = some 5 ∧
      (Source.ofText (fix text)).lineOf 4 = 3 ∧
      ¬ ∃ other ∈ (Source.ofText text).directives,
        (Source.ofText (fix text)).directiveText (4, .located) = (Source.ofText text).directiveText other := by
    decide +kernel
  obtain ⟨tidy, fixed, hplace, hline, line, original⟩ := facts
  exact ⟨tidy, fixed, hplace, hline, line, (announced?_fix text (fun _ => tidy) hplace hline).resolve_left original⟩

/-- A later round leaves the number of a directive as it is when the directive goes up a line. -/
theorem exists_announced?_fix_above :
    let text := "f(\n#sourceLocation(file: \"t\", line: 7)\n#sourceLocation(file: \"t\", line: 8)\n1)\ng()\n".toList
    Tidy (Token.ofText text) ∧ ∃ place ∈ (Source.ofText (fix text)).directives,
      Directive.announced? ((Source.ofText (fix text)).tokens.drop place.1) = some 5 ∧
      (∀ other ∈ (Source.ofText text).directives,
        (Source.ofText (fix text)).directiveText place ≠ (Source.ofText text).directiveText other) ∧
      (Source.ofText (fix text)).lineOf place.1 + 1 = 4 := by
  decide +kernel

/-! ## Programs that are not tidy -/

/-- One round of repair makes of a program another that has a directive with a line, which is none of the
program before and announces another line than the one below it. -/
def Emerges (text : List Char) : Prop :=
  Moves 1 text (fix text) ∧ ∃ place ∈ (Source.ofText (fix text)).directives,
    (∀ other ∈ (Source.ofText text).directives,
      (Source.ofText (fix text)).directiveText place ≠ (Source.ofText text).directiveText other) ∧
    (Directive.announced? ((Source.ofText (fix text)).tokens.drop place.1)).any
      (· ≠ (Source.ofText (fix text)).lineOf place.1 + 1)

instance (text : List Char) : Decidable (Emerges text) := inferInstanceAs (Decidable (_ ∧ _))

/-- Whatever a program lacks to be tidy, a directive can emerge that no round has put where it is. -/
theorem exists_emerges (flaw : Flaw) : ∃ text, LacksOnly flaw text ∧ Emerges text := by
  cases flaw with
  | hiddenDirective =>
    refine ⟨"#sourceLocation(file: \"t\",\n#sourceLocation()\nline: 7)\n".toList, ?_⟩
    decide +kernel
  | openLiteral =>
    refine ⟨("a =\n#sourceLocation(file: \"\"\"\n#sourceLocation(file: \"q\", line: 9)\nx\n"
      ++ "\"\"\", line: 3)\n\"\"\"b").toList, ?_⟩
    decide +kernel
  | commentBefore =>
    refine ⟨("if a \x7b\n\x7d\n/* c\n */ #sourceLocation()\nelse \x7b \"\"\"\n*/\n"
      ++ "#sourceLocation(file: \"q\", line: 9)\nx\n\"\"\" \x7d\n").toList, ?_⟩
    decide +kernel
  | commentBehind =>
    refine ⟨("if a \x7b\n\x7d\n#sourceLocation() // t\nelse \x7b\x7d /* \n"
      ++ "#sourceLocation(file: \"q\", line: 9)\nx */ b").toList, ?_⟩
    decide +kernel
  | sharedLine =>
    refine ⟨"#\n#sourceLocation() sourceLocation(file: \"q\", line: 9)\n".toList, ?_⟩
    decide +kernel

end Repair

end SwiftTemplate
