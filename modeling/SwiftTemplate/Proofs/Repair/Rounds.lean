import SwiftTemplate.Proofs.Repair.Announcements
import SwiftTemplate.Proofs.Repair.Slots

/-!
# Rounds of repair

A directive that has landed stays where it is: no later round moves it again. So repair takes no more
rounds than there are directives, once none of them tears a statement.
-/
namespace SwiftTemplate.Repair

open Swift
open Swift.Diagnostic (stateAt previousAt interrupts isBad Yields)

/-- Whether a directive begins its line. -/
def Part.beginsLine (part : Part) : Bool := part.tokens.head?.any Token.startsLine

/-- Whether a directive can be at fault: its slot is bad, or it shares its line with the token before it. -/
def isRestless (plains : List Token) (slot : Nat × Part) : Bool := isBad plains slot.1 || !slot.2.beginsLine

/-- The number of directives that can be at fault. -/
def restless (parts : List Part) : Nat := (slotsFrom 0 parts).countP (isRestless (plainsOf parts))

/-! ## More trivia in front -/

section
variable (plains : List Token) (k : Nat) (trivia : List Char) (parts : List Part)

theorem beginsLine_of_prepend {part other : Part} {trivia : List Char}
    (h : other.tokens = Token.prepend trivia part.tokens) (line : part.beginsLine = true) :
    other.beginsLine = true := by
  unfold Part.beginsLine at line ⊢
  rw [h]
  cases htokens : part.tokens with
  | nil => simp [htokens] at line
  | cons head rest =>
    rw [htokens] at line
    exact List.contains_iff_mem.2 (List.mem_append_right trivia (List.contains_iff_mem.1 line))

theorem exists_slotsFrom_pend : slotsFrom k (pend trivia parts) = slotsFrom k parts ∨
    ∃ part other slots, slotsFrom k parts = (k, part) :: slots ∧ slotsFrom k (pend trivia parts) = (k, other) :: slots ∧
      ∃ more, other.tokens = Token.prepend more part.tokens := by
  cases parts with
  | nil => exact .inl rfl
  | cons part parts =>
    cases part with
    | plain token => exact .inl rfl
    | fixed form tokens => exact .inr ⟨.fixed form tokens, _, slotsFrom k parts, rfl, rfl, trivia, rfl⟩
    | moved form kept tokens =>
      exact .inr ⟨.moved form kept tokens, _, slotsFrom k parts, rfl, rfl, trivia,
        (Token.prepend_prepend trivia kept tokens).symm⟩

theorem length_slotsFrom_pend : (slotsFrom k (pend trivia parts)).length = (slotsFrom k parts).length := by
  rcases exists_slotsFrom_pend k trivia parts with same | ⟨part, other, slots, hparts, hpend, -⟩
  · rw [same]
  · rw [hparts, hpend, List.length_cons, List.length_cons]

theorem countP_pend_le :
    (slotsFrom k (pend trivia parts)).countP (isRestless plains) ≤ (slotsFrom k parts).countP (isRestless plains) := by
  rcases exists_slotsFrom_pend k trivia parts with same | ⟨part, other, slots, hparts, hpend, more, htokens⟩
  · rw [same]
  · rw [hparts, hpend, List.countP_cons, List.countP_cons]
    refine Nat.add_le_add_left ?_ _
    split
    · next own =>
      have : isRestless plains (k, part) = true := by
        simp only [isRestless, Bool.or_eq_true, Bool.not_eq_true'] at own ⊢
        refine own.imp_right fun shares => ?_
        rw [← Bool.not_eq_true] at shares ⊢
        exact mt (beginsLine_of_prepend htokens) shares
      rw [if_pos this]
    · exact Nat.zero_le _

variable {plains k trivia parts}

theorem Calm.pend (h : Calm plains (slotsFrom k parts)) : Calm plains (slotsFrom k (pend trivia parts)) := by
  rcases exists_slotsFrom_pend k trivia parts with same | ⟨part, other, slots, hparts, hpend, -⟩
  · rwa [same]
  · rw [hparts] at h
    rw [hpend]
    obtain ⟨own, later⟩ := calm_cons.1 h
    exact calm_cons.2 ⟨own, later⟩

theorem Calm.congr {others : List Token} {slots : List (Nat × Part)} (h : Calm plains slots)
    (same : SameShape others plains) : Calm others slots := by
  intro slot hmem
  rw [Yields, Diagnostic.interrupts_congr same, Diagnostic.stateAt_congr same]
  exact h slot hmem

theorem isRestless_congr {others : List Token} (same : SameShape plains others) :
    isRestless plains = isRestless others := by
  funext slot
  rw [isRestless, isRestless, Diagnostic.isBad_congr same]

/-- A token that begins a line looks the same with more trivia in front. -/
theorem sameShape_pend {behind : List Part} (line : BeginLine (baseOf (parts ++ behind))) :
    SameShape (plainsOf (Repair.pend trivia parts)) (plainsOf parts) := by
  cases parts with
  | nil => exact .nil
  | cons part parts =>
    cases part with
    | plain token =>
      obtain ⟨first, hfirst, line⟩ := line
      obtain rfl := Option.some.inj (show some token = some first from hfirst)
      refine .cons ⟨⟨rfl, rfl, fun _ => rfl⟩, ?_, ?_, fun _ => rfl⟩ (SameShape.refl _)
      · intro hkind
        have own := line.resolve_left hkind
        simp [Token.startsLine, own]
      · intro hkind
        have own := line.resolve_left (by rw [show token.kind = .operator from hkind]; decide)
        rw [List.isEmpty_eq_false_iff.2 (List.ne_nil_of_mem own),
          List.isEmpty_eq_false_iff.2 (List.ne_nil_of_mem (List.mem_append_right trivia own))]
    | fixed form tokens => exact SameShape.refl _
    | moved form kept tokens => exact SameShape.refl _

end

/-! ## One round -/

/-- A directive on a line that is not flagged is at fault for nothing. -/
theorem not_blames_of_not_isFlagged {text : List Char} {index : Nat} {form : Directive}
    (hmem : (index, form) ∈ (Source.ofText text).directives)
    (free : isFlagged text ((Source.ofText text).lineOf index) = false) :
    ∀ diagnostic ∈ (Source.ofText text).diagnostics, ¬ diagnostic.blames index form := by
  intro diagnostic hdiagnostic blamed
  rw [← Bool.not_eq_true] at free
  refine free ?_
  cases hblame : (Source.ofText text).blame? index form with
  | none =>
    have := List.find?_eq_none.1 hblame diagnostic hdiagnostic
    exact absurd blamed (by simpa [Diagnostic.blames] using this)
  | some found =>
    refine List.any_eq_true.2 ⟨⟨(Source.ofText text).lineOf index, (Source.ofText text).lineOf found.first⟩,
      List.mem_filterMap.2 ⟨(index, form), hmem, ?_⟩, by simp⟩
    rw [problem?, hblame]
    rfl

/-- A directive that is at fault can be at fault by what the other tokens tell. -/
theorem At.isRestless_eq {text : List Char} {front behind : List Part} {part : Part} {form : Directive} {head : Token}
    {rest : List Token} (h : At text front part behind form head rest)
    (calm : Calm (plainsOf (front ++ part :: behind)) (slotsFrom 0 (front ++ part :: behind))) {problem : Problem}
    (hproblem : problem ∈ problems text)
    (hfind : directiveOn? (Source.ofText text) problem.line = some ((tokensOf front).length, form)) :
    isRestless (plainsOf (front ++ part :: behind)) ((plainsOf front).length, part) = true := by
  obtain ⟨diagnostic, hblame⟩ := h.holds.exists_blame? hproblem hfind
  have blamed : diagnostic.blames (tokensOf front).length form := by
    simpa [Diagnostic.blames] using List.find?_some hblame
  rcases h.isBad_of_blames calm (List.mem_of_find?_eq_some hblame) blamed with bad | shares
  · rw [isRestless, bad, Bool.true_or]
  · simp [isRestless, Part.beginsLine, h.tokens, shares]

section
variable {text : List Char} {front behind : List Part} {part : Part} {form : Directive} {head : Token}
  {rest : List Token} {problem : Problem}

/-- A directive that has landed begins its line there, and is at fault for nothing. -/
theorem Landing.exists_unblamed {moved : List Char} {gap beyond : List Part} {token : Token} {line : Nat}
    (hat : At text front part behind form head rest)
    (h : Landing moved front behind form head rest gap token beyond line) :
    ∃ before kept unit head' rest', before = pend (leftBehind head) gap ∧
      (plainsOf before).length = (plainsOf gap).length ∧
      At moved (front ++ before) (.moved form kept unit) (.plain token :: beyond) form head' rest' ∧
      head'.startsLine = true ∧
      ∀ diagnostic ∈ (Source.ofText moved).diagnostics, ¬ diagnostic.blames (tokensOf (front ++ before)).length form := by
  obtain ⟨before, kept, hbefore, holds, hlength, hcount, -⟩ := h.exists_parts hat
  obtain ⟨rest', hrest'⟩ := exists_announce line { head with leading := freshLeading head.leading } rest
  obtain ⟨indent, hindent, -⟩ := exists_freshLeading head.leading
  have tokens : (Part.moved form kept (announce line (onOwnLine head rest))).tokens
      = { head with leading := kept ++ freshLeading head.leading } :: rest' := by
    rw [Part.tokens, onOwnLine, hrest']
    rfl
  have free := h.free
  rw [← h.line_eq, ← hlength] at free
  refine ⟨before, kept, _, _, rest', hbefore, hcount, ⟨holds, rfl, tokens⟩, ?_,
    not_blames_of_not_isFlagged (holds.mem_directives rfl) free⟩
  simp [Token.startsLine, hindent]

/-- A directive that has landed can no longer be at fault, and the others are as calm as they were. -/
theorem Landing.exists_restless_lt {moved : List Char} {gap beyond : List Part} {token : Token} {line : Nat}
    (hat : At text front part behind form head rest)
    (h : Landing moved front behind form head rest gap token beyond line)
    (calm : Calm (plainsOf (front ++ part :: behind)) (slotsFrom 0 (front ++ part :: behind)))
    (own : isRestless (plainsOf (front ++ part :: behind)) ((plainsOf front).length, part) = true) :
    ∃ parts, Holds moved parts ∧ Calm (plainsOf parts) (slotsFrom 0 parts) ∧
      restless parts < restless (front ++ part :: behind) := by
  obtain ⟨before, kept, unit, head', rest', hbefore, hcount, landed, starts, free⟩ := h.exists_unblamed hat
  have begun := hat.loose.line
  rw [h.behind_eq] at begun calm own ⊢
  -- The directive has left its slot for one behind the parts that it passed.
  have old : slotsFrom 0 (front ++ part :: (gap ++ .plain token :: beyond))
      = slotsFrom 0 front ++ ((plainsOf front).length, part) :: (slotsFrom (plainsOf front).length gap
        ++ slotsFrom ((plainsOf front).length + (plainsOf gap).length + 1) beyond) := by
    rw [slotsFrom_append, slotsFrom_cons_of_form hat.form, slotsFrom_append, slotsFrom, Nat.zero_add]
  have new : slotsFrom 0 (front ++ before ++ .moved form kept unit :: .plain token :: beyond)
      = slotsFrom 0 (front ++ before) ++ ((plainsOf (front ++ before)).length, .moved form kept unit)
        :: slotsFrom ((plainsOf (front ++ before)).length + 1) beyond := by
    rw [slotsFrom_append, slotsFrom_cons_of_form rfl, slotsFrom, Nat.zero_add]
  have slot : (plainsOf (front ++ before)).length = (plainsOf front).length + (plainsOf gap).length := by
    rw [plainsOf_append, List.length_append, hcount]
  have same : SameShape (plainsOf (front ++ before ++ .moved form kept unit :: .plain token :: beyond))
      (plainsOf (front ++ part :: (gap ++ .plain token :: beyond))) := by
    rw [hbefore, List.append_assoc, plainsOf_append front, plainsOf_append front, plainsOf_append,
      plainsOf_cons_of_form hat.form, plainsOf_append]
    exact (SameShape.refl _).append ((sameShape_pend begun).append (SameShape.refl _))
  rw [old] at calm
  obtain ⟨calmFront, calm⟩ := calm_append.1 (calm.congr same)
  obtain ⟨-, calm⟩ := calm_cons.1 calm
  obtain ⟨calmGap, calmBeyond⟩ := calm_append.1 calm
  have calmBefore : Calm _ (slotsFrom _ (pend (leftBehind head) gap)) := calmGap.pend
  rw [← hbefore] at calmBefore
  rw [← slot] at calmBeyond
  have calmUpTo : Calm (plainsOf (front ++ before ++ .moved form kept unit :: .plain token :: beyond))
      (slotsFrom 0 (front ++ before)) := by
    rw [slotsFrom_append, Nat.zero_add]
    exact calm_append.2 ⟨calmFront, calmBefore⟩
  have good := landed.isBad_eq_false calmUpTo calmBeyond free
  have restful : isRestless (plainsOf (front ++ before ++ .moved form kept unit :: .plain token :: beyond))
      ((plainsOf (front ++ before)).length, .moved form kept unit) = false := by
    rw [isRestless, good, Part.beginsLine, landed.tokens]
    simp [starts]
  refine ⟨_, landed.holds, ?_, ?_⟩
  · rw [new]
    exact calm_append.2 ⟨calmUpTo, calm_cons.2 ⟨Diagnostic.yields_of_isBad good, calmBeyond⟩⟩
  · have passed := countP_pend_le (plainsOf (front ++ part :: (gap ++ .plain token :: beyond))) (plainsOf front).length
      (leftBehind head) gap
    rw [← hbefore] at passed
    rw [isRestless_congr same, slot] at restful
    rw [restless, restless, isRestless_congr same, new, old, slotsFrom_append 0 front, Nat.zero_add, slot]
    simp only [List.countP_append, List.countP_cons, own, restful, if_true, Bool.false_eq_true, if_false]
    omega

/-- When a directive is taken out, the others are as calm as they were. -/
theorem At.exists_restless_lt (hat : At text front part behind form head rest) {left : List Char}
    (holds : Holds left (front ++ pend (leftBehind head) behind))
    (calm : Calm (plainsOf (front ++ part :: behind)) (slotsFrom 0 (front ++ part :: behind)))
    (own : isRestless (plainsOf (front ++ part :: behind)) ((plainsOf front).length, part) = true) :
    ∃ parts, Holds left parts ∧ Calm (plainsOf parts) (slotsFrom 0 parts) ∧
      restless parts < restless (front ++ part :: behind) := by
  have begun := hat.loose.line
  rw [← List.append_nil behind] at begun
  have same : SameShape (plainsOf (front ++ pend (leftBehind head) behind)) (plainsOf (front ++ part :: behind)) := by
    rw [plainsOf_append, plainsOf_append, plainsOf_cons_of_form hat.form]
    exact (SameShape.refl _).append (sameShape_pend begun)
  have old : slotsFrom 0 (front ++ part :: behind)
      = slotsFrom 0 front ++ ((plainsOf front).length, part) :: slotsFrom (plainsOf front).length behind := by
    rw [slotsFrom_append, slotsFrom_cons_of_form hat.form, Nat.zero_add]
  rw [old] at calm
  obtain ⟨calmFront, calm⟩ := calm_append.1 (calm.congr same)
  obtain ⟨-, calmBehind⟩ := calm_cons.1 calm
  refine ⟨_, holds, ?_, ?_⟩
  · rw [slotsFrom_append, Nat.zero_add]
    exact calm_append.2 ⟨calmFront, calmBehind.pend⟩
  · have passed := countP_pend_le (plainsOf (front ++ part :: behind)) (plainsOf front).length (leftBehind head) behind
    rw [restless, restless, isRestless_congr same, old, slotsFrom_append, Nat.zero_add]
    simp only [List.countP_append, List.countP_cons, own, if_true]
    omega

end

/-- A round brings one directive less that can be at fault. -/
theorem Holds.exists_restless_lt {text : List Char} {parts : List Part} (h : Holds text parts)
    (calm : Calm (plainsOf parts) (slotsFrom 0 parts)) {problem : Problem} (hproblem : problem ∈ problems text) :
    ∃ others, Holds (Repair.relocate text problem.line) others ∧ Calm (plainsOf others) (slotsFrom 0 others) ∧
      restless others < restless parts := by
  obtain ⟨front, part, behind, form, head, rest, rfl, hat, hfind, round⟩ := h.exists_round hproblem
  have own := hat.isRestless_eq calm hproblem hfind
  rcases round with ⟨gap, token, beyond, line, -, landing⟩ | ⟨-, removed⟩
  · exact landing.exists_restless_lt hat calm own
  · exact hat.exists_restless_lt removed calm own

/-! ## All rounds -/

/-- A program without statements torn is repaired in no more rounds than it has directives that can be at fault. -/
theorem Holds.exists_moves {text : List Char} {parts : List Part} (h : Holds text parts)
    (calm : Calm (plainsOf parts) (slotsFrom 0 parts)) :
    ∃ moves reached, moves ≤ restless parts ∧ Moves moves text reached ∧ problems reached = [] := by
  induction hcount : restless parts using Nat.strongRecOn generalizing text parts with
  | ind count ih =>
    cases hproblems : problems text with
    | nil => exact ⟨0, text, Nat.zero_le _, .none text, hproblems⟩
    | cons problem others =>
      have hproblem : problem ∈ problems text := by
        rw [hproblems]
        exact List.mem_cons_self
      obtain ⟨parts', holds, calm', fewer⟩ := h.exists_restless_lt calm hproblem
      obtain ⟨moves, reached, hmoves, run, clean⟩ := ih _ (hcount ▸ fewer) holds calm' rfl
      exact ⟨moves + 1, reached, by omega, .first hproblems run, clean⟩

theorem Moves.append {rounds more : Nat} {text moved reached : List Char} (h : Moves rounds text moved)
    (further : Moves more moved reached) : Moves (rounds + more) text reached := by
  induction h with
  | none text =>
    rw [Nat.zero_add]
    exact further
  | first flagged run ih =>
    rw [Nat.add_right_comm]
    exact .first flagged (ih further)

/-- Settling stops where a run of moves comes to a program without problems. -/
theorem Moves.settle_eq {moves rounds : Nat} {text reached : List Char} (run : Moves moves text reached)
    (clean : problems reached = []) (h : moves ≤ rounds) : settle rounds text = reached := by
  induction run generalizing rounds with
  | none text => exact settle_of_problems_eq_nil clean
  | first flagged run ih =>
    cases rounds with
    | zero => cases h
    | succ rounds =>
      rw [settle, flagged]
      exact ih clean (Nat.le_of_succ_le_succ h)

/-- No run is longer than one that comes to a program without problems. -/
theorem Moves.le_of_clean {rounds more : Nat} {text reached moved : List Char} (run : Moves rounds text reached)
    (clean : problems reached = []) (other : Moves more text moved) : more ≤ rounds := by
  induction run generalizing more with
  | none text =>
    cases more with
    | zero => exact Nat.le_refl 0
    | succ more => exact absurd other (not_moves_succ clean)
  | first flagged run ih =>
    cases more with
    | zero => exact Nat.zero_le _
    | succ more => exact Nat.succ_le_succ (ih clean ((moves_succ_iff flagged).1 other))

/-- A run that comes back to where it began never comes to a program without problems. -/
theorem Moves.problems_ne_nil {period rounds : Nat} {text reached : List Char} (back : Moves (period + 1) text text)
    (run : Moves rounds text reached) : problems reached ≠ [] := by
  intro clean
  have again (times : Nat) : Moves (times * (period + 1)) text text := by
    induction times with
    | zero =>
      rw [Nat.zero_mul]
      exact .none text
    | succ times ih =>
      rw [Nat.succ_mul]
      exact ih.append back
  have bound := run.le_of_clean clean (again (rounds + 1))
  have long : rounds + 1 ≤ (rounds + 1) * (period + 1) := Nat.le_mul_of_pos_right _ (Nat.succ_pos period)
  omega

/-! ## How many directives are left -/

theorem length_placesFrom (start k : Nat) (parts : List Part) :
    (placesFrom start parts).length = (slotsFrom k parts).length := by
  induction parts using parts_induction generalizing start k with
  | nil => rfl
  | token token parts ih => exact ih _ _
  | directive part form parts hform ih =>
    rw [placesFrom, slotsFrom_cons_of_form hform, hform, List.length_append, ih _ k]
    exact Nat.add_comm _ _

/-- The directives of a program are those among its parts. -/
theorem Holds.length_directives {text : List Char} {parts : List Part} (h : Holds text parts) :
    (Source.ofText text).directives.length = (slotsFrom 0 parts).length := by
  rw [h.directives_eq]
  exact length_placesFrom 0 0 parts

/-- The program with the first directive on a line moved to where it fits, if it fits anywhere. -/
def landing? (text : List Char) (line : Nat) : Option (List Char) :=
  (directiveOn? (Source.ofText text) line).bind fun place =>
    firstFit? ((Draft.ofTokens (Source.ofText text).tokens).detach place.1 place.2.size).1
      ((Draft.ofTokens (Source.ofText text).tokens).detach place.1 place.2.size).2 place.1

/-- A round takes a directive out of the program only if there is no place that takes it. -/
theorem Holds.length_directives_relocate {text : List Char} {parts : List Part} (h : Holds text parts)
    {problem : Problem} (hproblem : problem ∈ problems text) :
    (Source.ofText (Repair.relocate text problem.line)).directives.length
        + (if (landing? text problem.line).isSome then 0 else 1)
      = (Source.ofText text).directives.length := by
  obtain ⟨front, part, behind, form, head, rest, rfl, hat, hfind, round⟩ := h.exists_round hproblem
  rw [h.length_directives, slotsFrom_append, slotsFrom_cons_of_form hat.form, landing?, hfind, Option.bind_some]
  rcases round with ⟨gap, token, beyond, line, hfit, landing⟩ | ⟨hfit, removed⟩
  · rw [hfit, landing.holds.length_directives, landing.behind_eq, slotsFrom_append, List.length_append,
      List.length_append, length_slotsFrom_pend, slotsFrom_append, slotsFrom_append, slotsFrom_cons_of_form rfl]
    simp only [List.length_append, List.length_cons, Option.isSome_some, if_true]
    omega
  · rw [hfit, removed.length_directives, slotsFrom_append, List.length_append, List.length_append,
      length_slotsFrom_pend]
    rfl

/-- The programs of a run come from parts, and have no more directives than the one it begins with. -/
theorem Holds.exists_of_moves {text reached : List Char} {parts : List Part} {rounds : Nat} (h : Holds text parts)
    (run : Moves rounds text reached) : ∃ parts', Holds reached parts' ∧
      (Source.ofText reached).directives.length ≤ (Source.ofText text).directives.length := by
  induction run generalizing parts with
  | none text => exact ⟨parts, h, Nat.le_refl _⟩
  | @first rounds text reached problem others flagged run ih =>
    have hproblem : problem ∈ problems text := by
      rw [flagged]
      exact List.mem_cons_self
    obtain ⟨moved, hmoved, -⟩ := h.relocate hproblem
    obtain ⟨parts', holds, fewer⟩ := ih hmoved
    have round := h.length_directives_relocate hproblem
    exact ⟨parts', holds, by omega⟩

/-- No directive of a program interrupts a statement, or comes between a body and its condition, where
statements can stand. -/
def TearsNothing (text : List Char) : Prop :=
  ∀ diagnostic ∈ (Source.ofText text).diagnostics, Diagnostic.tearsStatement diagnostic.complaint = false

instance (text : List Char) : Decidable (TearsNothing text) := inferInstanceAs (Decidable (∀ _ ∈ _, _))

theorem Holds.calm {text : List Char} {parts : List Part} (h : Holds text parts) (whole : TearsNothing text) :
    Calm (plainsOf parts) (slotsFrom 0 parts) := by
  refine (Reads.start h).calm_of_tearsStatement fun diagnostic hmem => whole diagnostic ?_
  rw [← h.tokens] at hmem
  exact hmem

/-- Repair comes to a program without problems before its budget is used up, if it comes early enough to one
in which no directive tears a statement. Then nothing is left to be dropped in the end, so that a directive
is lost only in a round that finds no place for it. -/
theorem exists_moves_fix {text : List Char} (tidy : problems text ≠ [] → Tidy (Token.ofText text)) {early : Nat}
    {reached : List Char} (hearly : early < (Source.ofText text).directives.length + 4) (run : Moves early text reached)
    (whole : TearsNothing reached) :
    (∃ moves, moves < budget text ∧ Moves moves text (fix text) ∧ problems (fix text) = []) ∧
      ∀ rounds moved problem others, Moves rounds text moved → problems moved = problem :: others →
        (Source.ofText (relocate moved problem.line)).directives.length
            + (if (landing? moved problem.line).isSome then 0 else 1)
          = (Source.ofText moved).directives.length := by
  by_cases hproblems : problems text = []
  · rw [fix_of_problems_eq_nil hproblems]
    refine ⟨⟨0, Nat.succ_pos _, .none text, hproblems⟩, ?_⟩
    intro rounds moved problem others run' flagged
    cases run' with
    | none => rw [hproblems] at flagged; cases flagged
    | first flagged' further => exact absurd (.first flagged' further) (not_moves_succ hproblems)
  have start := holds_partsOf (tidy hproblems)
  constructor
  · obtain ⟨parts, holds, fewer⟩ := start.exists_of_moves run
    obtain ⟨moves, clean, hmoves, further, hclean⟩ := holds.exists_moves (holds.calm whole)
    have bound : restless parts ≤ (slotsFrom 0 parts).length := List.countP_le_length
    rw [← holds.length_directives] at bound
    have total := run.append further
    have enough : early + moves < budget text := by
      unfold budget
      omega
    have stops : fix text = clean := total.settle_eq hclean (Nat.le_of_lt enough)
    rw [stops]
    exact ⟨early + moves, enough, total, hclean⟩
  · intro rounds moved problem others run' flagged
    obtain ⟨parts, holds, -⟩ := start.exists_of_moves run'
    refine holds.length_directives_relocate ?_
    rw [flagged]
    exact List.mem_cons_self

/-- A directive that interrupts an assignment moves behind it in the first round, and repair is done. -/
theorem exists_moves_fix_assignment :
    let text := "a =\n#sourceLocation()\n1\n".toList
    let reached := "a =\n1\n#sourceLocation()\n".toList
    Tidy (Token.ofText text) ∧ ¬ TearsNothing text ∧ 1 < (Source.ofText text).directives.length + 4 ∧
      Moves 1 text reached ∧ TearsNothing reached ∧ problems text = [⟨2, 2⟩] ∧ landing? text 2 = some reached ∧
      (∃ moves, moves < budget text ∧ Moves moves text (fix text) ∧ problems (fix text) = []) ∧
      (Source.ofText (relocate text 2)).directives.length = (Source.ofText text).directives.length := by
  intro text reached
  have facts : Tidy (Token.ofText text) ∧ ¬ TearsNothing text ∧ 1 < (Source.ofText text).directives.length + 4 ∧
      Moves 1 text reached ∧ TearsNothing reached ∧ problems text = [⟨2, 2⟩] ∧ landing? text 2 = some reached := by
    decide +kernel
  obtain ⟨tidy, torn, early, run, whole, flagged, lands⟩ := facts
  obtain ⟨enough, kept⟩ := exists_moves_fix (fun _ => tidy) early run whole
  have first := kept 0 text ⟨2, 2⟩ [] (.none text) flagged
  rw [show (⟨2, 2⟩ : Problem).line = 2 from rfl, lands] at first
  exact ⟨tidy, torn, early, run, whole, flagged, lands, enough, first⟩

/-- Two directives that interrupt an assignment change places for ever: the one in front is moved behind the
other, where it seems to interrupt nothing. Both are dropped when the budget is used up. -/
theorem not_exists_moves_fix_pair :
    let text := "a =\n#sourceLocation(file: \"t\", line: 4)\n#sourceLocation(file: \"t\", line: 4)\n1\n".toList
    Tidy (Token.ofText text) ∧ problems text = [⟨2, 2⟩] ∧ landing? text 2 = some text ∧
      (∀ rounds reached, Moves rounds text reached → problems reached ≠ []) ∧ fix text = "a =\n1\n".toList := by
  intro text
  have facts : Tidy (Token.ofText text) ∧ problems text = [⟨2, 2⟩] ∧ landing? text 2 = some text ∧
      Moves 1 text text ∧ fix text = "a =\n1\n".toList := by
    decide +kernel
  obtain ⟨tidy, flagged, lands, back, dropped⟩ := facts
  refine ⟨tidy, flagged, lands, ?_, dropped⟩
  intro rounds reached run
  exact back.problems_ne_nil run

/-- Whatever a program lacks to be tidy, two directives can change places for ever although none tore a statement
at first. -/
theorem exists_moves_back (flaw : Flaw) : ∃ text reached, LacksOnly flaw text ∧ TearsNothing text ∧
    Moves 1 text reached ∧ Moves 2 reached reached := by
  cases flaw with
  | hiddenDirective =>
    refine ⟨"a =\n#sourceLocation(\n#sourceLocation()\n)\n1\n".toList,
      "a =\n#sourceLocation(\n)\n#sourceLocation()\n1\n".toList, ?_⟩
    decide +kernel
  | openLiteral =>
    refine ⟨("if a \x7b\n\x7d\n#sourceLocation(file: \"\"\"\na =\n#sourceLocation()\n#sourceLocation()\nx\n"
        ++ "\"\"\", line: 3)\nelse \x7b \"\"\"b").toList,
      ("if a \x7b\n\x7d\nelse \x7b \"\"\"b\n#sourceLocation(file: \"\"\"\na =\n#sourceLocation()\n"
        ++ "#sourceLocation()\nx\n\"\"\", line: 5)").toList, ?_⟩
    decide +kernel
  | commentBefore =>
    refine ⟨("if a \x7b\n\x7d\n/* c\n */ #sourceLocation()\nelse \x7b \"\"\"\n*/\na =\n"
        ++ "#sourceLocation()\n#sourceLocation()\nx\n\"\"\" \x7d\n").toList,
      ("if a \x7b\n\x7d\n/* c\nelse \x7b \"\"\"\n*/\na =\n#sourceLocation()\n#sourceLocation()\nx\n\"\"\" \x7d\n"
        ++ " */ #sourceLocation()\n").toList, ?_⟩
    decide +kernel
  | commentBehind =>
    refine ⟨("if a \x7b\n\x7d\n#sourceLocation() // t\nelse \x7b\x7d /* \na =\n"
        ++ "#sourceLocation()\n#sourceLocation()\nx */ b").toList,
      ("if a \x7b\n\x7d\nelse \x7b\x7d \n#sourceLocation() // t/* \na =\n"
        ++ "#sourceLocation()\n#sourceLocation()\nx */ b").toList, ?_⟩
    decide +kernel
  | sharedLine =>
    refine ⟨"a =\n#\n#sourceLocation() sourceLocation()\n1\n".toList,
      "a =\n#sourceLocation()\n#sourceLocation() \n1\n".toList, ?_⟩
    decide +kernel

end SwiftTemplate.Repair
