import SwiftTemplate.Proofs.Repair.Tokens
import SwiftTemplate.Proofs.Template.Slices

/-!
# Lines below a moved directive

A directive that is moved announces the program line below it, so that the code behind it maps to
the program itself. That is the line of the template it mapped to before only by chance.
-/
namespace SwiftTemplate

namespace Swift.Source

def directiveAbove? (source : Source) (line : Nat) : Option (Nat × Directive) :=
  (source.directives.filter fun place => source.lineOf place.1 < line).getLast?

/-- The line that a line maps to: the distance from the last directive above it, added to what this
directive announces. -/
def templateLine? (source : Source) (line : Nat) : Option Nat :=
  (source.directiveAbove? line).bind fun place =>
    (Directive.announced? (source.tokens.drop place.1)).map (· + (line - source.lineOf place.1 - 1))

end Swift.Source

namespace Repair

open Swift
open Swift.Token (render Lexed)

/-! ## A directive that has been put in -/

theorem exists_found_of_firstFit? {draft : Draft} {unit : List Piece} {index : Nat} {text : List Char}
    (h : firstFit? draft unit index = some text) :
    ∃ slot, index ≤ slot ∧ slot < draft.pieces.length ∧ Found draft unit slot text := by
  fun_induction firstFit? draft unit index with
  | case1 index inside form marked ih =>
    obtain ⟨slot, after, found⟩ := ih h
    exact ⟨slot, by omega, found⟩
  | case2 index inside unmarked starts text' line tried flagged ih =>
    obtain ⟨slot, after, found⟩ := ih h
    exact ⟨slot, by omega, found⟩
  | case3 index inside unmarked starts text' line tried free =>
    obtain rfl := Option.some.inj h
    refine ⟨index, Nat.le_refl _, inside, starts, by rw [tried], ?_⟩
    rw [tried]
    exact Bool.eq_false_iff.2 free
  | case4 index inside unmarked within ih =>
    obtain ⟨slot, after, found⟩ := ih h
    exact ⟨slot, by omega, found⟩
  | case5 index outside => cases h

theorem exists_unitAt (index : Nat) (head : Token) (rest : List Token) :
    ∃ leading, unitAt index (cutOut head rest) = { head with leading := leading } :: rest := by
  rw [cutOut, unitAt, List.modifyHead_cons]
  split <;> exact ⟨_, rfl⟩

theorem exists_front_of_mem_directives {text : List Char} {place : Nat} {form : Directive}
    (h : (place, form) ∈ (Source.ofText text).directives) : ∃ front token behind,
      Token.ofText text = front ++ token :: behind ∧ front.length = place ∧
      Directive.first? (token :: behind) = some form := by
  have shape : Directive.first? ((Token.ofText text).drop place) = some form :=
    (Directive.first?_drop_of_mem_places h).2
  obtain ⟨token, behind, hdrop, -⟩ := Directive.begins_of_first? shape
  have inside := congrArg List.length hdrop
  rw [List.length_drop, List.length_cons] at inside
  refine ⟨(Token.ofText text).take place, token, behind, ?_, List.length_take_of_le (by omega), hdrop ▸ shape⟩
  rw [← hdrop, List.take_append_drop]

/-- A directive that begins where one was put in is that one: it stands on the line that was told, and announces
the line below it, as long as there are numbers for lines. -/
theorem announced?_of_placed {draft : Draft} {slot : Nat} (inside : slot ≤ draft.pieces.length) {head : Token}
    {rest : List Token} (read : Directive.Read .located (head :: rest)) {moved : List Char} {landed : Nat}
    (tried : placed draft (headed .located (cutOut head rest)) slot = (moved, landed)) {landing : Nat}
    (hlanding : (landing, .located) ∈ (Source.ofText moved).directives)
    (start : (Source.ofText moved).starts.getD landing 0
      = (draft.insert slot (headed .located (cutOut head rest))).startOf slot) :
    (Source.ofText moved).lineOf landing = landed ∧
      Directive.announced? ((Source.ofText moved).tokens.drop landing)
        = (some (landed + 1)).filter (· < Directive.lineBound) := by
  obtain ⟨front, behind, rfl, rfl⟩ : ∃ front behind, draft = ⟨front ++ behind⟩ ∧ slot = front.length :=
    ⟨draft.pieces.take slot, draft.pieces.drop slot, by rw [List.take_append_drop],
      (List.length_take_of_le inside).symm⟩
  obtain ⟨leading, unit⟩ := exists_unitAt front.length head rest
  obtain ⟨line, hline, tried'⟩ := placed_append front behind .located (cutOut head rest)
  obtain ⟨rendered, rfl⟩ := Prod.mk.inj (tried.symm.trans tried')
  rw [unit, lineOf_headed] at hline
  rw [unit, announce, if_pos (show ({ head with leading := leading } :: rest).length = _ from read.size),
    Directive.renumber, Directive.lineToken, List.modify_succ_cons] at rendered
  obtain ⟨before, token, others, split, rfl, shape⟩ := exists_front_of_mem_directives hlanding
  have lexed : Lexed (token :: others) :=
    (split ▸ Token.lexed_ofText moved : Lexed (before ++ token :: others)).of_append (List.cons_ne_nil _ _)
  rw [Source.getD_starts split, insert_append, unit, startOf_headed] at start
  -- The result is cut at one byte in two ways: where the token begins and where the directive was put in.
  have whole : (render before ++ token.leading) ++ (token.text ++ (token.trailing ++ render others))
      = (renderPieces front ++ leading)
        ++ (render (Directive.renumber (landed + 1) ({ head with leading := [] } :: rest)) ++ renderPieces behind) := by
    rw [← Source.text_eq split, rendered, Directive.renumber, Directive.lineToken, List.modify_succ_cons]
    simp [Token.source]
  obtain ⟨front_eq, same⟩ := Text.append_inj_of_byteSize whole start
  refine ⟨?_, ?_⟩
  · rw [Source.lineOf_eq split, front_eq, hline]
  · show Directive.announced? ((Token.ofText moved).drop before.length) = _
    rw [split, List.drop_left]
    exact read.announced?_of_text_eq lexed shape same

/-- Below a directive that announces the line below its own, every line maps to itself. -/
theorem templateLine?_of_announced {source : Source} {landing landed line : Nat}
    (hline : source.lineOf landing = landed)
    (announced : Directive.announced? (source.tokens.drop landing)
      = (some (landed + 1)).filter (· < Directive.lineBound))
    (above : source.directiveAbove? line = some (landing, .located)) (bounded : line < Directive.lineBound) :
    source.templateLine? line = some line := by
  have below : landed < line := by
    have := (List.mem_filter.1 (List.mem_of_getLast? above)).2
    rwa [hline, decide_eq_true_eq] at this
  have numbered : (some (landed + 1)).filter (· < Directive.lineBound) = some (landed + 1) :=
    if_pos (by simp only [decide_eq_true_eq]; omega)
  rw [Source.templateLine?, above, Option.bind_some, announced, hline, numbered, Option.map_some]
  exact congrArg some (by omega)

/-! ## Tokens by their number -/

/-- A token of the program outside directives is one of its parts. -/
theorem exists_plain_of_getElem? {parts : List Part} {start number place : Nat}
    (h : (plainPlacesFrom start parts)[number]? = some place) :
    ∃ front token behind, parts = front ++ .plain token :: behind ∧ (plainsOf front).length = number ∧
      start + (tokensOf front).length = place := by
  induction parts using parts_induction generalizing start number with
  | nil => cases h
  | token token parts ih =>
    cases number with
    | zero => exact ⟨[], token, parts, rfl, rfl, Option.some.inj h⟩
    | succ number =>
      obtain ⟨front, other, behind, rfl, hnumber, hplace⟩ := ih h
      refine ⟨.plain token :: front, other, behind, rfl, congrArg (· + 1) hnumber, ?_⟩
      rw [tokensOf_cons, List.length_append, ← Nat.add_assoc]
      exact hplace
  | directive part form parts hform ih =>
    rw [plainPlacesFrom_cons_of_form hform] at h
    obtain ⟨front, token, behind, rfl, hnumber, hplace⟩ := ih h
    refine ⟨part :: front, token, behind, rfl, ?_, ?_⟩
    · rw [plainsOf_cons_of_form hform]
      exact hnumber
    · rw [tokensOf_cons, List.length_append, ← Nat.add_assoc]
      exact hplace

/-- A token among the parts is found again by the number of tokens before it. -/
theorem eq_of_length_plainsOf_eq {front front' behind behind' : List Part} {token token' : Token}
    (h : front ++ .plain token :: behind = front' ++ .plain token' :: behind')
    (hnumber : (plainsOf front).length = (plainsOf front').length) : front = front' ∧ token = token' := by
  rcases split_cases h with ⟨hfront, htoken, -⟩ | ⟨gap, rfl, -⟩ | ⟨gap, rfl, -⟩
  · exact ⟨hfront, Part.plain.inj htoken⟩
  · rw [plainsOf_append, plainsOf, List.length_append, List.length_cons] at hnumber
    omega
  · rw [plainsOf_append, plainsOf, List.length_append, List.length_cons] at hnumber
    omega

/-! ## Line breaks of a directive -/

/-- A directive on a line of its own has a line break more than the directive that was cut out, if this
one shared its line. -/
theorem newlines_onOwnLine (head : Token) (rest : List Token) :
    Text.newlines (leftBehind head) + Text.newlines (render (onOwnLine head rest))
      = Text.newlines (render (head :: rest)) + if head.startsLine then 0 else 1 := by
  rw [onOwnLine, leftBehind, freshLeading, Token.startsLine]
  simp only [Token.render_cons, Token.source, Text.newlines_append]
  rcases Text.cutAtLastNewline_cases head.leading with ⟨hnone, hcut⟩ | ⟨before, indent, hleading, -, hcut⟩
  · have shares : head.leading.contains '\n' = false := by simpa using hnone
    have none : Text.newlines head.leading = 0 := List.count_eq_zero.2 hnone
    have fresh : Text.newlines ['\n'] = 1 := rfl
    simp only [hcut, shares, none, if_pos, fresh, Bool.false_eq_true, if_false]
    omega
  · have begins : head.leading.contains '\n' = true := by simp [hleading]
    have whole : Text.newlines head.leading = Text.newlines before + Text.newlines ('\n' :: indent) := by
      rw [hleading, Text.newlines_append]
    simp only [hcut, begins, whole, List.cons_ne_nil, if_false, if_true]
    omega

/-- What a directive announces is no matter of line breaks. -/
theorem newlines_announce {form : Directive} {tokens : List Token} (h : form.Standalone tokens) (line : Nat) :
    Text.newlines (render (announce line tokens)) = Text.newlines (render tokens) := by
  unfold announce
  split
  · next located =>
    cases form with
    | reset =>
      rw [h.size] at located
      cases located
    | located => exact h.newlines_renumber _
  · rfl

/-! ## What a landing looks like -/

section
variable {text moved : List Char} {front behind gap beyond : List Part} {part : Part} {form : Directive}
  {head token : Token} {rest : List Token} {line : Nat}

/-- The parts of a program in which a directive has landed: what it left behind is in front of the parts
that it passed. -/
theorem Landing.exists_parts (hat : At text front part behind form head rest)
    (h : Landing moved front behind form head rest gap token beyond line) : ∃ before kept,
      before = pend (leftBehind head) gap ∧
      Holds moved
        (front ++ before ++ .moved form kept (announce line (onOwnLine head rest)) :: .plain token :: beyond) ∧
      (tokensOf (front ++ before)).length = (tokensOf (front ++ gap)).length ∧
      (plainsOf before).length = (plainsOf gap).length ∧
      Text.newlines (render (tokensOf before)) + Text.newlines kept
        = Text.newlines (leftBehind head) + Text.newlines (render (tokensOf gap)) := by
  have holds := h.holds
  have sound := hat.loose.sound
  rw [h.behind_eq] at sound
  cases gap with
  | nil =>
    refine ⟨[], leftBehind head, rfl, ?_, rfl, rfl, ?_⟩
    · rw [List.nil_append, pend, List.append_nil] at holds
      rw [List.append_nil]
      exact holds
    · simp [tokensOf]
  | cons first gap =>
    refine ⟨pend (leftBehind head) (first :: gap), [], rfl, ?_, ?_, ?_, ?_⟩
    · rw [pend_append] at holds
      rw [List.append_assoc]
      exact holds
    · rw [tokensOf_append, tokensOf_append, List.length_append, List.length_append, length_tokensOf_pend _ sound]
    · have := congrArg List.length (bared_plainsOf_pend (leftBehind head) (first :: gap))
      simpa using this
    · have whole := congrArg render (tokensOf_pend (leftBehind head) sound)
      rw [Token.render_prepend _ (tokensOf_ne_nil sound (by simp)), pend_append, tokensOf_append, tokensOf_append,
        Token.render_append, Token.render_append, ← List.append_assoc] at whole
      rw [List.append_cancel_right whole, Text.newlines_append, Text.newlines_nil, Nat.add_zero]

theorem Landing.mem_directives (hat : At text front part behind form head rest)
    (h : Landing moved front behind form head rest gap token beyond line) :
    ((tokensOf (front ++ gap)).length, form) ∈ (Source.ofText moved).directives := by
  obtain ⟨before, kept, -, holds, hlength, -, -⟩ := h.exists_parts hat
  rw [← hlength]
  exact holds.mem_directives rfl

theorem Landing.slot_le (h : Landing moved front behind form head rest gap token beyond line) :
    (tokensOf (front ++ gap)).length ≤ (remainder (leftBehind head) (piecesOf front) (piecesOf behind)).length := by
  rw [length_remainder, length_piecesOf, length_piecesOf, h.behind_eq, tokensOf_append, tokensOf_append,
    List.length_append, List.length_append]
  omega

theorem Landing.announced? (hat : At text front part behind .located head rest)
    (h : Landing moved front behind .located head rest gap token beyond line) :
    Directive.announced? ((Source.ofText moved).tokens.drop (tokensOf (front ++ gap)).length)
      = (some (line + 1)).filter (· < Directive.lineBound) := by
  obtain ⟨before, kept, -, holds, hlength, -, -⟩ := h.exists_parts hat
  have located : (onOwnLine head rest).length = Directive.located.size := hat.loose.unit.size
  have tokens : (Source.ofText moved).tokens.drop (tokensOf (front ++ gap)).length
      = Token.prepend kept (Directive.renumber (line + 1) (onOwnLine head rest))
        ++ tokensOf (.plain token :: beyond) := by
    rw [← hlength, holds.source_tokens, tokensOf_append (front ++ before), List.drop_left, tokensOf_cons, announce,
      if_pos located]
    rfl
  rw [tokens]
  exact (hat.loose.unit).announced?_renumber (line + 1) kept _

/-! ## The lines that move along -/

/-- A token behind a directive that has landed stands where it stood, and one line further down if the
directive shared its line. -/
theorem Landing.lineOf_eq (hat : At text front part behind form head rest)
    (h : Landing moved front behind form head rest gap token beyond line) {number place place' : Nat}
    (hplace : (Directive.outsidePlaces 0 (Token.ofText text))[number]? = some place)
    (hplace' : (Directive.outsidePlaces 0 (Token.ofText moved))[number]? = some place')
    (below : line < (Source.ofText moved).lineOf place') :
    (Source.ofText moved).lineOf place' = (Source.ofText text).lineOf place + if head.startsLine then 0 else 1 := by
  obtain ⟨before, kept, -, holds, hlength, hcount, hbreaks⟩ := h.exists_parts hat
  rw [hat.holds.tokens, outsidePlaces_tokensOf hat.holds.sound hat.holds.bare] at hplace
  rw [holds.tokens, outsidePlaces_tokensOf holds.sound holds.bare] at hplace'
  obtain ⟨upTo, other, later, hparts, hnumber, rfl⟩ := exists_plain_of_getElem? hplace
  obtain ⟨upTo', other', later', hparts', hnumber', rfl⟩ := exists_plain_of_getElem? hplace'
  simp only [Nat.zero_add] at below ⊢
  have own := (hparts ▸ hat.holds : Holds text (upTo ++ .plain other :: later)).lineOf_eq rfl
  have own' := (hparts' ▸ holds : Holds moved (upTo' ++ .plain other' :: later')).lineOf_eq rfl
  rcases split_cases hparts' with ⟨-, hpart, -⟩ | ⟨passed, rfl, hpassed⟩ | ⟨passed, hfront, -⟩
  · cases hpart
  · -- The token is behind the directive, and as far behind it as behind the token it is in front of.
    have aligned : front ++ part :: gap ++ passed ++ .plain other' :: later' = upTo ++ .plain other :: later := by
      rw [← hparts, h.behind_eq]
      simp [hpassed]
    have counted : (plainsOf (front ++ part :: gap ++ passed)).length = (plainsOf upTo).length := by
      rw [hnumber, ← hnumber']
      simp only [plainsOf_append, plainsOf, plainsOf_cons_of_form hat.form, List.length_append, hcount]
    obtain ⟨rfl, rfl⟩ := eq_of_length_plainsOf_eq aligned counted
    have unit := newlines_announce hat.loose.unit line
    have alone := newlines_onOwnLine head rest
    have landed : render (Part.moved form kept (announce line (onOwnLine head rest))).tokens
        = kept ++ render (announce line (onOwnLine head rest)) :=
      Token.render_prepend kept (standalone_ne_nil (standalone_announce hat.loose.unit line))
    rw [own, own']
    simp only [tokensOf_append, tokensOf_cons, hat.tokens, Token.render_append, landed, Text.newlines_append, unit]
    omega
  · -- A token in front of the directive is not below it.
    exfalso
    have line_eq := h.line_eq
    obtain ⟨rest', hrest'⟩ := exists_announce line { head with leading := freshLeading head.leading } rest
    have landed := holds.lineOf_eq (by rw [Part.tokens, onOwnLine, hrest']; rfl)
    rw [← hlength, landed, hfront] at line_eq
    rw [own', ← line_eq] at below
    simp only [tokensOf_append, tokensOf_cons, Part.tokens, Token.render_append, Token.render_cons, Token.source,
      List.singleton_append, Text.newlines_append] at below
    omega

end

/-- Where a search for a place has ended. In a tidy program the directive has landed there. -/
theorem exists_slot {text moved : List Char} {problem : Problem} (hproblem : problem ∈ problems text) {index : Nat}
    {form : Directive} (hfind : directiveOn? (Source.ofText text) problem.line = some (index, form)) {draft : Draft}
    {unit : List Piece} (hcut : (Draft.ofTokens (Source.ofText text).tokens).detach index form.size = (draft, unit))
    (hfit : firstFit? draft unit index = some moved) :
    relocate text problem.line = moved ∧ ∃ slot landed, slot ≤ draft.pieces.length ∧
      placed draft unit slot = (moved, landed) ∧
      (Tidy (Token.ofText text) → ∃ front part behind head rest gap token beyond,
        At text front part behind form head rest ∧ index = (tokensOf front).length ∧
        slot = (tokensOf (front ++ gap)).length ∧ Landing moved front behind form head rest gap token beyond landed) := by
  have relocated : relocate text problem.line = moved := by
    rw [relocate, hfind]
    dsimp only
    rw [hcut, hfit, Option.getD_some]
  refine ⟨relocated, ?_⟩
  by_cases tidy : Tidy (Token.ofText text)
  · obtain ⟨front, part, behind, own, head, rest, -, hat, hfind', round⟩ :=
      (holds_partsOf tidy).exists_round hproblem
    obtain ⟨rfl, rfl⟩ := Prod.mk.inj (Option.some.inj (hfind.symm.trans hfind'))
    obtain ⟨rfl, rfl⟩ := Prod.mk.inj (hcut.symm.trans hat.detach_eq)
    rw [hcut, hfit, relocated] at round
    rcases round with ⟨gap, token, beyond, landed, -, landing⟩ | ⟨hnone, -⟩
    · exact ⟨_, landed, landing.slot_le, landing.placed_eq,
        fun _ => ⟨front, part, behind, head, rest, gap, token, beyond, hat, rfl, rfl, landing⟩⟩
    · cases hnone
  · obtain ⟨slot, -, inside, found⟩ := exists_found_of_firstFit? hfit
    exact ⟨slot, _, Nat.le_of_lt inside, Prod.ext found.text_eq.symm rfl, fun h => absurd h tidy⟩

/-- Below a directive that was moved, everything whose nearest directive above is the moved one maps to the
line on which it stands. So it maps to what it mapped to before only where the program mapped to this line. In a
tidy program the moved directive is one of the result, and what is below it stands where it stood before or, where
the directive shared its line, on the next line. -/
theorem templateLine?_of_firstFit? {text moved : List Char} {problem : Problem} (hproblem : problem ∈ problems text)
    {index : Nat} (hfind : directiveOn? (Source.ofText text) problem.line = some (index, .located)) {draft : Draft}
    {unit : List Piece}
    (hcut : (Draft.ofTokens (Source.ofText text).tokens).detach index Directive.located.size = (draft, unit))
    (hfit : firstFit? draft unit index = some moved) :
    relocate text problem.line = moved ∧ ∃ slot landed, placed draft unit slot = (moved, landed) ∧
      (∀ landing, (landing, .located) ∈ (Source.ofText moved).directives →
        (Source.ofText moved).starts.getD landing 0 = (draft.insert slot unit).startOf slot →
        (Source.ofText moved).lineOf landing = landed ∧
        ∀ line line' : Nat, (Source.ofText moved).directiveAbove? line' = some (landing, .located) →
          line' < Directive.lineBound →
          (Source.ofText moved).templateLine? line' = some line' ∧
          ((Source.ofText moved).templateLine? line' = (Source.ofText text).templateLine? line
            ↔ (Source.ofText text).templateLine? line = some line')) ∧
      (Tidy (Token.ofText text) → (slot, .located) ∈ (Source.ofText moved).directives ∧
        (Source.ofText moved).starts.getD slot 0 = (draft.insert slot unit).startOf slot ∧
        ∀ number place place' : Nat, (Directive.outsidePlaces 0 (Token.ofText text))[number]? = some place →
          (Directive.outsidePlaces 0 (Token.ofText moved))[number]? = some place' →
          (Source.ofText moved).directiveAbove? ((Source.ofText moved).lineOf place') = some (slot, .located) →
          (Source.ofText moved).lineOf place' = (Source.ofText text).lineOf place
            + if (Token.ofText text)[index]?.any Token.startsLine then 0 else 1) := by
  obtain ⟨relocated, slot, landed, inside, tried, lands⟩ := exists_slot hproblem hfind hcut hfit
  refine ⟨relocated, slot, landed, tried, fun landing hlanding start => ?_, fun tidy => ?_⟩
  · obtain ⟨_, _, _, head, rest, _, _, _, _, read, _, detached⟩ := exists_part (List.mem_of_find?_eq_some hfind)
    obtain ⟨_, rfl⟩ := Prod.mk.inj (hcut.symm.trans detached)
    obtain ⟨hline, announced⟩ := announced?_of_placed inside read tried hlanding start
    refine ⟨hline, fun line line' above bounded => ?_⟩
    have itself := templateLine?_of_announced hline announced above bounded
    refine ⟨itself, ?_⟩
    rw [itself]
    exact eq_comm
  · obtain ⟨front, part, behind, head, rest, gap, token, beyond, hat, rfl, rfl, landing⟩ := lands tidy
    obtain ⟨rfl, rfl⟩ := Prod.mk.inj (hcut.symm.trans hat.detach_eq)
    refine ⟨landing.mem_directives hat, landing.start_eq, fun number place place' hplace hplace' above => ?_⟩
    have below := (List.mem_filter.1 (List.mem_of_getLast? above)).2
    rw [landing.line_eq, decide_eq_true_eq] at below
    rw [hat.holds.tokens, tokensOf_append, tokensOf_cons, hat.tokens,
      List.getElem?_append_right (Nat.le_refl _), Nat.sub_self]
    exact landing.lineOf_eq hat hplace hplace' below

/-- A directive inside a call moves behind it, and the line below maps to what it mapped to. -/
theorem templateLine?_of_firstFit?_call :
    let text := "f(\n#sourceLocation(file: \"t\", line: 3)\n)\ng()\n".toList
    let moved := "f(\n)\n#sourceLocation(file: \"t\", line: 4)\ng()\n".toList
    let cut := (Draft.ofTokens (Source.ofText text).tokens).detach 2 Directive.located.size
    Tidy (Token.ofText text) ∧ problems text = [⟨2, 2⟩] ∧
      directiveOn? (Source.ofText text) 2 = some (2, .located) ∧ firstFit? cut.1 cut.2 2 = some moved ∧
      (3, .located) ∈ (Source.ofText moved).directives ∧
      (Source.ofText moved).directiveAbove? 4 = some (3, .located) ∧
      (Source.ofText moved).lineOf 13 = (Source.ofText text).lineOf 13 ∧
      (Source.ofText moved).templateLine? 4 = some 4 ∧
      (Source.ofText moved).templateLine? 4 = (Source.ofText text).templateLine? 4 := by
  intro text moved cut
  have facts : Tidy (Token.ofText text) ∧ problems text = [⟨2, 2⟩] ∧
      directiveOn? (Source.ofText text) 2 = some (2, .located) ∧ firstFit? cut.1 cut.2 2 = some moved ∧
      (Directive.outsidePlaces 0 (Token.ofText text))[3]? = some 13 ∧
      (Token.ofText text)[2]?.any Token.startsLine = true ∧ (Source.ofText text).templateLine? 4 = some 4 := by
    decide +kernel
  have landed : (Directive.outsidePlaces 0 (Token.ofText moved))[3]? = some 13 ∧ (Source.ofText moved).lineOf 13 = 4 ∧
      (Source.ofText moved).directives = [(3, .located)] ∧
      (Source.ofText moved).directiveAbove? 4 = some (3, .located) := by
    decide +kernel
  obtain ⟨tidy, hproblems, hfind, hfit, hplace, begins, mapped⟩ := facts
  obtain ⟨hplace', hline', only, above⟩ := landed
  have hproblem : (⟨2, 2⟩ : Problem) ∈ problems text := by
    rw [hproblems]
    exact List.mem_singleton_self _
  obtain ⟨-, slot, landed, -, maps, whole⟩ := templateLine?_of_firstFit? hproblem hfind rfl hfit
  obtain ⟨hslot, start, lines⟩ := whole tidy
  obtain ⟨-, maps⟩ := maps slot hslot start
  have place := hslot
  rw [only, List.mem_singleton, Prod.mk.injEq] at place
  obtain ⟨rfl, -⟩ := place
  obtain ⟨itself, same⟩ := maps 4 4 above (by decide)
  have stays := lines 3 13 13 hplace hplace' (by rwa [hline'])
  rw [if_pos begins, Nat.add_zero] at stays
  exact ⟨tidy, hproblems, hfind, hfit, hslot, above, stays, itself, same.2 mapped⟩

/-- A directive in front of an `else` moves into its block, and what the block holds, which was on the
template line 41, maps to the program line 5. -/
theorem templateLine?_relocate_else :
    let text := "if a \x7b\n\x7d\n#sourceLocation(file: \"t\", line: 40)\nelse \x7b\nf()\n\x7d\n".toList
    let moved := "if a \x7b\n\x7d\nelse \x7b\n#sourceLocation(file: \"t\", line: 5)\nf()\n\x7d\n".toList
    problems text = [⟨3, 4⟩] ∧ relocate text 3 = moved ∧
      (Source.ofText text).directives = [(4, .located)] ∧ (Source.ofText moved).directives = [(6, .located)] ∧
      (Directive.outsidePlaces 0 (Token.ofText text))[6]? = some 16 ∧
      (Directive.outsidePlaces 0 (Token.ofText moved))[6]? = some 16 ∧
      (Source.ofText moved).directiveAbove? ((Source.ofText moved).lineOf 16) = some (6, .located) ∧
      (Source.ofText text).templateLine? ((Source.ofText text).lineOf 16) = some 41 ∧
      (Source.ofText moved).templateLine? ((Source.ofText moved).lineOf 16) = some 5 := by
  decide +kernel

end Repair

end SwiftTemplate
