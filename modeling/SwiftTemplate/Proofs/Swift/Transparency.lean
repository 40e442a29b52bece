import SwiftTemplate.Repair.Problem
import SwiftTemplate.Proofs.Swift.Outside

/-!
# Directives that the diagnostics do not see

Two readings of a program, one with its directives and one without them, go through the same
scopes. They differ only right behind a directive, where the reading with directives has forgotten
the body just closed and sees a parenthesis in front. If no directive is at fault, no token that
looks back stands there, and both readings find the same.
-/
namespace SwiftTemplate.Swift

/-- The frame of a delimiter whose place `index` is the place `place index` of another list. -/
def Frame.renumber (place : Nat → Nat) (frame : Frame) : Frame := { frame with index := place frame.index }

/-- The scopes with the places of all open delimiters renumbered. -/
def Nesting.renumber (place : Nat → Nat) (nesting : Nesting) : Nesting :=
  { nesting with frames := nesting.frames.map (Frame.renumber place) }

/-- A complaint about the tokens from the first place to the last, with both of them renumbered. -/
def Diagnostic.renumber (place : Nat → Nat) (diagnostic : Diagnostic) : Diagnostic :=
  { diagnostic with first := place diagnostic.first, stop := place (diagnostic.stop - 1) + 1 }

/-- The complaint with the places it has among the tokens at some places of a longer list. -/
def Diagnostic.among (places : List Nat) : Diagnostic → Diagnostic := Diagnostic.renumber (places.getD · 0)

section
variable (place : Nat → Nat) (nesting : Nesting)

@[simp] theorem Nesting.awaiting_renumber : (nesting.renumber place).awaiting = nesting.awaiting := by
  unfold awaiting renumber
  cases nesting.frames <;> rfl

@[simp] theorem Nesting.holdsStatements_renumber :
    (nesting.renumber place).holdsStatements = nesting.holdsStatements := by
  unfold holdsStatements renumber
  cases nesting.frames <;> rfl

@[simp] theorem Nesting.await_renumber (word : Option Keyword) :
    (nesting.renumber place).await word = (nesting.await word).renumber place := by
  unfold await renumber
  cases nesting.frames <;> rfl

@[simp] theorem Nesting.enter_renumber (bracket : Bracket) (index : Nat) :
    (nesting.renumber place).enter bracket (place index) = (nesting.enter bracket index).renumber place := by
  by_cases body : bracket = .brace <;> simp [enter, body] <;> simp [renumber, Frame.renumber]

private theorem bracket_renumber : (fun frame : Frame => decide (frame.bracket ≠ bracket)) ∘ Frame.renumber place
    = fun frame => decide (frame.bracket ≠ bracket) := rfl

theorem Nesting.match?_renumber (bracket : Bracket) :
    (nesting.renumber place).match? bracket = (nesting.match? bracket).map fun (inside, frame, around) =>
      (inside.map (Frame.renumber place), frame.renumber place, around.map (Frame.renumber place)) := by
  unfold match? renumber
  simp only [List.dropWhile_map, List.takeWhile_map, bracket_renumber]
  cases nesting.frames.dropWhile (fun frame => decide (frame.bracket ≠ bracket)) <;> rfl

end

namespace Diagnostic

@[simp] theorem renumber_single (place : Nat → Nat) (index : Nat) (complaint : Complaint) :
    (single index complaint).renumber place = single (place index) complaint := by
  simp [single, renumber]

@[simp] theorem map_renumber_singleIf (place : Nat → Nat) (cause : Bool) (index : Nat) (complaint : Complaint) :
    (singleIf cause index complaint).map (renumber place) = singleIf cause (place index) complaint := by
  cases cause <;> simp [singleIf]

/-- Whether a diagnostic counts against the directive at some place. -/
def blames (index : Nat) (form : Directive) (diagnostic : Diagnostic) : Prop :=
  (diagnostic.first < index + form.size ∧ index < diagnostic.stop) ∨ diagnostic.first = index + form.size

/-- What a directive without fault tells of the place it stands at. -/
structure Accepts (state : State) (previous : Option Token) : Prop where
  holds : state.nesting.holdsStatements = true
  awaits : state.nesting.awaiting = none
  afterPoint : isKind .dot previous = false
  afterRepeat : state.closed ≠ some .repeatKw

theorem mem_singleIf {cause : Bool} {index : Nat} {complaint : Complaint} {diagnostic : Diagnostic} :
    diagnostic ∈ singleIf cause index complaint ↔ cause = true ∧ diagnostic = single index complaint := by
  cases cause <;> simp [singleIf]

/-- What is wrong with a directive is told of it or of the token behind it. -/
theorem mem_ofDirective {state : State} {index : Nat} {form : Directive} {previous behind : Option Token} {head : Token}
    {diagnostic : Diagnostic} : diagnostic ∈ ofDirective state index form previous head behind ↔
      misplacements state previous head behind ≠ [] ∧ diagnostic
        = ⟨index, index + form.size, .misplacedDirective (misplacements state previous head behind)⟩ ∨
      behind.any cannotBegin = true ∧ diagnostic = single (index + form.size) .statementExpected := by
  unfold ofDirective
  by_cases reasons : misplacements state previous head behind = [] <;> simp [reasons, mem_singleIf]

/-- A diagnostic of a directive counts against it. -/
theorem blames_of_mem_ofDirective {state : State} {index : Nat} {form : Directive} {previous behind : Option Token}
    {head : Token} {diagnostic : Diagnostic}
    (h : diagnostic ∈ ofDirective state index form previous head behind) : diagnostic.blames index form := by
  have := Directive.size_pos form
  rcases mem_ofDirective.1 h with ⟨-, rfl⟩ | ⟨-, rfl⟩
  · exact .inl ⟨by dsimp only; omega, by dsimp only; omega⟩
  · exact .inr rfl

theorem misplacements_eq_nil_of_ofDirective {state : State} {index : Nat} {form : Directive}
    {previous behind : Option Token} {head : Token} (h : ofDirective state index form previous head behind = []) :
    misplacements state previous head behind = [] := by
  by_contra reasons
  exact List.ne_nil_of_mem (mem_ofDirective.2 (.inl ⟨reasons, rfl⟩)) h

theorem accepts_of_ofDirective_eq_nil {state : State} {index : Nat} {form : Directive}
    {previous behind : Option Token} {head : Token}
    (h : ofDirective state index form previous head behind = []) : Accepts state previous := by
  have reasons := misplacements_eq_nil_of_ofDirective h
  unfold misplacements at reasons
  simp only [List.append_eq_nil_iff] at reasons
  obtain ⟨⟨⟨⟨-, -⟩, scope⟩, unfinished⟩, repeats⟩ := reasons
  refine ⟨?_, ?_, ?_, ?_⟩
  · cases hs : state.nesting.holdsStatements with
    | true => rfl
    | false => simp [hs] at scope
  · cases hs : state.nesting.holdsStatements with
    | true => simpa [hs] using scope
    | false => simp [hs] at scope
  · cases previous with
    | none => rfl
    | some token =>
      by_cases point : token.kind = .dot
      · simp [needsMore, point] at unfinished
      · simp [isKind, point]
  · intro closed
    simp [closed] at repeats

/-- One token means the same with its place and those of the open delimiters renumbered. -/
theorem ofToken_renumber (place : Nat → Nat) (nesting : Nesting) (closed : Option Keyword) (index : Nat)
    (previous : Option Token) (token : Token) :
    ofToken ⟨nesting.renumber place, closed⟩ (place index) previous token =
      ((ofToken ⟨nesting, closed⟩ index previous token).1.map (renumber place),
        ⟨(ofToken ⟨nesting, closed⟩ index previous token).2.nesting.renumber place,
          (ofToken ⟨nesting, closed⟩ index previous token).2.closed⟩) := by
  unfold ofToken
  cases hkind : token.kind with
  | closer bracket =>
    simp only [Nesting.match?_renumber]
    cases nesting.match? bracket with
    | none => simp
    | some found => simp [Nesting.renumber, Frame.renumber, Function.comp_def]
  | keyword word =>
    cases word <;>
      simp [Keyword.opensHeader, beginHeader, isKind, apply_ite (Nesting.renumber place)]
  | endOfText => simp [Nesting.renumber, Frame.renumber, Function.comp_def]
  | _ => simp

/-- Behind a directive a token means what it means without it, if it does not look back for a body, and if
no point and no body of a `repeat` hides behind the directive where statements can stand. -/
theorem ofToken_behind {nesting : Nesting} {closed : Option Keyword} {previous : Option Token} {close : Token}
    (hidden : isKind .dot previous = true ∨ closed = some .repeatKw → nesting.holdsStatements = false)
    (hclose : close.kind = .closer .paren) {token : Token}
    (helse : token.kind ≠ .keyword .elseKw) (hcatch : token.kind ≠ .keyword .catchKw) (index : Nat) :
    ofToken ⟨nesting, none⟩ index (some close) token = ofToken ⟨nesting, closed⟩ index previous token := by
  unfold ofToken
  cases hkind : token.kind with
  | keyword word =>
    cases holds : nesting.holdsStatements with
    | false => cases word <;> simp_all [Keyword.opensHeader, beginHeader, isKind]
    | true =>
      obtain ⟨afterPoint, afterRepeat⟩ := not_or.1 (mt hidden (by simp [holds]))
      cases word <;> simp_all [Keyword.opensHeader, beginHeader, isKind]
  | _ => rfl

/-- A word that looks back for a body is stray behind a directive. -/
theorem exists_stray {state : State} {close token : Token} (hclose : close.kind = .closer .paren)
    (awaits : state.nesting.awaiting = none)
    (hword : token.kind = .keyword .elseKw ∨ token.kind = .keyword .catchKw) (index : Nat) :
    ∃ diagnostic ∈ (ofToken state index (some close) token).1, diagnostic.first = index := by
  unfold ofToken
  rcases hword with hkind | hkind
  · exact ⟨single index .strayElse, by simp [hkind, isKind, hclose, awaits, singleIf], rfl⟩
  · exact ⟨single index .strayCatch, by simp [hkind, isKind, hclose, singleIf, Keyword.opensHeader], rfl⟩

/-- Where the two readings stand before the same token: they know the same, or a directive without
fault lies between what they know, and nothing is wrong with the token behind it. -/
inductive Meets (found : List Diagnostic) (index : Nat) :
    State → Option Token → State → Option Token → Prop
  | level (state : State) (previous : Option Token) : Meets found index state previous state previous
  | behind {nesting : Nesting} {closed : Option Keyword} {previous : Option Token} {close : Token}
      (accepted : Accepts ⟨nesting, closed⟩ previous) (hclose : close.kind = .closer .paren)
      (sound : ∀ diagnostic ∈ found, diagnostic.first ≠ index) :
      Meets found index ⟨nesting, none⟩ (some close) ⟨nesting, closed⟩ previous

/-- Both readings make the same of a token. -/
theorem Meets.ofToken_eq {found : List Diagnostic} {index : Nat} {state state' : State}
    {previous previous' : Option Token} (h : Meets found index state previous state' previous') {token : Token}
    (hfound : ∀ diagnostic ∈ (ofToken state index previous token).1, diagnostic ∈ found) :
    ofToken state index previous token = ofToken state' index previous' token := by
  cases h with
  | level => rfl
  | @behind nesting closed _ close accepted hclose sound =>
    have awaits : (State.mk nesting none).nesting.awaiting = none := accepted.awaits
    have looks_back (hword : token.kind = .keyword .elseKw ∨ token.kind = .keyword .catchKw) : False := by
      obtain ⟨diagnostic, hmem, hfirst⟩ := exists_stray hclose awaits hword index
      exact sound diagnostic (hfound diagnostic hmem) hfirst
    refine ofToken_behind ?_ hclose (fun h => looks_back (.inl h)) (fun h => looks_back (.inr h)) index
    rintro (afterPoint | afterRepeat)
    · rw [accepted.afterPoint] at afterPoint
      cases afterPoint
    · exact absurd afterRepeat accepted.afterRepeat

/-- A directive without fault leaves both readings at the token behind it. -/
theorem Meets.accepts {found : List Diagnostic} {index : Nat} {state state' : State}
    {previous previous' : Option Token} (h : Meets found index state previous state' previous')
    (accepted : Accepts state previous) : state.nesting = state'.nesting ∧ Accepts state' previous' := by
  cases h with
  | level => exact ⟨rfl, accepted⟩
  | behind accepted' => exact ⟨rfl, accepted'⟩

theorem ofTokensFrom_plain {token : Token} {tokens : List Token} (h : Directive.first? (token :: tokens) = none)
    (state : State) (index : Nat) (previous : Option Token) :
    ofTokensFrom state index previous (token :: tokens) =
      singleIf token.unterminated index .unterminated ++ (ofToken state index previous token).1
        ++ ofTokensFrom (ofToken state index previous token).2 (index + 1) (some token) tokens := by
  rw [ofTokensFrom]; simp [h]

theorem ofTokensFrom_directive {token : Token} {tokens : List Token} {form : Directive}
    (h : Directive.first? (token :: tokens) = some form) (state : State) (index : Nat) (previous : Option Token) :
    ofTokensFrom state index previous (token :: tokens) =
      singleIf token.unterminated index .unterminated
        ++ ofDirective state index form previous token (tokens.drop (form.size - 1)).head?
        ++ ofTokensFrom ⟨state.nesting, none⟩ (index + form.size) (token :: tokens)[form.size - 1]?
            (tokens.drop (form.size - 1)) := by
  rw [ofTokensFrom]; simp [h]

/-- The reading of the tokens from some place on finds the same as the reading of those outside
directives, if the two meet at that place and no directive from there on is at fault. -/
theorem ofTokensFrom_eq_map_outside (place : Nat → Nat) (tokens : List Token) (nesting : Nesting)
    (index index' : Nat) {state state' : State} {previous previous' : Option Token}
    (meets : Meets (ofTokensFrom state index previous tokens) index state previous state' previous')
    (renumbered : state'.nesting = nesting.renumber place)
    (hplace : ∀ k p, (Directive.outsidePlaces index tokens)[k]? = some p → place (index' + k) = p)
    (plain : ∀ token ∈ Directive.outside tokens, Directive.begins token = false)
    (blameless : ∀ start form, (start, form) ∈ Directive.places index tokens →
      ∀ diagnostic ∈ ofTokensFrom state index previous tokens, ¬ diagnostic.blames start form) :
    ofTokensFrom state index previous tokens =
      (ofTokensFrom ⟨nesting, state'.closed⟩ index' previous' (Directive.outside tokens)).map (renumber place) := by
  fun_induction Directive.outside tokens generalizing nesting state state' index index' previous previous' with
  | case1 => simp [ofTokensFrom]
  | case2 token tokens hnone ih =>
    rw [ofTokensFrom_plain hnone] at meets blameless ⊢
    have hindex : place index' = index := hplace 0 index (by rw [Directive.outsidePlaces]; simp [hnone])
    have same : ofToken state index previous token = ofToken state' index previous' token := meets.ofToken_eq
      (fun _ h => List.mem_append_left _ (List.mem_append_right _ h))
    have other := ofToken_renumber place nesting state'.closed index' previous' token
    rw [← renumbered, hindex, ← same] at other
    rw [ofTokensFrom_plain (Directive.first?_eq_none (plain token List.mem_cons_self))]
    simp only [List.map_append, map_renumber_singleIf, hindex]
    rw [congrArg Prod.fst other]
    congr 1
    have tail := ih _ (index + 1) (index' + 1) (.level (ofToken state index previous token).2 (some token))
      (congrArg (·.2.nesting) other) ?_ ?_ ?_
    · rw [congrArg (·.2.closed) other] at tail
      exact tail
    · intro k p hk
      rw [Nat.add_right_comm]
      exact hplace (k + 1) p (by rw [Directive.outsidePlaces]; simpa [hnone] using hk)
    · exact fun other hmem => plain other (List.mem_cons_of_mem _ hmem)
    · intro start form hmem diagnostic hdiagnostic
      exact blameless start form (by rw [Directive.places]; simpa [hnone] using hmem) diagnostic
        (List.mem_append_right _ hdiagnostic)
  | case3 token tokens form hform ih =>
    rw [ofTokensFrom_directive hform] at meets blameless ⊢
    have blamed := blameless index form (by rw [Directive.places]; simp [hform])
    have intact : singleIf token.unterminated index .unterminated = [] := by
      cases hb : token.unterminated with
      | false => rfl
      | true =>
        have := Directive.size_pos form
        exact absurd (.inl ⟨by simp [single]; omega, by simp [single]⟩)
          (blamed (single index .unterminated) (by simp [hb, singleIf]))
    have accepted := meets.accepts (accepts_of_ofDirective_eq_nil (List.eq_nil_iff_forall_not_mem.2
      fun diagnostic hmem => blamed diagnostic (List.mem_append_left _ (List.mem_append_right _ hmem))
        (blames_of_mem_ofDirective hmem)))
    have silent := List.eq_nil_iff_forall_not_mem.2 fun diagnostic hmem =>
      blamed diagnostic (List.mem_append_left _ (List.mem_append_right _ hmem)) (blames_of_mem_ofDirective hmem)
    rw [intact, silent] at blamed blameless ⊢
    obtain ⟨close, hclose, hparen⟩ := Directive.exists_close hform
    rw [hclose] at blamed blameless ⊢
    rw [accepted.1] at blamed blameless ⊢
    refine ih nesting (index + form.size) index' (.behind accepted.2 hparen ?_) renumbered ?_ plain ?_
    · exact fun diagnostic hmem hfirst => blamed diagnostic hmem (.inr hfirst)
    · intro k p hk
      exact hplace k p (by rw [Directive.outsidePlaces]; simpa [hform] using hk)
    · intro start other hmem
      exact blameless start other (by rw [Directive.places]; simp [hform, hmem])

end Diagnostic

/-- A directive of a program without problems is at fault for no diagnostic. -/
theorem not_blames_of_problems_eq_nil {text : List Char} (h : Repair.problems text = [])
    {start : Nat} {form : Directive} (place : (start, form) ∈ Directive.places 0 (Token.ofText text)) :
    ∀ diagnostic ∈ Diagnostic.ofTokens (Token.ofText text), ¬ diagnostic.blames start form := by
  intro diagnostic hmem
  have unblamed : (Source.ofText text).blame? start form = none := by
    have := List.filterMap_eq_nil_iff.1 h (start, form) place
    simpa [Repair.problem?] using this
  have := List.find?_eq_none.1 unblamed diagnostic hmem
  simpa [Diagnostic.blames] using this

/-- Directives without fault leave the diagnostics of the tokens outside of them as they are. -/
theorem ofTokens_eq_map_outside {text : List Char} (formed : Directive.AllFormed (Token.ofText text))
    (blameless : Repair.problems text = []) :
    Diagnostic.ofTokens (Token.ofText text) = (Diagnostic.ofTokens (Directive.outside (Token.ofText text))).map
      (Diagnostic.among (Directive.outsidePlaces 0 (Token.ofText text))) :=
  Diagnostic.ofTokensFrom_eq_map_outside
    (fun index => (Directive.outsidePlaces 0 (Token.ofText text)).getD index 0) (Token.ofText text)
    Nesting.file 0 0 (.level Diagnostic.State.start none) rfl
    (by simp +contextual) (Directive.begins_eq_false_of_mem_outside formed)
    (fun start form hmem => not_blames_of_problems_eq_nil blameless hmem)

/-- A program is clean if no directive of it is at fault and the tokens outside directives are. -/
theorem isClean_iff {text : List Char} (formed : Directive.AllFormed (Token.ofText text))
    (blameless : Repair.problems text = []) :
    (Source.ofText text).isClean = true ↔ Diagnostic.ofTokens (Directive.outside (Token.ofText text)) = [] := by
  rw [Source.isClean, List.isEmpty_iff,
    show (Source.ofText text).diagnostics = _ from ofTokens_eq_map_outside formed blameless]
  exact List.map_eq_nil_iff

/-- What the diagnostics of a program are when no directive of it is at fault: those of the tokens
outside directives, at the places these tokens have in the program. -/
theorem diagnostics_eq_map_outside (text : List Char) (formed : Directive.AllFormed (Token.ofText text))
    (blameless : Repair.problems text = []) :
    (Source.ofText text).diagnostics =
        (Diagnostic.ofTokens (Directive.outside (Token.ofText text))).map
          (Diagnostic.among (Directive.outsidePlaces 0 (Token.ofText text))) ∧
      ((Source.ofText text).isClean = true ↔
        Diagnostic.ofTokens (Directive.outside (Token.ofText text)) = []) :=
  ⟨ofTokens_eq_map_outside formed blameless, isClean_iff formed blameless⟩

/-- Two directives in front of a call that is left open: the delimiter is the last token but one of the program. -/
theorem diagnostics_eq_map_outside_unclosed :
    let text := "f()\n#sourceLocation(file: \"t\", line: 7)\n#sourceLocation()\ng(\n".toList
    Directive.AllFormed (Token.ofText text) ∧ Repair.problems text = [] ∧
      (Source.ofText text).diagnostics = [⟨17, 18, .unclosed⟩] ∧
      (Diagnostic.ofTokens (Directive.outside (Token.ofText text))).map
        (Diagnostic.among (Directive.outsidePlaces 0 (Token.ofText text))) = [⟨17, 18, .unclosed⟩] := by
  intro text
  have formed : Directive.AllFormed (Token.ofText text) := by decide +kernel
  have blameless : Repair.problems text = [] := by decide +kernel
  have found : (Source.ofText text).diagnostics = [⟨17, 18, .unclosed⟩] := by decide +kernel
  exact ⟨formed, blameless, found, (diagnostics_eq_map_outside text formed blameless).1 ▸ found⟩

end SwiftTemplate.Swift
