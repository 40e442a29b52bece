import Mathlib.Order.Monotone.Basic
import SwiftTemplate.Proofs.Repair.MovedLines
import SwiftTemplate.Proofs.Swift.Slots

/-!
# Directives in slots

Where the directives of a program stand among its other tokens, and which of them are at fault by
what the other tokens tell of their slots.
-/
namespace SwiftTemplate.Repair

open Swift
open Swift.Token (Lexed)
open Swift.Diagnostic (stateAt previousAt foundAt isBarred interrupts refuses isFaulty isBad opened Yields Stands)

/-! ## Places -/

/-- The place of the token outside directives that is behind the slot `k`. -/
def placeOf (start : Nat) : List Part → Nat → Nat
  | [], k => start + k
  | .plain _ :: parts, k => if k = 0 then start else placeOf (start + 1) parts (k - 1)
  | part :: parts, k => placeOf (start + part.tokens.length) parts k

theorem placeOf_cons_of_form {part : Part} {form : Directive} (h : part.form? = some form) (start : Nat)
    (parts : List Part) (k : Nat) : placeOf start (part :: parts) k = placeOf (start + part.tokens.length) parts k := by
  cases part with
  | plain token => cases h
  | fixed form tokens => rfl
  | moved form kept tokens => rfl

theorem le_placeOf (start : Nat) (parts : List Part) (k : Nat) : start ≤ placeOf start parts k := by
  induction parts using parts_induction generalizing start k with
  | nil => exact Nat.le_add_right start k
  | token token parts ih =>
    cases k with
    | zero => exact Nat.le_refl start
    | succ k => exact Nat.le_trans (Nat.le_succ start) (ih (start + 1) k)
  | directive part form parts hform ih =>
    rw [placeOf_cons_of_form hform]
    exact Nat.le_trans (Nat.le_add_right start _) (ih _ k)

theorem placeOf_lt_succ (start : Nat) (parts : List Part) (k : Nat) :
    placeOf start parts k < placeOf start parts (k + 1) := by
  induction parts using parts_induction generalizing start k with
  | nil => exact Nat.lt_succ_self (start + k)
  | token token parts ih =>
    cases k with
    | zero => exact le_placeOf (start + 1) parts 0
    | succ k => exact ih (start + 1) k
  | directive part form parts hform ih =>
    rw [placeOf_cons_of_form hform, placeOf_cons_of_form hform]
    exact ih _ k

theorem strictMono_placeOf (start : Nat) (parts : List Part) : StrictMono (placeOf start parts) :=
  strictMono_nat_of_lt_succ (placeOf_lt_succ start parts)

/-- The directives among some parts, each with the number of its slot. -/
def slotsFrom (k : Nat) : List Part → List (Nat × Part)
  | [] => []
  | .plain _ :: parts => slotsFrom (k + 1) parts
  | part :: parts => (k, part) :: slotsFrom k parts

theorem slotsFrom_cons_of_form {part : Part} {form : Directive} (h : part.form? = some form) (k : Nat)
    (parts : List Part) : slotsFrom k (part :: parts) = (k, part) :: slotsFrom k parts := by
  cases part with
  | plain token => cases h
  | fixed form tokens => rfl
  | moved form kept tokens => rfl

theorem slotsFrom_append (k : Nat) (front parts : List Part) :
    slotsFrom k (front ++ parts) = slotsFrom k front ++ slotsFrom (k + (plainsOf front).length) parts := by
  induction front using parts_induction generalizing k with
  | nil => rfl
  | token token front ih =>
    rw [List.cons_append, slotsFrom, slotsFrom, ih, plainsOf, List.length_cons, Nat.add_assoc, Nat.add_comm 1]
  | directive part form front hform ih =>
    rw [List.cons_append, slotsFrom_cons_of_form hform, slotsFrom_cons_of_form hform, ih, plainsOf_cons_of_form hform]
    rfl

/-! ## Reading parts -/

theorem head_unterminated {part : Part} {parts : List Part} {form : Directive} {head : Token} {rest : List Token}
    (h : Sound (part :: parts)) (hform : part.form? = some form) (htokens : part.tokens = head :: rest) :
    head.unterminated = false := by
  have own {tokens : List Token} (standalone : form.Standalone tokens) (hhead : ∀ token ∈ tokens.head?,
      token.unterminated = head.unterminated) : head.unterminated = false := by
    obtain ⟨token, others, hcons, hbegins⟩ := Directive.begins_of_first? standalone.shape
    obtain ⟨more, hmore, lexed⟩ := standalone.read
    rw [hcons] at lexed hhead
    rw [← hhead token rfl, ← Bool.not_eq_true]
    intro unterminated
    have hkind := lexed.kind_of_unterminated (List.append_ne_nil_of_right_ne_nil others hmore) unterminated
    rw [Directive.kind_of_begins hbegins] at hkind
    cases hkind
  cases part with
  | plain token => cases hform
  | fixed form' tokens =>
    obtain rfl := Option.some.inj hform
    refine own h.1.standalone fun token htoken => ?_
    rw [show tokens = head :: rest from htokens] at htoken
    rw [Option.mem_some.1 htoken]
  | moved form' kept tokens =>
    obtain rfl := Option.some.inj hform
    refine own h.1.standalone fun token htoken => ?_
    obtain ⟨others, rfl⟩ := List.head?_eq_some_iff.1 htoken
    obtain ⟨rfl, -⟩ := List.cons.inj (show _ :: others = head :: rest from htokens)
    rfl

theorem head_kind_ne {part : Part} {parts : List Part} {form : Directive} {head : Token} {rest : List Token}
    (h : Sound (part :: parts)) (hform : part.form? = some form) (htokens : part.tokens = head :: rest) :
    head.kind ≠ .endOfText := by
  obtain ⟨_, _, hcons, hbegins⟩ := Directive.begins_of_first? (shape_of_sound h hform).1
  obtain ⟨rfl, -⟩ := List.cons.inj (htokens.symm.trans hcons)
  rw [Directive.kind_of_begins hbegins]
  decide

theorem startsLine_of_beginLine {tokens : List Token} (h : BeginLine tokens) :
    ∀ token, tokens.head? = some token → token.kind = .endOfText ∨ token.startsLine = true := by
  intro token htoken
  obtain ⟨first, hfirst, line⟩ := h
  obtain rfl := Option.some.inj (htoken.symm.trans hfirst)
  exact line.imp_right List.contains_iff_mem.2

/-- How far the reading of a program has come: the parts that are left begin in the slot `k` of the tokens
outside directives and at the place `index`, and what is known there is what these tokens tell. -/
structure Reads (plains : List Token) (place : Nat → Nat) (k index : Nat) (parts : List Part) (state : Diagnostic.State)
    (previous : Option Token) : Prop where
  plains_eq : plains.drop k = plainsOf parts
  place_eq : ∀ j, place (k + j) = placeOf index parts j
  below : ∀ j, j < k → place j < index
  stands : Stands place (stateAt plains k) (previousAt plains k) state previous
  sound : Sound parts
  bare : Directive.Bare (plainsOf parts)

/-- None of some directives hides a statement that it interrupts. -/
def Calm (plains : List Token) (slots : List (Nat × Part)) : Prop :=
  ∀ slot ∈ slots, Yields (stateAt plains slot.1) (previousAt plains slot.1)

theorem calm_append {plains : List Token} {slots others : List (Nat × Part)} :
    Calm plains (slots ++ others) ↔ Calm plains slots ∧ Calm plains others := List.forall_mem_append

theorem calm_cons {plains : List Token} {slot : Nat × Part} {slots : List (Nat × Part)} :
    Calm plains (slot :: slots)
      ↔ Yields (stateAt plains slot.1) (previousAt plains slot.1) ∧ Calm plains slots := List.forall_mem_cons

namespace Reads
variable {plains : List Token} {place : Nat → Nat} {k index : Nat} {parts : List Part} {state : Diagnostic.State}
  {previous : Option Token}

theorem start {text : List Char} (h : Holds text parts) :
    Reads (plainsOf parts) (placeOf 0 parts) 0 0 parts .start none where
  plains_eq := rfl
  place_eq j := by rw [Nat.zero_add]
  below j hj := absurd hj (Nat.not_lt_zero j)
  stands := .level
  sound := h.sound
  bare := h.bare

section
variable {token : Token} (h : Reads plains place k index (.plain token :: parts) state previous)
include h

theorem getElem?_eq : plains[k]? = some token := by
  rw [← Nat.add_zero k, ← List.getElem?_drop, h.plains_eq]
  rfl

theorem place_index : place k = index := h.place_eq 0

theorem mirrors : Diagnostic.Mirrors place k token (Diagnostic.ofToken (stateAt plains k) k (previousAt plains k) token)
    (Diagnostic.ofToken state index previous token) := h.place_index ▸ h.stands.ofToken k token

theorem mem_foundAt {diagnostic : Diagnostic} : diagnostic ∈ foundAt plains k ↔
    token.unterminated = true ∧ diagnostic = .single k .unterminated ∨
      diagnostic ∈ (Diagnostic.ofToken (stateAt plains k) k (previousAt plains k) token).1 := by
  rw [foundAt, h.getElem?_eq, List.mem_append, Diagnostic.mem_singleIf]

/-- The reading goes on behind a token. -/
theorem behind_token : Reads plains place (k + 1) (index + 1) parts
    (Diagnostic.ofToken state index previous token).2 (some token) where
  plains_eq := by
    rw [← List.drop_drop, h.plains_eq]
    rfl
  place_eq j := by
    rw [Nat.add_right_comm]
    exact h.place_eq (j + 1)
  below j hj := by
    rcases Nat.lt_succ_iff_lt_or_eq.1 hj with before | rfl
    · exact Nat.lt_succ_of_lt (h.below j before)
    · exact Nat.lt_succ_of_le (Nat.le_of_eq h.place_index)
  stands := by
    have state_eq : stateAt plains (k + 1)
        = (Diagnostic.ofToken (stateAt plains k) k (previousAt plains k) token).2 := by
      rw [stateAt, h.getElem?_eq]
    rw [h.mirrors.state, ← state_eq, show previousAt plains (k + 1) = plains[k]? from rfl, h.getElem?_eq]
    exact .level
  sound := h.sound.2
  bare := h.bare.2

theorem read_token : Diagnostic.ofTokensFrom state index previous (tokensOf (.plain token :: parts))
    = Diagnostic.singleIf token.unterminated index .unterminated ++ (Diagnostic.ofToken state index previous token).1
      ++ Diagnostic.ofTokensFrom (Diagnostic.ofToken state index previous token).2 (index + 1) (some token)
        (tokensOf parts) :=
  Diagnostic.ofTokensFrom_plain (first?_tokensOf h.sound.2 h.bare.1) state index previous

theorem mem_read_token {diagnostic : Diagnostic} :
    diagnostic ∈ Diagnostic.ofTokensFrom state index previous (tokensOf (.plain token :: parts)) ↔
      token.unterminated = true ∧ diagnostic = .single index .unterminated ∨
      diagnostic ∈ (Diagnostic.ofToken state index previous token).1 ∨
      diagnostic ∈ Diagnostic.ofTokensFrom (Diagnostic.ofToken state index previous token).2 (index + 1) (some token)
        (tokensOf parts) := by
  rw [h.read_token, List.mem_append, List.mem_append, Diagnostic.mem_singleIf, or_assoc]

end

/-- The reading goes on behind a directive. -/
theorem exists_behind_directive {part : Part} {form : Directive} {head : Token} {rest : List Token}
    (h : Reads plains place k index (part :: parts) state previous) (hform : part.form? = some form)
    (htokens : part.tokens = head :: rest) : ∃ close, close.kind = .closer .paren ∧
      Diagnostic.ofTokensFrom state index previous (tokensOf (part :: parts))
        = Diagnostic.ofDirective state index form previous head (tokensOf parts).head?
          ++ Diagnostic.ofTokensFrom ⟨state.nesting, none⟩ (index + form.size) (some close) (tokensOf parts) ∧
      (Yields (stateAt plains k) (previousAt plains k) →
        Reads plains place k (index + form.size) parts ⟨state.nesting, none⟩ (some close)) := by
  obtain ⟨head', rest', hcons, htokensOf, hshape, hsize⟩ := exists_head_of_sound h.sound hform
  obtain ⟨rfl, rfl⟩ := List.cons.inj (htokens.symm.trans hcons)
  obtain ⟨close, hclose, hparen⟩ := Directive.exists_close hshape
  have size := (shape_of_sound h.sound hform).2
  refine ⟨close, hparen, ?_, ?_⟩
  · rw [htokensOf, Diagnostic.ofTokensFrom_directive hshape, hclose, head_unterminated h.sound hform htokens, ← hsize,
      List.drop_left]
    rfl
  · intro yields
    refine ⟨h.plains_eq.trans (plainsOf_cons_of_form hform), ?_, ?_, h.stands.directive yields hparen, h.sound.tail, ?_⟩
    · intro j
      rw [h.place_eq, placeOf_cons_of_form hform, size]
    · intro j hj
      exact Nat.lt_of_lt_of_le (h.below j hj) (Nat.le_add_right _ _)
    · rw [← plainsOf_cons_of_form hform]
      exact h.bare

theorem lt_of_mem_opened (h : Reads plains place k index parts state previous) {start : Nat}
    (hstart : start ∈ opened state.nesting) : start < index := by
  rw [h.stands.opened_eq] at hstart
  obtain ⟨j, hj, rfl⟩ := List.mem_map.1 hstart
  exact h.below j (Diagnostic.lt_of_mem_opened_stateAt hj)

/-- What is wrong with a token that has been read already is found behind it with the directives as without
them: it is a delimiter that is left open. -/
theorem exists_first_iff (h : Reads plains place k index parts state previous) (mono : StrictMono place)
    (calm : Calm plains (slotsFrom k parts)) {slot : Nat} (hslot : slot < k) :
    (∃ diagnostic ∈ Diagnostic.ofTokensFrom state index previous (tokensOf parts), diagnostic.first = place slot) ↔
      ∃ j, k ≤ j ∧ ∃ diagnostic ∈ foundAt plains j, diagnostic.first = slot := by
  induction parts using parts_induction generalizing k index state previous with
  | nil =>
    constructor
    · rintro ⟨diagnostic, hmem, -⟩
      rw [show tokensOf [] = [] from rfl, Diagnostic.ofTokensFrom] at hmem
      cases hmem
    · rintro ⟨j, hj, diagnostic, hmem, -⟩
      have ends : plains[j]? = none := by
        rw [← Nat.add_sub_cancel' hj, ← List.getElem?_drop, h.plains_eq]
        rfl
      rw [foundAt, ends] at hmem
      cases hmem
  | token token parts ih =>
    have ne : place k ≠ place slot := mono.injective.ne (Nat.ne_of_gt hslot)
    have later := ih h.behind_token calm (Nat.lt_succ_of_lt hslot)
    constructor
    · rintro ⟨diagnostic, hmem, hfirst⟩
      rcases h.mem_read_token.1 hmem with ⟨-, rfl⟩ | hmem | hmem
      · exact absurd (h.place_index.trans hfirst) ne
      · rcases h.mirrors.found diagnostic hmem with ⟨other, hother, rfl⟩ | ⟨own, -⟩
        · exact ⟨k, Nat.le_refl k, other, h.mem_foundAt.2 (.inr hother), mono.injective hfirst⟩
        · exact absurd (own.symm.trans hfirst) ne
      · obtain ⟨j, hj, found⟩ := later.1 ⟨diagnostic, hmem, hfirst⟩
        exact ⟨j, Nat.le_of_succ_le hj, found⟩
    · rintro ⟨j, hj, diagnostic, hmem, hfirst⟩
      rcases Nat.lt_or_eq_of_le hj with hlt | rfl
      · obtain ⟨diagnostic, hmem, hfirst⟩ := later.2 ⟨j, hlt, diagnostic, hmem, hfirst⟩
        exact ⟨diagnostic, h.mem_read_token.2 (.inr (.inr hmem)), hfirst⟩
      · rcases h.mem_foundAt.1 hmem with ⟨-, rfl⟩ | hmem
        · exact absurd hfirst (Nat.ne_of_gt hslot)
        · exact ⟨_, h.mem_read_token.2 (.inr (.inl (h.mirrors.kept diagnostic hmem))), congrArg place hfirst⟩
  | directive part form parts hform ih =>
    obtain ⟨head, rest, hcons, -⟩ := exists_head_of_sound h.sound hform
    obtain ⟨close, -, hread, hbehind⟩ := h.exists_behind_directive hform hcons
    rw [slotsFrom_cons_of_form hform] at calm
    obtain ⟨own, calm⟩ := calm_cons.1 calm
    have below := h.below slot hslot
    rw [← ih (hbehind own) calm hslot, hread]
    constructor
    · rintro ⟨diagnostic, hmem, hfirst⟩
      rcases List.mem_append.1 hmem with hmem | hmem
      · rcases Diagnostic.mem_ofDirective.1 hmem with ⟨-, rfl⟩ | ⟨-, rfl⟩
        · exact absurd hfirst (Nat.ne_of_gt below)
        · exact absurd hfirst (Nat.ne_of_gt (Nat.lt_of_lt_of_le below (Nat.le_add_right _ _)))
      · exact ⟨diagnostic, hmem, hfirst⟩
    · rintro ⟨diagnostic, hmem, hfirst⟩
      exact ⟨diagnostic, List.mem_append_right _ hmem, hfirst⟩

/-- A directive does not begin with a token that no statement can begin with. -/
theorem any_cannotBegin_of_form {part : Part} {parts : List Part} {form : Directive} (h : Sound (part :: parts))
    (hform : part.form? = some form) : (tokensOf (part :: parts)).head?.any Diagnostic.cannotBegin = false := by
  obtain ⟨head, rest, -, htokens, hshape, -⟩ := exists_head_of_sound h hform
  obtain ⟨_, _, hcons, hbegins⟩ := Directive.begins_of_first? hshape
  obtain ⟨rfl, -⟩ := List.cons.inj hcons
  rw [htokens, List.head?_cons, Option.any_some, Diagnostic.cannotBegin,
    Directive.kind_of_begins hbegins]

/-- The reading up to some parts, in front of a token that a statement can begin with: what is found there
is told of the tokens before those parts. -/
theorem exists_append {front : List Part} (h : Reads plains place k index (front ++ parts) state previous)
    (calm : Calm plains (slotsFrom k front))
    (begins : (tokensOf parts).head?.any Diagnostic.cannotBegin = false) :
    ∃ found state' previous',
      Reads plains place (k + (plainsOf front).length) (index + (tokensOf front).length) parts state' previous' ∧
      Diagnostic.ofTokensFrom state index previous (tokensOf (front ++ parts))
        = found ++ Diagnostic.ofTokensFrom state' (index + (tokensOf front).length) previous' (tokensOf parts) ∧
      ∀ diagnostic ∈ found, diagnostic.first < diagnostic.stop ∧ diagnostic.stop ≤ index + (tokensOf front).length := by
  induction front using parts_induction generalizing k index state previous with
  | nil => exact ⟨[], state, previous, h, rfl, by simp⟩
  | token token front ih =>
    rw [List.cons_append] at h ⊢
    obtain ⟨found, state', previous', reads, hread, hfound⟩ := ih h.behind_token calm
    have slot : k + (plainsOf (.plain token :: front)).length = k + 1 + (plainsOf front).length := by
      rw [plainsOf, List.length_cons, ← Nat.add_assoc, Nat.add_right_comm]
    have later : index + (tokensOf (.plain token :: front)).length = index + 1 + (tokensOf front).length := by
      rw [tokensOf_cons, List.length_append, Nat.add_assoc]
      rfl
    refine ⟨Diagnostic.singleIf token.unterminated index .unterminated
      ++ (Diagnostic.ofToken state index previous token).1 ++ found, state', previous', ?_, ?_, ?_⟩
    · rw [slot, later]
      exact reads
    · rw [h.read_token, hread, later]
      exact (List.append_assoc _ _ _).symm
    · intro diagnostic hmem
      rw [later]
      rcases List.mem_append.1 hmem with hmem | hmem
      · rcases List.mem_append.1 hmem with hmem | hmem
        · obtain ⟨-, rfl⟩ := Diagnostic.mem_singleIf.1 hmem
          exact ⟨Nat.lt_succ_self index, Nat.le_add_right _ _⟩
        · obtain ⟨complaint, rfl | ⟨frame, hframe, rfl⟩⟩ := Diagnostic.mem_ofToken hmem
          · exact ⟨Nat.lt_succ_self index, Nat.le_add_right _ _⟩
          · have before := h.lt_of_mem_opened (List.mem_map_of_mem hframe)
            exact ⟨Nat.lt_succ_self _, Nat.le_trans before (by omega)⟩
      · exact hfound diagnostic hmem
  | directive part form front hform ih =>
    rw [List.cons_append] at h ⊢
    obtain ⟨head, rest, hcons, -⟩ := exists_head_of_sound h.sound hform
    obtain ⟨close, -, hread, hbehind⟩ := h.exists_behind_directive hform hcons
    rw [slotsFrom_cons_of_form hform] at calm
    obtain ⟨own, calm⟩ := calm_cons.1 calm
    obtain ⟨found, state', previous', reads, hread', hfound⟩ := ih (hbehind own) calm
    have size := (shape_of_sound h.sound hform).2
    have later : index + (tokensOf (part :: front)).length = index + form.size + (tokensOf front).length := by
      rw [tokensOf_cons, List.length_append, size, Nat.add_assoc]
    refine ⟨Diagnostic.ofDirective state index form previous head (tokensOf (front ++ parts)).head? ++ found, state',
      previous', ?_, ?_, ?_⟩
    · rw [plainsOf_cons_of_form hform, later]
      exact reads
    · rw [hread, hread', later, List.append_assoc]
    · intro diagnostic hmem
      rw [later]
      rcases List.mem_append.1 hmem with hmem | hmem
      · have positive := Directive.size_pos form
        rcases Diagnostic.mem_ofDirective.1 hmem with ⟨-, rfl⟩ | ⟨refused, rfl⟩
        · dsimp only
          omega
        · -- The token behind the directive is among those before the parts that are left.
          cases hfront : tokensOf front with
          | nil =>
            rw [tokensOf_append, hfront, List.nil_append, begins] at refused
            cases refused
          | cons token tokens =>
            rw [List.length_cons]
            dsimp only [Diagnostic.single]
            omega
      · exact hfound diagnostic hmem

/-- Directives that are not told to tear a statement hide none. -/
theorem calm_of_tearsStatement (h : Reads plains place k index parts state previous)
    (whole : ∀ diagnostic ∈ Diagnostic.ofTokensFrom state index previous (tokensOf parts),
      Diagnostic.tearsStatement diagnostic.complaint = false) : Calm plains (slotsFrom k parts) := by
  induction parts using parts_induction generalizing k index state previous with
  | nil => simp [Calm, slotsFrom]
  | token token parts ih =>
    rw [h.read_token] at whole
    exact ih h.behind_token fun diagnostic hmem => whole diagnostic (List.mem_append_right _ hmem)
  | directive part form parts hform ih =>
    obtain ⟨head, rest, hcons, -⟩ := exists_head_of_sound h.sound hform
    obtain ⟨close, -, hread, hbehind⟩ := h.exists_behind_directive hform hcons
    rw [hread] at whole
    have own : Yields (stateAt plains k) (previousAt plains k) := h.stands.yields
      (Diagnostic.yields_of_tearsStatement fun diagnostic hmem => whole diagnostic (List.mem_append_left _ hmem))
    rw [slotsFrom_cons_of_form hform]
    refine calm_cons.2 ⟨own, ih (hbehind own) ?_⟩
    intro diagnostic hmem
    exact whole diagnostic (List.mem_append_right _ hmem)

/-- What is found right behind a directive tells that its slot is bad. -/
theorem isBad_of_first_eq (h : Reads plains place k index parts state previous) (mono : StrictMono place)
    (calm : Calm plains (slotsFrom k parts)) (hclosed : state.closed = none)
    (hprevious : ∃ close, previous = some close ∧ close.kind = .closer .paren) (line : BeginLine (tokensOf parts))
    (lexed : Lexed (baseOf parts)) {diagnostic : Diagnostic}
    (hmem : diagnostic ∈ Diagnostic.ofTokensFrom state index previous (tokensOf parts))
    (hfirst : diagnostic.first = index) : isBad plains k = true := by
  have faulty (found : ∃ j, k ≤ j ∧ ∃ diagnostic ∈ foundAt plains j, diagnostic.first = k) : isBad plains k = true := by
    simp [isBad, Diagnostic.isFaulty_iff.2 found]
  cases parts using parts_induction with
  | nil =>
    rw [show tokensOf [] = [] from rfl, Diagnostic.ofTokensFrom] at hmem
    cases hmem
  | token token parts =>
    rcases h.mem_read_token.1 hmem with ⟨unterminated, -⟩ | hmem | hmem
    · exact faulty ⟨k, Nat.le_refl k, .single k .unterminated, h.mem_foundAt.2 (.inl ⟨unterminated, rfl⟩), rfl⟩
    · rcases h.mirrors.found diagnostic hmem with ⟨other, hother, rfl⟩ | ⟨-, refused⟩
      · exact faulty ⟨k, Nat.le_refl k, other, h.mem_foundAt.2 (.inr hother),
          mono.injective (hfirst.trans h.place_index.symm)⟩
      · simp [isBad, h.getElem?_eq, refused]
    · rw [← h.place_index] at hfirst
      obtain ⟨j, hj, found⟩ :=
        (h.behind_token.exists_first_iff mono calm (Nat.lt_succ_self k)).1 ⟨diagnostic, hmem, hfirst⟩
      exact faulty ⟨j, Nat.le_of_succ_le hj, found⟩
  | directive part form parts hform =>
    obtain ⟨head, rest, hcons, -⟩ := exists_head_of_sound h.sound hform
    obtain ⟨close, -, hread, -⟩ := h.exists_behind_directive hform hcons
    have loose := loose_of_sound h.sound lexed hform hcons
    have positive := Directive.size_pos form
    rw [hread] at hmem
    rcases List.mem_append.1 hmem with hmem | hmem
    · rcases Diagnostic.mem_ofDirective.1 hmem with ⟨reasons, -⟩ | ⟨-, rfl⟩
      · -- The directive begins and ends a line, and the parenthesis before it ends a statement.
        cases barred : isBarred (stateAt plains k) with
        | true => simp [isBad, barred]
        | false =>
          refine absurd (Diagnostic.misplacements_eq_nil_iff.2 ⟨fun _ => ?_, ?_, ?_, ?_⟩) reasons
          · rw [tokensOf_cons, hcons] at line
            exact (startsLine_of_beginLine line head rfl).resolve_left (head_kind_ne h.sound hform hcons)
          · exact startsLine_of_beginLine (beginLine_tokensOf loose.sound loose.line)
          · rw [h.stands.isBarred_eq, barred]
          · obtain ⟨close, rfl, hparen⟩ := hprevious
            simp [interrupts, Diagnostic.needsMore, hparen, hclosed]
      · simp only [Diagnostic.single] at hfirst
        omega
    · exfalso
      rcases Diagnostic.mem_ofTokensFrom hmem with later | ⟨hopened, -⟩
      · omega
      · exact absurd hfirst (Nat.ne_of_lt (h.lt_of_mem_opened hopened))

/-- A token where nothing is found with the directives has nothing wrong with it. -/
theorem isFaulty_eq_false {token : Token} (h : Reads plains place k index (.plain token :: parts) state previous)
    (mono : StrictMono place) (calm : Calm plains (slotsFrom (k + 1) parts))
    (free : ∀ diagnostic ∈ Diagnostic.ofTokensFrom state index previous (tokensOf (.plain token :: parts)),
      diagnostic.first ≠ index) : isFaulty plains k = false := by
  rw [← Bool.not_eq_true]
  intro faulty
  obtain ⟨j, hj, diagnostic, hmem, hfirst⟩ := Diagnostic.isFaulty_iff.1 faulty
  rcases Nat.lt_or_eq_of_le hj with later | rfl
  · obtain ⟨diagnostic, hmem, hfirst⟩ := (h.behind_token.exists_first_iff mono calm (Nat.lt_succ_self k)).2
      ⟨j, later, diagnostic, hmem, hfirst⟩
    exact free diagnostic (h.mem_read_token.2 (.inr (.inr hmem))) (hfirst.trans h.place_index)
  · rcases h.mem_foundAt.1 hmem with ⟨unterminated, -⟩ | hmem
    · exact free _ (h.mem_read_token.2 (.inl ⟨unterminated, rfl⟩)) rfl
    · refine free _ (h.mem_read_token.2 (.inr (.inl (h.mirrors.kept diagnostic hmem)))) ?_
      rw [← h.place_index, ← hfirst]
      rfl

end Reads

/-! ## Directives at fault -/

namespace At
variable {text : List Char} {front behind : List Part} {part : Part} {form : Directive} {head : Token}
  {rest : List Token}

/-- The diagnostics of a program: those before a directive, its own, and those behind it. -/
theorem exists_reading (h : At text front part behind form head rest)
    (calm : Calm (plainsOf (front ++ part :: behind)) (slotsFrom 0 front)) :
    ∃ found state previous close, close.kind = .closer .paren ∧
      (Source.ofText text).diagnostics = found ++ (
        Diagnostic.ofDirective state (tokensOf front).length form previous head (tokensOf behind).head?
          ++ Diagnostic.ofTokensFrom ⟨state.nesting, none⟩ ((tokensOf front).length + form.size) (some close)
            (tokensOf behind)) ∧
      (∀ diagnostic ∈ found, diagnostic.first < diagnostic.stop ∧ diagnostic.stop ≤ (tokensOf front).length) ∧
      Reads (plainsOf (front ++ part :: behind)) (placeOf 0 (front ++ part :: behind)) (plainsOf front).length
        (tokensOf front).length (part :: behind) state previous ∧
      (Yields (stateAt (plainsOf (front ++ part :: behind)) (plainsOf front).length)
          (previousAt (plainsOf (front ++ part :: behind)) (plainsOf front).length) →
        Reads (plainsOf (front ++ part :: behind)) (placeOf 0 (front ++ part :: behind)) (plainsOf front).length
          ((tokensOf front).length + form.size) behind ⟨state.nesting, none⟩ (some close)) := by
  obtain ⟨found, state, previous, reads, hread, hfound⟩ :=
    (Reads.start h.holds).exists_append calm (Reads.any_cannotBegin_of_form h.sound h.form)
  simp only [Nat.zero_add] at reads hread hfound
  obtain ⟨close, hclose, hread', hbehind⟩ := reads.exists_behind_directive h.form h.tokens
  have whole : (Source.ofText text).diagnostics
      = Diagnostic.ofTokensFrom .start 0 none (tokensOf (front ++ part :: behind)) := by
    rw [← h.holds.tokens]
    rfl
  exact ⟨found, state, previous, close, hclose, by rw [whole, hread, hread'], hfound, reads, hbehind⟩

/-- A directive at fault stands in a bad slot, or shares its line with the token before it. -/
theorem isBad_of_blames (h : At text front part behind form head rest)
    (calm : Calm (plainsOf (front ++ part :: behind)) (slotsFrom 0 (front ++ part :: behind)))
    {diagnostic : Diagnostic} (hmem : diagnostic ∈ (Source.ofText text).diagnostics)
    (blamed : diagnostic.blames (tokensOf front).length form) :
    isBad (plainsOf (front ++ part :: behind)) (plainsOf front).length = true ∨ head.startsLine = false := by
  rw [slotsFrom_append, slotsFrom_cons_of_form h.form, Nat.zero_add] at calm
  obtain ⟨calmFront, calm⟩ := calm_append.1 calm
  obtain ⟨own, calmBehind⟩ := calm_cons.1 calm
  obtain ⟨found, state, previous, close, hclose, hdiagnostics, hfound, reads, hbehind⟩ := h.exists_reading calmFront
  have mono := strictMono_placeOf 0 (front ++ part :: behind)
  have line := beginLine_tokensOf h.loose.sound h.loose.line
  have behindReads := hbehind own
  generalize plainsOf (front ++ part :: behind) = plains at own calmBehind reads behindReads ⊢
  rw [hdiagnostics] at hmem
  unfold Diagnostic.blames at blamed
  rcases List.mem_append.1 hmem with hmem | hmem
  · obtain ⟨extent, before⟩ := hfound diagnostic hmem
    omega
  · rcases List.mem_append.1 hmem with hmem | hmem
    · rcases Diagnostic.mem_ofDirective.1 hmem with ⟨reasons, -⟩ | ⟨refused, -⟩
      · refine or_iff_not_imp_left.2 fun good => ?_
        simp only [isBad, Bool.not_eq_true, Bool.or_eq_false_iff] at good
        rw [← Bool.not_eq_true]
        intro starts
        refine reasons (Diagnostic.misplacements_eq_nil_iff.2 ⟨fun _ => starts, startsLine_of_beginLine line, ?_, ?_⟩)
        · rw [reads.stands.isBarred_eq, good.1.1.1]
        · rw [← Bool.not_eq_true]
          intro interrupted
          rw [reads.stands.interrupts_of_interrupts interrupted] at good
          cases good.1.1.2
      · left
        cases behind using parts_induction with
        | nil => cases refused
        | token token behind =>
          have refused : Diagnostic.cannotBegin token = true := refused
          simp [isBad, behindReads.getElem?_eq, refuses, refused]
        | directive part' form' behind hform' =>
          rw [Reads.any_cannotBegin_of_form h.loose.sound hform'] at refused
          cases refused
    · left
      refine behindReads.isBad_of_first_eq mono calmBehind rfl ⟨close, rfl, hclose⟩ line h.loose.lexed hmem ?_
      rcases Diagnostic.mem_ofTokensFrom hmem with later | ⟨hopened, extent⟩
      · omega
      · have := reads.lt_of_mem_opened hopened
        omega

/-- A directive in front of a token that is not at fault stands in a good slot. -/
theorem isBad_eq_false {token : Token} {beyond : List Part}
    (h : At text front part (.plain token :: beyond) form head rest)
    (calm : Calm (plainsOf (front ++ part :: .plain token :: beyond)) (slotsFrom 0 front))
    (calmBeyond : Calm (plainsOf (front ++ part :: .plain token :: beyond))
      (slotsFrom ((plainsOf front).length + 1) beyond))
    (free : ∀ diagnostic ∈ (Source.ofText text).diagnostics, ¬ diagnostic.blames (tokensOf front).length form) :
    isBad (plainsOf (front ++ part :: .plain token :: beyond)) (plainsOf front).length = false := by
  obtain ⟨found, state, previous, close, hclose, hdiagnostics, -, reads, hbehind⟩ := h.exists_reading calm
  have mono := strictMono_placeOf 0 (front ++ part :: .plain token :: beyond)
  rw [hdiagnostics] at free
  -- Nothing is wrong with the directive, so that its slot is open and no statement is hidden there.
  have silent : Diagnostic.ofDirective state (tokensOf front).length form previous head (some token) = [] := by
    refine List.eq_nil_iff_forall_not_mem.2 fun diagnostic hmem => ?_
    have blamed := Diagnostic.blames_of_mem_ofDirective hmem
    exact free diagnostic (List.mem_append_right _ (List.mem_append_left _ hmem)) blamed
  obtain ⟨-, -, unbarred, whole⟩ :=
    Diagnostic.misplacements_eq_nil_iff.1 (Diagnostic.misplacements_eq_nil_of_ofDirective silent)
  have uninterrupted := reads.stands.interrupts_eq_false unbarred whole
  have behindReads := hbehind (fun interrupted => by rw [uninterrupted] at interrupted; cases interrupted)
  have found_free : ∀ diagnostic ∈ Diagnostic.ofTokensFrom ⟨state.nesting, none⟩ ((tokensOf front).length + form.size)
      (some close) (tokensOf (.plain token :: beyond)), diagnostic.first ≠ (tokensOf front).length + form.size := by
    intro diagnostic hmem hfirst
    exact free diagnostic (List.mem_append_right _ (List.mem_append_right _ hmem)) (.inr hfirst)
  have accepted : refuses token = false := by
    rw [← Bool.not_eq_true]
    intro refused
    simp only [refuses, Bool.or_eq_true, decide_eq_true_eq, or_assoc] at refused
    rcases refused with begins | looks
    · simp [Diagnostic.ofDirective, Diagnostic.singleIf, begins] at silent
    · have awaits : state.nesting.awaiting = none := by
        simp only [isBarred, Bool.or_eq_false_iff] at unbarred
        simpa using unbarred.2
      obtain ⟨diagnostic, hmem, hfirst⟩ := @Diagnostic.exists_stray ⟨state.nesting, none⟩ close token hclose awaits
        looks ((tokensOf front).length + form.size)
      exact found_free diagnostic (behindReads.mem_read_token.2 (.inr (.inl hmem))) hfirst
  have faultless := behindReads.isFaulty_eq_false mono calmBeyond found_free
  rw [isBad, ← reads.stands.isBarred_eq, unbarred, uninterrupted, behindReads.getElem?_eq, faultless]
  simpa using accepted

end At

end SwiftTemplate.Repair
