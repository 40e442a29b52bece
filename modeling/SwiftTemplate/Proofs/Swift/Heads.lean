import SwiftTemplate.Proofs.Swift.Sources

/-!
# The heads of directives

The directives of a program follow one another, and the checker comes to each of them: what begins
like a directive is one, or it is reported as malformed.
-/
namespace SwiftTemplate.Swift

/-- Directives follow one another, each behind the last token of the one before it. -/
theorem Directive.pairwise_places (index : Nat) (tokens : List Token) :
    (places index tokens).Pairwise fun place other => place.1 + place.2.size ≤ other.1 := by
  fun_induction places index tokens with
  | case1 => exact .nil
  | case2 index token tokens hnone ih => exact ih
  | case3 index token tokens form hsome ih =>
    exact List.pairwise_cons.2 ⟨fun _ hmem => (first?_drop_of_mem_places hmem).1, ih⟩

/-- Whatever begins a directive among some tokens is one of them: no directive holds the head of another. -/
theorem Directive.mem_places_of_first? {tokens : List Token} {k : Nat} {form : Directive}
    (h : first? (tokens.drop k) = some form) (index : Nat) : (index + k, form) ∈ places index tokens := by
  induction index, tokens using places.induct generalizing k with
  | case1 index =>
    rw [List.drop_nil] at h
    cases h
  | case2 index token tokens hnone ih =>
    rw [places, hnone]
    cases k with
    | zero =>
      rw [List.drop_zero, hnone] at h
      cases h
    | succ k =>
      rw [show index + (k + 1) = index + 1 + k by omega]
      exact ih h
  | case3 index token tokens found hsome ih =>
    rw [places, hsome]
    have positive := size_pos found
    by_cases own : k = 0
    · subst own
      rw [List.drop_zero, hsome] at h
      obtain rfl := Option.some.inj h
      exact List.mem_cons_self
    · obtain ⟨head, rest, hcons, hbegins⟩ := begins_of_first? h
      have hhead : (token :: tokens)[k]? = some head := by rw [← List.head?_drop, hcons]; rfl
      have outside : found.size ≤ k := by
        refine Nat.le_of_not_lt fun inside => ?_
        obtain ⟨other, hother, plain⟩ := kind_ne_pound hsome k (Nat.pos_of_ne_zero own) inside
        obtain rfl := Option.some.inj (hother.symm.trans hhead)
        exact plain (Directive.kind_of_begins hbegins)
      obtain ⟨behind, rfl⟩ := Nat.exists_eq_add_of_le outside
      rw [← Nat.add_assoc]
      refine List.mem_cons_of_mem _ (ih ?_)
      rw [List.drop_drop, ← h, show found.size + behind = found.size - 1 + behind + 1 by omega, List.drop_succ_cons]

namespace Diagnostic

/-! ## What is reported as malformed -/

/-- Whether a token is reported as a malformed directive. -/
def Rejects (found : List Diagnostic) (index : Nat) : Prop :=
  ∃ diagnostic ∈ found, diagnostic.complaint = .malformedDirective ∧
    diagnostic.first ≤ index ∧ index < diagnostic.stop

theorem rejects_append {found others : List Diagnostic} {index : Nat} :
    Rejects (found ++ others) index ↔ Rejects found index ∨ Rejects others index := by
  simp only [Rejects, List.mem_append, or_and_right, exists_or]

/-- A complaint of another kind does not make a token malformed. -/
theorem not_rejects {found : List Diagnostic} (h : ∀ diagnostic ∈ found, diagnostic.complaint ≠ .malformedDirective)
    (index : Nat) : ¬ Rejects found index := by
  rintro ⟨diagnostic, hmem, malformed, -⟩
  exact h diagnostic hmem malformed

section
variable {state : State} {index : Nat} {previous : Option Token} {token : Token}

theorem rejects_singleIf {cause : Bool} {place : Nat} : Rejects (singleIf cause index .malformedDirective) place
    ↔ cause = true ∧ place = index := by
  constructor
  · rintro ⟨diagnostic, hmem, -, first, stop⟩
    obtain ⟨cause, rfl⟩ := mem_singleIf.1 hmem
    exact ⟨cause, Nat.le_antisymm (Nat.le_of_lt_succ stop) first⟩
  · rintro ⟨cause, rfl⟩
    exact ⟨_, mem_singleIf.2 ⟨cause, rfl⟩, rfl, Nat.le_refl _, Nat.lt_succ_self _⟩

/-- A token by itself is malformed if it begins like a directive. -/
theorem rejects_ofToken {place : Nat} : Rejects (ofToken state index previous token).1 place
    ↔ Directive.begins token = true ∧ place = index := by
  by_cases pound : token.kind = .pound
  · rw [ofToken, pound]
    exact rejects_singleIf
  · have plain : Directive.begins token = false := by simp [Directive.begins, pound]
    have other : ∀ diagnostic ∈ (ofToken state index previous token).1, diagnostic.complaint ≠ .malformedDirective := by
      intro diagnostic hmem
      unfold ofToken at hmem
      split at hmem
      · exact absurd ‹_› pound
      · cases hmem
      · split at hmem
        · rw [List.mem_singleton.1 hmem]
          simp [single]
        · obtain ⟨frame, -, rfl⟩ := List.mem_map.1 hmem
          simp [single]
      · cases hmem
      · rw [(mem_singleIf.1 hmem).2]
        simp [single]
      · split at hmem
        · rw [(mem_singleIf.1 hmem).2]
          simp [single]
        · cases hmem
      · obtain ⟨frame, -, rfl⟩ := List.mem_map.1 hmem
        simp [single]
      · cases hmem
    simp [plain, not_rejects other]

theorem not_rejects_unterminated {cause : Bool} (place : Nat) :
    ¬ Rejects (singleIf cause index .unterminated) place := by
  refine not_rejects (fun diagnostic hmem => ?_) place
  rw [(mem_singleIf.1 hmem).2]
  simp [single]

theorem not_rejects_ofDirective {form : Directive} {behind : Option Token} (place : Nat) :
    ¬ Rejects (ofDirective state index form previous token behind) place := by
  refine not_rejects (fun diagnostic hmem => ?_) place
  rcases mem_ofDirective.1 hmem with ⟨-, rfl⟩ | ⟨-, rfl⟩ <;> simp [single]

theorem rejects_plain {tokens : List Token} (h : Directive.first? (token :: tokens) = none) {place : Nat} :
    Rejects (ofTokensFrom state index previous (token :: tokens)) place ↔
      (Directive.begins token = true ∧ place = index) ∨
        Rejects (ofTokensFrom (ofToken state index previous token).2 (index + 1) (some token) tokens) place := by
  rw [ofTokensFrom_plain h, rejects_append, rejects_append, rejects_ofToken, or_iff_right (not_rejects_unterminated place)]

theorem rejects_directive {tokens : List Token} {form : Directive} (h : Directive.first? (token :: tokens) = some form)
    {place : Nat} : Rejects (ofTokensFrom state index previous (token :: tokens)) place ↔
      Rejects (ofTokensFrom ⟨state.nesting, none⟩ (index + form.size) (token :: tokens)[form.size - 1]?
        (tokens.drop (form.size - 1))) place := by
  rw [ofTokensFrom_directive h, rejects_append, rejects_append, or_iff_right (not_rejects_unterminated place),
    or_iff_right (not_rejects_ofDirective place)]

/-- What is malformed among some tokens is one of them. -/
theorem le_of_rejects {tokens : List Token} {place : Nat}
    (h : Rejects (ofTokensFrom state index previous tokens) place) : index ≤ place := by
  induction index, tokens using Directive.places.induct generalizing state previous with
  | case1 index =>
    rw [ofTokensFrom] at h
    exact absurd h (not_rejects (by simp) place)
  | case2 index token tokens hnone ih =>
    rcases (rejects_plain hnone).1 h with ⟨-, rfl⟩ | later
    · exact Nat.le_refl _
    · exact Nat.le_of_succ_le (ih later)
  | case3 index token tokens form hsome ih =>
    exact Nat.le_trans (Nat.le_add_right _ _) (ih ((rejects_directive hsome).1 h))

/-- The directives among some tokens are those tokens that begin like one and are not malformed. -/
theorem mem_places_iff (tokens : List Token) (k : Nat) : index + k ∈ (Directive.places index tokens).map Prod.fst ↔
    tokens[k]?.any Directive.begins = true ∧ ¬ Rejects (ofTokensFrom state index previous tokens) (index + k) := by
  have later {start place : Nat} {tokens : List Token} (h : place ∈ (Directive.places start tokens).map Prod.fst) :
      start ≤ place := by
    obtain ⟨⟨_, form⟩, hmem, rfl⟩ := List.mem_map.1 h
    exact (Directive.first?_drop_of_mem_places hmem).1
  induction index, tokens using Directive.places.induct generalizing state previous k with
  | case1 index => simp [Directive.places]
  | case2 index token tokens hnone ih =>
    rw [Directive.places, hnone]
    dsimp only
    rw [rejects_plain hnone]
    cases k with
    | zero =>
      refine iff_of_false (fun h => absurd (later h) (Nat.not_succ_le_self _)) ?_
      rintro ⟨hbegins, accepted⟩
      exact accepted (.inl ⟨by simpa using hbegins, rfl⟩)
    | succ k =>
      have other : ¬ (Directive.begins token = true ∧ index + (k + 1) = index) := fun h => by omega
      rw [or_iff_right other, List.getElem?_cons_succ, show index + (k + 1) = index + 1 + k by omega]
      exact ih k
  | case3 index token tokens form hsome ih =>
    rw [Directive.places, hsome]
    dsimp only
    rw [rejects_directive hsome, List.map_cons, List.mem_cons]
    obtain ⟨head, rest, hcons, hbegins⟩ := Directive.begins_of_first? hsome
    obtain ⟨rfl, rfl⟩ := List.cons.inj hcons
    have positive := Directive.size_pos form
    by_cases own : k = 0
    · subst own
      refine iff_of_true (.inl rfl) ⟨by simpa using hbegins, fun h => ?_⟩
      have := le_of_rejects h
      omega
    · rw [or_iff_right (by omega)]
      by_cases inside : k < form.size
      -- The tokens of a directive behind its head are no words that begin one.
      · obtain ⟨other, hother, plain⟩ := Directive.kind_ne_pound hsome k (Nat.pos_of_ne_zero own) inside
        refine iff_of_false (fun h => ?_) (fun h => ?_)
        · have := later h
          omega
        · rw [hother] at h
          exact plain (of_decide_eq_true (Bool.and_eq_true_iff.1 h.1).1)
      · obtain ⟨behind, rfl⟩ := Nat.exists_eq_add_of_le (Nat.le_of_not_lt inside)
        have hget : (token :: tokens)[form.size + behind]? = (tokens.drop (form.size - 1))[behind]? := by
          rw [show form.size + behind = form.size - 1 + behind + 1 by omega, List.getElem?_cons_succ,
            List.getElem?_drop]
        rw [hget, ← Nat.add_assoc]
        exact ih behind

/-! ## What is checked -/

/-- The checker checks every directive, and all that it finds there is reported. -/
theorem exists_ofDirective {tokens : List Token} {start : Nat} {form : Directive}
    (h : (start, form) ∈ Directive.places index tokens) : ∃ state' previous' head,
      ofDirective state' start form previous' head tokens[start + form.size - index]?
        ⊆ ofTokensFrom state index previous tokens := by
  induction index, tokens using Directive.places.induct generalizing state previous with
  | case1 index => simp [Directive.places] at h
  | case2 index token tokens hnone ih =>
    rw [Directive.places, hnone] at h
    have := (Directive.first?_drop_of_mem_places h).1
    obtain ⟨state', previous', head, found⟩ := ih h
    refine ⟨state', previous', head, ?_⟩
    rw [ofTokensFrom_plain hnone, show start + form.size - index = start + form.size - (index + 1) + 1 by omega,
      List.getElem?_cons_succ]
    exact List.Subset.trans found (List.subset_append_right _ _)
  | case3 index token tokens found hsome ih =>
    rw [Directive.places, hsome] at h
    rw [ofTokensFrom_directive hsome]
    have positive := Directive.size_pos found
    rcases List.mem_cons.1 h with heq | hmem
    · obtain ⟨rfl, rfl⟩ := Prod.mk.inj heq
      refine ⟨state, previous, token, ?_⟩
      rw [Nat.add_sub_cancel_left, List.head?_drop, List.getElem?_cons, if_neg positive.ne']
      exact List.Subset.trans (List.subset_append_right _ _) (List.subset_append_left _ _)
    · have := (Directive.first?_drop_of_mem_places hmem).1
      obtain ⟨state', previous', head, further⟩ := ih hmem
      refine ⟨state', previous', head, ?_⟩
      rw [show start + form.size - index = found.size - 1 + (start + form.size - (index + found.size)) + 1 by omega,
        List.getElem?_cons_succ, ← List.getElem?_drop]
      exact List.Subset.trans further (List.subset_append_right _ _)

end

end Diagnostic

end SwiftTemplate.Swift
