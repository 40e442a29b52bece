import Mathlib.Data.List.Forall2
import SwiftTemplate.Swift.Directive

/-!
# The tokens outside directives

What is left of a program without its directives, and what it takes for a token to be part of one.
-/
namespace SwiftTemplate.Swift

/-- Tokens that are alike in everything that makes them part of a directive. -/
structure Token.Similar (token other : Token) : Prop where
  kind : token.kind = other.kind
  unterminated : token.unterminated = other.unterminated
  text : token.kind ≠ .integer → token.text = other.text

theorem Token.Similar.refl (token : Token) : token.Similar token := ⟨rfl, rfl, fun _ => rfl⟩

namespace Directive

/-- The tokens that belong to no directive. -/
def outside : List Token → List Token
  | [] => []
  | token :: tokens =>
    match first? (token :: tokens) with
    | none => token :: outside tokens
    | some form => outside (tokens.drop (form.size - 1))
termination_by tokens => tokens.length
decreasing_by all_goals (simp only [List.length_drop, List.length_cons]; omega)

/-- The places of the tokens that belong to no directive, where the first token has the place `index`. -/
def outsidePlaces (index : Nat) : List Token → List Nat
  | [] => []
  | token :: tokens =>
    match first? (token :: tokens) with
    | none => index :: outsidePlaces (index + 1) tokens
    | some form => outsidePlaces (index + form.size) (tokens.drop (form.size - 1))
termination_by tokens => tokens.length
decreasing_by all_goals (simp only [List.length_drop, List.length_cons]; omega)

/-- Every word `#sourceLocation` among the tokens is the head of a directive. -/
def AllFormed : List Token → Prop
  | [] => True
  | head :: rest => (begins head = true → (first? (head :: rest)).isSome = true) ∧ AllFormed rest

instance decidableAllFormed : (tokens : List Token) → Decidable (AllFormed tokens)
  | [] => .isTrue trivial
  | _ :: rest => @instDecidableAnd _ _ inferInstance (decidableAllFormed rest)

theorem AllFormed.drop {tokens : List Token} (h : AllFormed tokens) (count : Nat) : AllFormed (tokens.drop count) := by
  induction tokens generalizing count with
  | nil => simpa using h
  | cons head rest ih =>
    cases count with
    | zero => exact h
    | succ count => exact ih h.2 count

theorem first?_eq_none {token : Token} {tokens : List Token} (h : begins token = false) :
    first? (token :: tokens) = none := by
  cases tokens with
  | nil => rfl
  | cons paren arguments => simp [first?, h]

/-- What stands outside directives does not begin one, if all of them are well formed. -/
theorem begins_eq_false_of_mem_outside {tokens : List Token} (h : AllFormed tokens) :
    ∀ token ∈ outside tokens, begins token = false := by
  fun_induction outside tokens with
  | case1 => simp
  | case2 token tokens hnone ih =>
    intro other hmem
    rcases List.mem_cons.1 hmem with rfl | hmem
    · cases hb : begins other with
      | false => rfl
      | true => simpa [hnone] using h.1 hb
    · exact ih h.2 other hmem
  | case3 token tokens form hsome ih =>
    exact ih (h.2.drop _)

/-- The form of a directive, taken apart: its head, its opening parenthesis, and behind them either
the closing one or the arguments. -/
theorem first?_cases {tokens : List Token} {form : Directive} (h : first? tokens = some form) :
    ∃ head paren arguments, tokens = head :: paren :: arguments ∧ begins head = true ∧
      paren.kind = .opener .paren ∧
      ((form = .reset ∧ ∃ close rest, arguments = close :: rest ∧ close.kind = .closer .paren) ∨
        (form = .located ∧ locates arguments = true)) := by
  unfold first? at h
  split at h
  · next head paren arguments =>
    split at h
    · next both =>
      rw [Bool.and_eq_true, decide_eq_true_eq] at both
      refine ⟨head, paren, arguments, rfl, both.1, both.2, ?_⟩
      split at h
      · next hclose =>
        cases h
        cases arguments with
        | nil => simp at hclose
        | cons close rest => exact .inl ⟨rfl, close, rest, rfl, by simpa using hclose⟩
      · split at h
        · next hlocates => cases h; exact .inr ⟨rfl, hlocates⟩
        · cases h
    · cases h
  · cases h

/-- The arguments of a directive with a file and a line are eight tokens. -/
theorem locates_cases {arguments : List Token} (h : locates arguments = true) :
    ∃ file fileColon path comma line lineColon number close rest,
      arguments = file :: fileColon :: path :: comma :: line :: lineColon :: number :: close :: rest ∧
      (isLabel "file" file = true ∧ fileColon.kind = .colon ∧ path.kind = .string ∧ path.unterminated = false ∧
        comma.kind = .comma ∧ isLabel "line" line = true ∧ lineColon.kind = .colon ∧ number.kind = .integer ∧
        close.kind = .closer .paren) := by
  unfold locates at h
  split at h
  · next file fileColon path comma line lineColon number close rest =>
    refine ⟨file, fileColon, path, comma, line, lineColon, number, close, rest, rfl, ?_⟩
    simpa [and_assoc] using h
  · cases h

/-- A directive ends with a closing parenthesis. -/
theorem exists_close {tokens : List Token} {form : Directive} (h : first? tokens = some form) :
    ∃ close, tokens[form.size - 1]? = some close ∧ close.kind = .closer .paren := by
  obtain ⟨head, paren, arguments, rfl, -, -, ⟨rfl, close, rest, rfl, hclose⟩ | ⟨rfl, hlocates⟩⟩ := first?_cases h
  · exact ⟨close, rfl, hclose⟩
  · obtain ⟨_, _, _, _, _, _, _, close, rest, rfl, -, -, -, -, -, -, -, -, hclose⟩ := locates_cases hlocates
    exact ⟨close, rfl, hclose⟩

/-! ## Directives in context -/

/-- A directive is one whatever follows its last token. -/
theorem first?_take_append {tokens : List Token} {form : Directive} (h : first? tokens = some form)
    (others : List Token) : first? (tokens.take form.size ++ others) = some form := by
  obtain ⟨head, paren, arguments, rfl, hbegins, hparen, ⟨rfl, close, rest, rfl, hclose⟩ | ⟨rfl, hlocates⟩⟩ :=
    first?_cases h
  · simp [Directive.size, first?, hbegins, hparen, hclose]
  · obtain ⟨file, fileColon, path, comma, line, lineColon, number, close, rest, rfl,
      hfile, hfileColon, hpath, hpath', hcomma, hline, hlineColon, hnumber, hclose⟩ := locates_cases hlocates
    have label : file.kind = .identifier := of_decide_eq_true (Bool.and_eq_true_iff.1 hfile).1
    simp [Directive.size, first?, locates, hbegins, hparen, label, hfile, hfileColon, hpath, hpath', hcomma, hline,
      hlineColon, hnumber, hclose]

theorem first?_append {tokens : List Token} {form : Directive} (h : first? tokens = some form)
    (others : List Token) : first? (tokens ++ others) = some form := by
  have := first?_take_append h (tokens.drop form.size ++ others)
  rwa [← List.append_assoc, List.take_append_drop] at this

/-- Inside a directive, behind its head, no other begins. -/
theorem kind_ne_pound {tokens : List Token} {form : Directive} (h : first? tokens = some form) (index : Nat)
    (hlow : 0 < index) (hhigh : index < form.size) : ∃ token, tokens[index]? = some token ∧ token.kind ≠ .pound := by
  obtain ⟨head, paren, arguments, rfl, hbegins, hparen, ⟨rfl, close, rest, rfl, hclose⟩ | ⟨rfl, hlocates⟩⟩ :=
    first?_cases h
  · match index, hlow, hhigh with
    | 1, _, _ => exact ⟨paren, rfl, by simp [hparen]⟩
    | 2, _, _ => exact ⟨close, rfl, by simp [hclose]⟩
  · obtain ⟨file, fileColon, path, comma, line, lineColon, number, close, rest, rfl,
      hfile, hfileColon, hpath, -, hcomma, hline, hlineColon, hnumber, hclose⟩ := locates_cases hlocates
    have hfile : file.kind = .identifier := of_decide_eq_true (Bool.and_eq_true_iff.1 hfile).1
    have hline : line.kind = .identifier := of_decide_eq_true (Bool.and_eq_true_iff.1 hline).1
    match index, hlow, hhigh with
    | 1, _, _ => exact ⟨paren, rfl, by simp [hparen]⟩
    | 2, _, _ => exact ⟨file, rfl, by simp [hfile]⟩
    | 3, _, _ => exact ⟨fileColon, rfl, by simp [hfileColon]⟩
    | 4, _, _ => exact ⟨path, rfl, by simp [hpath]⟩
    | 5, _, _ => exact ⟨comma, rfl, by simp [hcomma]⟩
    | 6, _, _ => exact ⟨line, rfl, by simp [hline]⟩
    | 7, _, _ => exact ⟨lineColon, rfl, by simp [hlineColon]⟩
    | 8, _, _ => exact ⟨number, rfl, by simp [hnumber]⟩
    | 9, _, _ => exact ⟨close, rfl, by simp [hclose]⟩

/-- A directive that reaches no token `#…` is one without the tokens from there on. -/
theorem first?_append_of_pound {token : Token} {front others : List Token} {form : Directive}
    (h : first? (token :: (front ++ others)) = some form)
    (hothers : ∀ other, others.head? = some other → other.kind = .pound) (more : List Token) :
    first? (token :: (front ++ more)) = some form := by
  have hsize : form.size ≤ front.length + 1 := by
    refine Nat.le_of_not_lt fun hlt => ?_
    obtain ⟨other, hother, hkind⟩ := kind_ne_pound h (front.length + 1) (by omega) hlt
    rw [List.getElem?_cons_succ, List.getElem?_append_right (Nat.le_refl _), Nat.sub_self,
      ← List.head?_eq_getElem?] at hother
    exact hkind (hothers other hother)
  have same : (token :: (front ++ others)).take form.size = (token :: front).take form.size := by
    rw [← List.cons_append, List.take_append_of_le_length (by simpa using hsize)]
  have again := first?_take_append h ((token :: front).drop form.size ++ more)
  rwa [same, ← List.append_assoc, List.take_append_drop] at again

theorem allFormed_append {tokens others : List Token} (plain : ∀ token ∈ tokens, begins token = false)
    (h : AllFormed others) : AllFormed (tokens ++ others) := by
  induction tokens with
  | nil => exact h
  | cons token tokens ih =>
    obtain ⟨own, plain⟩ := List.forall_mem_cons.1 plain
    exact ⟨fun hbegins => absurd (own.symm.trans hbegins) (by decide), ih plain⟩

theorem allFormed_append_of_first? {tokens others : List Token} {form : Directive} (hform : first? tokens = some form)
    (size : tokens.length = form.size) (h : AllFormed others) : AllFormed (tokens ++ others) := by
  obtain ⟨head, rest, rfl, -⟩ := begins_of_first? hform
  refine ⟨fun _ => ?_, allFormed_append (fun token hmem => ?_) h⟩
  · show (first? (head :: rest ++ others)).isSome = true
    rw [first?_append hform others]
    rfl
  · obtain ⟨index, hlt, rfl⟩ := List.mem_iff_getElem.1 hmem
    obtain ⟨token, htoken, hkind⟩ := kind_ne_pound hform (index + 1) (Nat.succ_pos _)
      (by rw [← size, List.length_cons]; omega)
    rw [List.getElem?_cons_succ, List.getElem?_eq_getElem hlt] at htoken
    obtain rfl := Option.some.inj htoken
    simp [begins, hkind]

theorem mem_of_mem_outside {token : Token} {tokens : List Token} (h : token ∈ outside tokens) : token ∈ tokens := by
  fun_induction outside tokens with
  | case1 => exact h
  | case2 first tokens hnone ih =>
    rcases List.mem_cons.1 h with rfl | hmem
    · exact List.mem_cons_self
    · exact List.mem_cons_of_mem _ (ih hmem)
  | case3 first tokens form hsome ih => exact List.mem_cons_of_mem _ (List.mem_of_mem_drop (ih h))

/-- No directive stands among some tokens. -/
def Bare : List Token → Prop
  | [] => True
  | token :: tokens => first? (token :: tokens) = none ∧ Bare tokens

instance decidableBare : (tokens : List Token) → Decidable (Bare tokens)
  | [] => .isTrue trivial
  | _ :: tokens => @instDecidableAnd _ _ inferInstance (decidableBare tokens)

theorem begins_congr {token other : Token} (h : token.Similar other) : begins token = begins other := by
  by_cases hkind : token.kind = .pound
  · simp [begins, ← h.kind, ← h.text (by rw [hkind]; decide)]
  · simp [begins, ← h.kind, hkind]

private theorem isLabel_congr {token other : Token} (h : token.Similar other) (label : String) :
    isLabel label token = isLabel label other := by
  by_cases hkind : token.kind = .identifier
  · simp [isLabel, ← h.kind, ← h.text (by rw [hkind]; decide)]
  · simp [isLabel, ← h.kind, hkind]

private theorem locates_congr {tokens others : List Token} (h : List.Forall₂ Token.Similar tokens others) :
    locates tokens = locates others := by
  rcases h with _ | ⟨h1, _ | ⟨h2, _ | ⟨h3, _ | ⟨h4, _ | ⟨h5, _ | ⟨h6, _ | ⟨h7, _ | ⟨h8, -⟩⟩⟩⟩⟩⟩⟩⟩
  all_goals first
    | rfl
    | simp only [locates, isLabel_congr h1, isLabel_congr h5, h2.kind, h3.kind, h3.unterminated, h4.kind, h6.kind,
        h7.kind, h8.kind]

theorem first?_congr {tokens others : List Token} (h : List.Forall₂ Token.Similar tokens others) :
    first? tokens = first? others := by
  rcases h with _ | ⟨hhead, _ | ⟨hparen, harguments⟩⟩
  · rfl
  · rfl
  · rcases harguments with _ | ⟨hclose, hrest⟩
    · simp only [first?, begins_congr hhead, hparen.kind]
    · simp only [first?, begins_congr hhead, hparen.kind, List.head?_cons, Option.any_some, hclose.kind,
        locates_congr (.cons hclose hrest)]
      rfl

theorem bare_of_begins {tokens : List Token} (h : ∀ token ∈ tokens, begins token = false) : Bare tokens := by
  induction tokens with
  | nil => trivial
  | cons token tokens ih =>
    obtain ⟨own, others⟩ := List.forall_mem_cons.1 h
    exact ⟨first?_eq_none own, ih others⟩

end Directive

end SwiftTemplate.Swift
