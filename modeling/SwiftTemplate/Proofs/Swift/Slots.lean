import SwiftTemplate.Proofs.Swift.Sources

/-!
# Slots

A directive stands in a slot between two tokens that belong to no directive, perhaps together with
others. What the tokens outside directives tell of a slot decides whether a directive is at fault
there, as long as no directive hides an unfinished statement from the tokens behind it.
-/
namespace SwiftTemplate.Swift

/-- The scopes inside the one that a closing delimiter fits, that one, and those around it. -/
theorem Nesting.frames_of_match? {bracket : Bracket} {nesting : Nesting} {inside around : List Frame} {frame : Frame}
    (h : nesting.match? bracket = some (inside, frame, around)) : nesting.frames = inside ++ frame :: around := by
  unfold match? at h
  split at h
  · cases h
  · next outer =>
    cases h
    rw [← outer, List.takeWhile_append_dropWhile]

section
variable {α : Type} {told : Frame → α} (still : ∀ frame word, told { frame with awaiting := word } = told frame)
include still

/-- What scopes tell but of headers that wait in them stays the same when another header waits. -/
theorem Nesting.map_frames_await (word : Option Keyword) (nesting : Nesting) :
    (nesting.await word).frames.map told = nesting.frames.map told := by
  unfold await
  split
  · rfl
  · next hframes => rw [hframes, List.map_cons, List.map_cons, still]

theorem Nesting.map_frames_enter (bracket : Bracket) (index : Nat) (nesting : Nesting) :
    (nesting.enter bracket index).frames.map told
      = told ⟨bracket, index, if bracket = .brace then nesting.awaiting else none, none⟩ :: nesting.frames.map told := by
  unfold enter
  by_cases body : bracket = .brace
  · simp [body, map_frames_await still]
  · simp [body]

theorem Diagnostic.map_frames_beginHeader (word : Keyword) (previous : Option Token) (state : State) :
    (beginHeader word previous state).frames.map told = state.nesting.frames.map told := by
  unfold beginHeader
  dsimp only
  split
  · rfl
  · exact Nesting.map_frames_await still _ _

end

namespace Diagnostic

/-! ## The reading without directives -/

/-- The token before the slot `k`. -/
def previousAt (tokens : List Token) : Nat → Option Token
  | 0 => none
  | k + 1 => tokens[k]?

/-- What is known in the slot `k` of tokens that belong to no directive. -/
def stateAt (tokens : List Token) : Nat → State
  | 0 => .start
  | k + 1 =>
    match tokens[k]? with
    | none => stateAt tokens k
    | some token => (ofToken (stateAt tokens k) k (previousAt tokens k) token).2

/-- What is found wrong at the token behind the slot `k`. -/
def foundAt (tokens : List Token) (k : Nat) : List Diagnostic :=
  match tokens[k]? with
  | none => []
  | some token =>
    singleIf token.unterminated k .unterminated ++ (ofToken (stateAt tokens k) k (previousAt tokens k) token).1

/-- Whether no statement can stand in a slot, because of the scope or of a header that waits for its body. -/
def isBarred (state : State) : Bool := !state.nesting.holdsStatements || state.nesting.awaiting.isSome

/-- Whether a slot interrupts a statement. -/
def interrupts (state : State) (previous : Option Token) : Bool :=
  previous.any (needsMore state.nesting.header) || state.closed = some .repeatKw

/-- Whether a token cannot stand behind a directive. -/
def refuses (token : Token) : Bool :=
  cannotBegin token || token.kind = .keyword .elseKw || token.kind = .keyword .catchKw

/-- Whether something is wrong with the token behind the slot `k`. -/
def isFaulty (tokens : List Token) (k : Nat) : Bool :=
  (List.range tokens.length).any fun j => (foundAt tokens j).any (·.first = k)

/-- Whether a directive is at fault in the slot `k`. -/
def isBad (tokens : List Token) (k : Nat) : Bool :=
  isBarred (stateAt tokens k) || interrupts (stateAt tokens k) (previousAt tokens k) || tokens[k]?.any refuses
    || isFaulty tokens k

/-- A slot interrupts no statement but where no statement can stand. -/
def Yields (state : State) (previous : Option Token) : Prop :=
  interrupts state previous = true → state.nesting.holdsStatements = false

theorem yields_of_isBad {tokens : List Token} {k : Nat} (h : isBad tokens k = false) :
    Yields (stateAt tokens k) (previousAt tokens k) := by
  intro interrupted
  rw [isBad, interrupted, Bool.or_true, Bool.true_or, Bool.true_or] at h
  cases h

/-! ## What is found at a token -/

section
variable {state : State} {index : Nat} {previous : Option Token} {token : Token}

/-- What is wrong with a token is told of the token itself or of a delimiter left open. -/
theorem mem_ofToken {diagnostic : Diagnostic} (h : diagnostic ∈ (ofToken state index previous token).1) :
    ∃ complaint, diagnostic = single index complaint ∨
      ∃ frame ∈ state.nesting.frames, diagnostic = single frame.index complaint := by
  unfold ofToken at h
  split at h
  · exact ⟨_, .inl (mem_singleIf.1 h).2⟩
  · cases h
  · split at h
    · exact ⟨_, .inl (List.mem_singleton.1 h)⟩
    · next hmatch =>
      obtain ⟨frame, hframe, rfl⟩ := List.mem_map.1 h
      refine ⟨_, .inr ⟨frame, ?_, rfl⟩⟩
      rw [Nesting.frames_of_match? hmatch]
      exact List.mem_append_left _ (List.mem_reverse.1 hframe)
  · cases h
  · exact ⟨_, .inl (mem_singleIf.1 h).2⟩
  · split at h
    · exact ⟨_, .inl (mem_singleIf.1 h).2⟩
    · cases h
  · obtain ⟨frame, hframe, rfl⟩ := List.mem_map.1 h
    exact ⟨_, .inr ⟨frame, List.mem_reverse.1 hframe, rfl⟩⟩
  · cases h

/-- The places of the open delimiters. -/
def opened (nesting : Nesting) : List Nat := nesting.frames.map Frame.index

/-- A token opens a delimiter at its own place, if any. -/
theorem opened_ofToken {place : Nat} (h : place ∈ opened (ofToken state index previous token).2.nesting) :
    place = index ∨ place ∈ opened state.nesting := by
  unfold ofToken at h
  split at h
  · exact .inr h
  · rw [opened, Nesting.map_frames_enter fun _ _ => rfl] at h
    exact List.mem_cons.1 h
  · split at h
    · exact .inr h
    · next hmatch =>
      right
      rw [opened, Nesting.frames_of_match? hmatch, List.map_append, List.map_cons]
      exact List.mem_append_right _ (List.mem_cons_of_mem _ h)
  · rw [opened, Nesting.map_frames_await fun _ _ => rfl] at h
    exact .inr h
  · exact .inr h
  · split at h
    · rw [opened, map_frames_beginHeader fun _ _ => rfl] at h
      exact .inr h
    · exact .inr h
  · cases h
  · exact .inr h

end

/-- What is found from some place on is found there or tells of a delimiter that was open. -/
theorem mem_ofTokensFrom {state : State} {index : Nat} {previous : Option Token} {tokens : List Token}
    {diagnostic : Diagnostic} (h : diagnostic ∈ ofTokensFrom state index previous tokens) :
    index ≤ diagnostic.first ∨ diagnostic.first ∈ opened state.nesting ∧ diagnostic.stop = diagnostic.first + 1 := by
  fun_induction ofTokensFrom state index previous tokens with
  | case1 => cases h
  | case2 state index previous token tokens broken form hform behind ih =>
    rcases List.mem_append.1 h with h | h
    · left
      rcases List.mem_append.1 h with h | h
      · rw [(mem_singleIf.1 h).2]
        exact Nat.le_refl index
      · rcases mem_ofDirective.1 h with ⟨-, rfl⟩ | ⟨-, rfl⟩
        · exact Nat.le_refl _
        · exact Nat.le_add_right _ _
    · exact (ih h).imp_left (Nat.le_trans (Nat.le_add_right _ _))
  | case3 state index previous token tokens broken hform found state' hstep ih =>
    rcases List.mem_append.1 h with h | h
    · rcases List.mem_append.1 h with h | h
      · rw [(mem_singleIf.1 h).2]
        exact .inl (Nat.le_refl index)
      · rw [show found = (ofToken state index previous token).1 by rw [hstep]] at h
        obtain ⟨complaint, rfl | ⟨frame, hframe, rfl⟩⟩ := mem_ofToken h
        · exact .inl (Nat.le_refl _)
        · exact .inr ⟨List.mem_map.2 ⟨frame, hframe, rfl⟩, rfl⟩
    · rcases ih h with later | ⟨hopened, hstop⟩
      · exact .inl (Nat.le_of_succ_le later)
      · rw [show state' = (ofToken state index previous token).2 by rw [hstep]] at hopened
        rcases opened_ofToken hopened with own | before
        · exact .inl (Nat.le_of_eq own.symm)
        · exact .inr ⟨before, hstop⟩

section
variable {tokens others : List Token}

theorem lt_of_mem_opened_stateAt {k place : Nat} (h : place ∈ opened (stateAt tokens k).nesting) : place < k := by
  induction k with
  | zero => cases h
  | succ k ih =>
    unfold stateAt at h
    split at h
    · exact Nat.lt_succ_of_lt (ih h)
    · rcases opened_ofToken h with rfl | before
      · exact Nat.lt_succ_self _
      · exact Nat.lt_succ_of_lt (ih before)

/-- What is wrong with a token is found at the token or behind it. -/
theorem first_le_of_mem_foundAt {k : Nat} {diagnostic : Diagnostic} (h : diagnostic ∈ foundAt tokens k) :
    diagnostic.first ≤ k := by
  unfold foundAt at h
  split at h
  · cases h
  · rcases List.mem_append.1 h with h | h
    · rw [(mem_singleIf.1 h).2]
      exact Nat.le_refl k
    · obtain ⟨complaint, rfl | ⟨frame, hframe, rfl⟩⟩ := mem_ofToken h
      · exact Nat.le_refl k
      · exact Nat.le_of_lt (lt_of_mem_opened_stateAt (List.mem_map.2 ⟨frame, hframe, rfl⟩))

theorem isFaulty_iff {k : Nat} :
    isFaulty tokens k = true ↔ ∃ j, k ≤ j ∧ ∃ diagnostic ∈ foundAt tokens j, diagnostic.first = k := by
  unfold isFaulty
  rw [List.any_eq_true]
  constructor
  · rintro ⟨j, -, hfound⟩
    obtain ⟨diagnostic, hmem, hfirst⟩ := List.any_eq_true.1 hfound
    have hfirst := of_decide_eq_true hfirst
    exact ⟨j, hfirst ▸ first_le_of_mem_foundAt hmem, diagnostic, hmem, hfirst⟩
  · rintro ⟨j, -, diagnostic, hmem, hfirst⟩
    refine ⟨j, List.mem_range.2 (Nat.lt_of_not_le fun hle => ?_), List.any_eq_true.2 ⟨diagnostic, hmem, by simpa⟩⟩
    rw [foundAt, List.getElem?_eq_none hle] at hmem
    cases hmem

/-! ### Tokens that look the same -/

variable (h : SameShape tokens others) (k : Nat)
include h

theorem rel_previousAt : Option.Rel Token.Same (previousAt tokens k) (previousAt others k) := by
  cases k with
  | zero => exact .none
  | succ k => exact rel_getElem? h k

theorem stateAt_congr : stateAt tokens k = stateAt others k := by
  induction k with
  | zero => rfl
  | succ k ih =>
    have own := rel_getElem? h k
    unfold stateAt
    generalize tokens[k]? = token, others[k]? = other at own ⊢
    cases own with
    | none => exact ih
    | some same =>
      dsimp only
      rw [ih, ofToken_congr (rel_similar (rel_previousAt h k)) same.toSimilar]

theorem foundAt_congr : foundAt tokens k = foundAt others k := by
  have own := rel_getElem? h k
  unfold foundAt
  generalize tokens[k]? = token, others[k]? = other at own ⊢
  cases own with
  | none => rfl
  | some same =>
    dsimp only
    rw [stateAt_congr h k, ofToken_congr (rel_similar (rel_previousAt h k)) same.toSimilar, same.unterminated]

theorem interrupts_congr :
    interrupts (stateAt tokens k) (previousAt tokens k) = interrupts (stateAt others k) (previousAt others k) := by
  unfold interrupts
  rw [stateAt_congr h k, any_congr (rel_previousAt h k) fun same => needsMore_congr same _]

theorem isBad_congr : isBad tokens k = isBad others k := by
  have refuse {token other : Token} (same : token.Same other) : refuses token = refuses other := by
    rw [refuses, refuses, cannotBegin_congr same, same.kind]
  have faulty : isFaulty tokens k = isFaulty others k := by
    unfold isFaulty
    rw [List.Forall₂.length_eq h, funext (foundAt_congr h)]
  rw [isBad, isBad, interrupts_congr h k, stateAt_congr h k, any_congr (rel_getElem? h k) refuse, faulty]

end

/-! ## The reading with directives -/

/-- Whether a complaint is that a directive interrupts a statement, or comes between a body and its condition,
where statements can stand. -/
def tearsStatement : Complaint → Bool
  | .misplacedDirective reasons =>
    (reasons.contains .insideStatement || reasons.contains .beforeRepeatCondition)
      && !reasons.contains .insideDelimiters
  | _ => false

section
variable {state : State} {previous behind : Option Token} {head : Token}

/-- Where nothing is wrong with a directive: it begins its line and ends it, and stands where a statement can begin. -/
theorem misplacements_eq_nil_iff : misplacements state previous head behind = [] ↔
    (previous.isSome = true → head.startsLine = true) ∧
      (∀ token, behind = some token → token.kind = .endOfText ∨ token.startsLine = true) ∧
      isBarred state = false ∧ interrupts state previous = false := by
  unfold misplacements isBarred interrupts
  cases holds : state.nesting.holdsStatements <;> cases behind <;> simp [or_iff_not_imp_left]

variable (behind head) in
theorem interrupts_iff_mem_misplacements : interrupts state previous = true ↔
    .insideStatement ∈ misplacements state previous head behind
      ∨ .beforeRepeatCondition ∈ misplacements state previous head behind := by
  unfold misplacements interrupts
  cases holds : state.nesting.holdsStatements <;> simp

variable (previous behind head) in
theorem mem_misplacements_iff_holdsStatements :
    .insideDelimiters ∈ misplacements state previous head behind ↔ state.nesting.holdsStatements = false := by
  unfold misplacements
  cases holds : state.nesting.holdsStatements <;> simp

end

/-- A directive that is not told to tear a statement does not hide one. -/
theorem yields_of_tearsStatement {state : State} {index : Nat} {form : Directive} {previous behind : Option Token}
    {head : Token} (h : ∀ diagnostic ∈ ofDirective state index form previous head behind,
      tearsStatement diagnostic.complaint = false) : Yields state previous := by
  intro interrupted
  have reasons := (interrupts_iff_mem_misplacements behind head).1 interrupted
  have own := h _ (mem_ofDirective.2 (.inl ⟨fun hnil => by simp [hnil] at reasons, rfl⟩))
  simp only [tearsStatement] at own
  refine (mem_misplacements_iff_holdsStatements previous behind head).1 ?_
  simpa [reasons] using own

theorem header_renumber (place : Nat → Nat) (nesting : Nesting) :
    (nesting.renumber place).header = nesting.header := by
  unfold Nesting.header Nesting.renumber
  cases nesting.frames <;> rfl

/-- What the reading of a program with its directives knows in a slot where the reading without them knows
`base`, behind the token `before`. It has come there straight, or through a directive of the slot. -/
inductive Stands (place : Nat → Nat) (base : State) (before : Option Token) : State → Option Token → Prop
  | level : Stands place base before ⟨base.nesting.renumber place, base.closed⟩ before
  | behind {close : Token} (hclose : close.kind = .closer .paren) (yields : Yields base before) :
    Stands place base before ⟨base.nesting.renumber place, none⟩ (some close)

/-- How one token is read with and without directives, `place k` being its place with them: what is known
behind it is the same, what is wrong without them is wrong with them, and what is wrong only with them is
that the token does not go with a directive before it. -/
structure Mirrors (place : Nat → Nat) (k : Nat) (token : Token) (base read : List Diagnostic × State) : Prop where
  state : read.2 = ⟨base.2.nesting.renumber place, base.2.closed⟩
  kept : ∀ diagnostic ∈ base.1, diagnostic.renumber place ∈ read.1
  found : ∀ diagnostic ∈ read.1, (∃ other ∈ base.1, diagnostic = other.renumber place) ∨
    diagnostic.first = place k ∧ refuses token = true

namespace Stands
variable {place : Nat → Nat} {base state : State} {before previous : Option Token}

theorem nesting_eq (h : Stands place base before state previous) : state.nesting = base.nesting.renumber place := by
  cases h <;> rfl

theorem isBarred_eq (h : Stands place base before state previous) : isBarred state = isBarred base := by
  unfold isBarred
  rw [h.nesting_eq, Nesting.holdsStatements_renumber, Nesting.awaiting_renumber]

theorem opened_eq (h : Stands place base before state previous) :
    opened state.nesting = (opened base.nesting).map place := by
  rw [h.nesting_eq]
  simp [opened, Nesting.renumber, Frame.renumber]

theorem interrupts_of_interrupts (h : Stands place base before state previous)
    (own : interrupts state previous = true) : interrupts base before = true := by
  cases h with
  | level =>
    rw [interrupts, header_renumber] at own
    exact own
  | behind hclose yields => simp [interrupts, needsMore, hclose] at own

/-- A slot where statements can stand interrupts none that it does not seem to interrupt. -/
theorem interrupts_eq_false (h : Stands place base before state previous) (free : isBarred state = false)
    (own : interrupts state previous = false) : interrupts base before = false := by
  cases h with
  | level =>
    rw [interrupts, header_renumber] at own
    exact own
  | behind hclose yields =>
    cases hidden : interrupts base before with
    | false => rfl
    | true => simp [isBarred, yields hidden] at free

theorem yields (h : Stands place base before state previous) (own : Yields state previous) : Yields base before := by
  cases h with
  | level =>
    rw [Yields, interrupts, header_renumber, Nesting.holdsStatements_renumber] at own
    exact own
  | behind hclose yields => exact yields

/-- A directive leads into its slot. -/
theorem directive (h : Stands place base before state previous) (yields : Yields base before) {close : Token}
    (hclose : close.kind = .closer .paren) : Stands place base before ⟨state.nesting, none⟩ (some close) := by
  rw [h.nesting_eq]
  exact .behind hclose yields

/-- What is known behind a token does not depend on the directives before it, and what is found there depends
on them only if the token does not go with a directive before it. -/
theorem ofToken (h : Stands place base before state previous) (k : Nat) (token : Token) :
    Mirrors place k token (Diagnostic.ofToken base k before token)
      (Diagnostic.ofToken state (place k) previous token) := by
  have straight : Mirrors place k token (Diagnostic.ofToken base k before token)
      (Diagnostic.ofToken ⟨base.nesting.renumber place, base.closed⟩ (place k) before token) := by
    rw [ofToken_renumber place base.nesting base.closed k before token]
    refine ⟨rfl, ?_, ?_⟩
    · intro diagnostic hmem
      exact List.mem_map_of_mem hmem
    · intro diagnostic hmem
      obtain ⟨other, hother, rfl⟩ := List.mem_map.1 hmem
      exact .inl ⟨other, hother, rfl⟩
  cases h with
  | level => exact straight
  | @behind close hclose yields =>
    have hidden : isKind .dot before = true ∨ base.closed = some .repeatKw → base.nesting.holdsStatements = false := by
      intro looks
      refine yields ?_
      unfold interrupts
      rcases looks with afterPoint | afterRepeat
      · cases before with
        | none => cases afterPoint
        | some point => simp [needsMore, of_decide_eq_true afterPoint]
      · simp [afterRepeat]
    by_cases looks : token.kind = .keyword .elseKw ∨ token.kind = .keyword .catchKw
    · -- A word that looks back for a body finds none behind a directive.
      unfold Diagnostic.ofToken
      rcases looks with hkind | hkind
      · simp only [hkind]
        refine ⟨rfl, ?_, ?_⟩
        · simp +contextual [singleIf, isKind, hclose]
        · intro diagnostic hmem
          rw [(mem_singleIf.1 hmem).2]
          simp [single, refuses, hkind]
      · simp only [hkind, Keyword.opensHeader, if_true]
        refine ⟨?_, ?_, ?_⟩
        · cases holds : base.nesting.holdsStatements with
          | false => simp [beginHeader, holds]
          | true =>
            have afterPoint := (not_or.1 (mt hidden (by simp [holds]))).1
            rw [Bool.not_eq_true] at afterPoint
            simp only [beginHeader, holds, afterPoint, Nesting.holdsStatements_renumber]
            simp [isKind, hclose]
        · simp +contextual [singleIf, isKind, hclose]
        · intro diagnostic hmem
          rw [(mem_singleIf.1 hmem).2]
          simp [single, refuses, hkind]
    · obtain ⟨helse, hcatch⟩ := not_or.1 looks
      rwa [ofToken_behind (by rwa [Nesting.holdsStatements_renumber]) hclose helse hcatch]

end Stands

end Diagnostic

end SwiftTemplate.Swift
