import SwiftTemplate.Proofs.Swift.Ledger
import SwiftTemplate.Proofs.Swift.Slots
import SwiftTemplate.Proofs.Swift.Standalone

/-!
# Diagnostics of delimiters

The scopes of the checker are those of the ledger of the delimiters that it has read outside
directives, at every place of a program, and what it reports of delimiters is what the ledger has
found unclosed or unexpected. A directive is passed as a whole, and no other token moves a scope.
-/
namespace SwiftTemplate.Swift

/-! ## The delimiters outside directives -/

/-- The delimiter that a token is, if it is one. -/
def Delimiter.ofToken? (place : Nat) (token : Token) : Option Delimiter :=
  match token.kind with
  | .opener bracket => some ⟨place, bracket, true⟩
  | .closer bracket => some ⟨place, bracket, false⟩
  | _ => none

/-- The delimiters that belong to no directive, where the first token has the place `index`. -/
def Delimiter.outside (index : Nat) (tokens : List Token) : List Delimiter :=
  ((Directive.outsidePlaces index tokens).zip (Directive.outside tokens)).filterMap fun (place, token) =>
    ofToken? place token

namespace Delimiter

theorem outside_nil (index : Nat) : outside index [] = [] := by
  simp [outside, Directive.outside]

theorem outside_plain {token : Token} {tokens : List Token} (h : Directive.first? (token :: tokens) = none)
    (index : Nat) : outside index (token :: tokens) = (ofToken? index token).toList ++ outside (index + 1) tokens := by
  unfold outside
  rw [Directive.outside, Directive.outsidePlaces]
  simp only [h, List.zip_cons_cons, List.filterMap_cons]
  cases ofToken? index token <;> rfl

theorem outside_directive {token : Token} {tokens : List Token} {form : Directive}
    (h : Directive.first? (token :: tokens) = some form) (index : Nat) :
    outside index (token :: tokens) = outside (index + form.size) (tokens.drop (form.size - 1)) := by
  unfold outside
  rw [Directive.outside, Directive.outsidePlaces]
  simp only [h]

theorem place_of_ofToken? {place : Nat} {token : Token} {delimiter : Delimiter}
    (h : ofToken? place token = some delimiter) : delimiter.place = place := by
  unfold ofToken? at h
  split at h
  · cases h; rfl
  · cases h; rfl
  · cases h

/-- The delimiters from some place on stand there or behind it, and follow each other. -/
theorem ascending_outside (index : Nat) (tokens : List Token) :
    (∀ delimiter ∈ outside index tokens, index ≤ delimiter.place) ∧
      (outside index tokens).Pairwise (·.place < ·.place) := by
  fun_induction Directive.outside tokens generalizing index with
  | case1 => simp [outside_nil]
  | case2 token tokens hnone ih =>
    obtain ⟨behind, ascending⟩ := ih (index + 1)
    rw [outside_plain hnone]
    cases own : ofToken? index token with
    | none => exact ⟨fun delimiter hmem => Nat.le_of_lt (behind delimiter hmem), ascending⟩
    | some first =>
      have place := place_of_ofToken? own
      refine ⟨?_, .cons ?_ ascending⟩
      · intro delimiter hmem
        rcases List.mem_cons.1 hmem with rfl | hmem
        · exact place.ge
        · exact Nat.le_of_lt (behind delimiter hmem)
      · intro delimiter hmem
        rw [place]
        exact behind delimiter hmem
  | case3 token tokens form hsome ih =>
    obtain ⟨behind, ascending⟩ := ih (index + form.size)
    rw [outside_directive hsome]
    exact ⟨fun delimiter hmem => Nat.le_trans (Nat.le_add_right ..) (behind delimiter hmem), ascending⟩

end Delimiter

/-- A directive does not reach the end of its text. -/
theorem Directive.drop_ne_nil_of_first? {token : Token} {rest : List Token} {form : Directive}
    (h : Directive.first? (token :: rest) = some form) (lexed : Token.Lexed (token :: rest)) :
    rest.drop (form.size - 1) ≠ [] := by
  obtain ⟨close, hat, hclose⟩ := Directive.exists_close h
  obtain ⟨within, rfl⟩ := List.getElem?_eq_some_iff.1 hat
  intro none_left
  have last : (token :: rest).drop (form.size - 1) = [(token :: rest)[form.size - 1]] := by
    rw [List.drop_eq_getElem_cons within, List.drop_succ_cons, none_left]
  have final := (List.take_append_drop (form.size - 1) (token :: rest) ▸ lexed).of_append (by simp [last])
  rw [last] at final
  rw [final.kind_of_singleton] at hclose
  cases hclose

/-! ## The scopes of the checker -/

/-- The delimiter that opened a scope. -/
def Frame.opener (frame : Frame) : Delimiter := ⟨frame.index, frame.bracket, true⟩

namespace Nesting

/-- The open delimiters, innermost first. -/
def openers (nesting : Nesting) : List Delimiter := nesting.frames.map Frame.opener

theorem openers_enter (bracket : Bracket) (index : Nat) (nesting : Nesting) :
    (nesting.enter bracket index).openers = ⟨index, bracket, true⟩ :: nesting.openers :=
  map_frames_enter (fun _ _ => rfl) _ _ _

theorem bracket_ne_of_match?_eq_none {bracket : Bracket} {nesting : Nesting} (h : nesting.match? bracket = none) :
    ∀ opener ∈ nesting.openers, opener.bracket ≠ bracket := by
  unfold match? at h
  split at h
  · next outer =>
    intro opener hmem
    obtain ⟨frame, hframe, rfl⟩ := List.mem_map.1 hmem
    exact of_decide_eq_true (List.dropWhile_eq_nil_iff.1 outer frame hframe)
  · cases h

/-- A closer closes the innermost delimiter that it fits. -/
theorem openers_of_match? {bracket : Bracket} {nesting : Nesting} {inside around : List Frame} {frame : Frame}
    (h : nesting.match? bracket = some (inside, frame, around)) :
    nesting.openers = inside.map Frame.opener ++ frame.opener :: around.map Frame.opener ∧
      frame.bracket = bracket ∧ ∀ opener ∈ inside.map Frame.opener, opener.bracket ≠ bracket := by
  have frames : nesting.openers = inside.map Frame.opener ++ frame.opener :: around.map Frame.opener := by
    rw [openers, frames_of_match? h, List.map_append, List.map_cons]
  unfold match? at h
  split at h
  · cases h
  · next outer =>
    cases h
    refine ⟨frames, ?_, ?_⟩
    · simpa using Text.head_dropWhile outer
    · intro opener hmem
      obtain ⟨inner, hinner, rfl⟩ := List.mem_map.1 hmem
      have passed := List.mem_takeWhile_imp hinner
      exact of_decide_eq_true passed

end Nesting

namespace Diagnostic

/-- The scopes and the reports of the checker are those of a ledger. -/
structure Agrees (nesting : Nesting) (found : List Diagnostic) (ledger : Ledger) : Prop where
  scopes : ledger.scopes = nesting.openers.map some ++ [none]
  unclosed : found.filter (·.complaint = .unclosed) = ledger.unclosed.map fun opener => single opener.place .unclosed
  unexpected : found.filter (·.complaint = .unexpectedCloser)
    = ledger.unexpected.map fun closer => single closer.place .unexpectedCloser

/-- Whether a diagnostic reports no delimiter. -/
def Silent (diagnostic : Diagnostic) : Prop :=
  diagnostic.complaint ≠ .unclosed ∧ diagnostic.complaint ≠ .unexpectedCloser

theorem silent_singleIf {complaint : Complaint} (h : complaint ≠ .unclosed ∧ complaint ≠ .unexpectedCloser)
    (cause : Bool) (index : Nat) : ∀ diagnostic ∈ singleIf cause index complaint, Silent diagnostic := by
  intro diagnostic hmem
  rw [(mem_singleIf.1 hmem).2]
  exact h

/-- A directive is no cause to report a delimiter. -/
theorem silent_ofDirective {state : State} {index : Nat} {form : Directive} {previous behind : Option Token}
    {head : Token} : ∀ diagnostic ∈ ofDirective state index form previous head behind, Silent diagnostic := by
  intro diagnostic hmem
  rcases mem_ofDirective.1 hmem with ⟨-, rfl⟩ | ⟨-, rfl⟩
  · exact ⟨nofun, nofun⟩
  · exact ⟨nofun, nofun⟩

/-- A token that is no delimiter moves no scope and is no cause to report a delimiter. -/
theorem silent_ofToken {state : State} {index : Nat} {previous : Option Token} {token : Token}
    (own : Delimiter.ofToken? index token = none) (hkind : token.kind ≠ .endOfText) :
    (ofToken state index previous token).2.nesting.openers = state.nesting.openers ∧
      ∀ diagnostic ∈ (ofToken state index previous token).1, Silent diagnostic := by
  unfold ofToken
  split
  · exact ⟨rfl, silent_singleIf (by decide) _ _⟩
  · next kind => simp [Delimiter.ofToken?, kind] at own
  · next kind => simp [Delimiter.ofToken?, kind] at own
  · exact ⟨Nesting.map_frames_await (fun _ _ => rfl) _ _, nofun⟩
  · exact ⟨rfl, silent_singleIf (by decide) _ _⟩
  · split
    · exact ⟨map_frames_beginHeader (fun _ _ => rfl) _ _ _, silent_singleIf (by decide) _ _⟩
    · exact ⟨rfl, nofun⟩
  · next kind => exact absurd kind hkind
  · exact ⟨rfl, nofun⟩

namespace Agrees

variable {nesting nesting' : Nesting} {found more : List Diagnostic} {ledger : Ledger}

theorem start : Agrees Nesting.file [] .start := ⟨rfl, rfl, rfl⟩

section
variable (h : Agrees nesting found ledger)
include h

/-- What reports no delimiter and moves no scope leaves the ledger as it is. -/
theorem silent (same : nesting'.openers = nesting.openers) (silent : ∀ diagnostic ∈ more, Silent diagnostic) :
    Agrees nesting' (found ++ more) ledger := by
  have unclosed : more.filter (·.complaint = .unclosed) = [] :=
    List.filter_eq_nil_iff.2 fun diagnostic hmem => by simpa using (silent diagnostic hmem).1
  have unexpected : more.filter (·.complaint = .unexpectedCloser) = [] :=
    List.filter_eq_nil_iff.2 fun diagnostic hmem => by simpa using (silent diagnostic hmem).2
  refine ⟨?_, ?_, ?_⟩
  · rw [same, h.scopes]
  · rw [List.filter_append, unclosed, List.append_nil, h.unclosed]
  · rw [List.filter_append, unexpected, List.append_nil, h.unexpected]

/-- An opener enters a scope, and so does the ledger. -/
theorem enter (bracket : Bracket) (index : Nat) :
    Agrees (nesting.enter bracket index) found (ledger.read ⟨index, bracket, true⟩) := by
  rw [Ledger.read_opener rfl]
  refine ⟨?_, h.unclosed, h.unexpected⟩
  rw [Nesting.openers_enter, h.scopes]
  rfl

theorem unexpectedCloser {bracket : Bracket} (unfit : nesting.match? bracket = none) (index : Nat) :
    Agrees nesting (found ++ [single index .unexpectedCloser]) (ledger.read ⟨index, bracket, false⟩) := by
  rw [Ledger.read_unfitting rfl h.scopes (Nesting.bracket_ne_of_match?_eq_none unfit)]
  refine ⟨h.scopes, ?_, ?_⟩
  · rw [List.filter_append, h.unclosed]
    exact List.append_nil _
  · rw [List.filter_append, h.unexpected, List.map_append]
    rfl

/-- The delimiters that stay open in the scopes that end are reported, outermost first. -/
theorem drop (inside : List Frame) (pairs : List (Delimiter × Delimiter)) :
    Agrees nesting' (found ++ inside.reverse.map fun frame => single frame.index .unclosed)
      { ledger with
        scopes := nesting'.openers.map some ++ [none]
        pairs
        unclosed := ledger.unclosed ++ (inside.map Frame.opener).reverse } := by
  have unclosed : (inside.reverse.map fun frame => single frame.index .unclosed).filter (·.complaint = .unclosed)
      = inside.reverse.map fun frame => single frame.index .unclosed :=
    List.filter_eq_self.2 (List.forall_mem_map.2 fun _ _ => rfl)
  have unexpected :
      (inside.reverse.map fun frame => single frame.index .unclosed).filter (·.complaint = .unexpectedCloser) = [] :=
    List.filter_eq_nil_iff.2 (List.forall_mem_map.2 fun _ _ => nofun)
  refine ⟨rfl, ?_, ?_⟩
  · rw [List.filter_append, unclosed, h.unclosed, List.map_append, ← List.map_reverse, List.map_map]
    rfl
  · rw [List.filter_append, unexpected, List.append_nil, h.unexpected]

/-- A closer leaves the scope that it fits. -/
theorem leave {bracket : Bracket} {inside around : List Frame} {frame : Frame}
    (fits : nesting.match? bracket = some (inside, frame, around)) (index : Nat) :
    Agrees { nesting with frames := around }
      (found ++ inside.reverse.map fun frame => single frame.index .unclosed)
      (ledger.read ⟨index, bracket, false⟩) := by
  obtain ⟨split, own, skipped⟩ := Nesting.openers_of_match? fits
  rw [Ledger.read_fitting rfl (split ▸ h.scopes) skipped own]
  exact h.drop inside _

/-- At the end of the text all scopes are left but the file. -/
theorem finish : Agrees { nesting with frames := [] }
    (found ++ nesting.frames.reverse.map fun frame => single frame.index .unclosed) ledger.finish := by
  rw [Ledger.finish_eq h.scopes]
  exact h.drop nesting.frames _

/-- A token before the end of the text does to the scopes what it does to the ledger. -/
theorem ofToken {closed : Option Keyword} {token : Token} (hkind : token.kind ≠ .endOfText) (index : Nat)
    (previous : Option Token) :
    Agrees (ofToken ⟨nesting, closed⟩ index previous token).2.nesting
      (found ++ (ofToken ⟨nesting, closed⟩ index previous token).1)
      ((Delimiter.ofToken? index token).toList.foldl Ledger.read ledger) := by
  cases kind : token.kind with
  | opener bracket =>
    simp only [Diagnostic.ofToken, Delimiter.ofToken?, kind, List.append_nil]
    exact h.enter bracket index
  | closer bracket =>
    simp only [Diagnostic.ofToken, Delimiter.ofToken?, kind]
    cases fits : nesting.match? bracket with
    | none => exact h.unexpectedCloser fits index
    | some found => exact h.leave fits index
  | _ =>
    have own : Delimiter.ofToken? index token = none := by simp only [Delimiter.ofToken?, kind]
    obtain ⟨same, silent⟩ := @silent_ofToken ⟨nesting, closed⟩ index previous token own hkind
    rw [own]
    exact h.silent same silent

end

end Agrees

/-! ## The run of the checker -/

/-- Where the checker comes to among tokens: what it knows there, the place of the next token and the
token in front of it, the tokens left, and what it has found. -/
inductive Reaches (tokens : List Token) : State → Nat → Option Token → List Token → List Diagnostic → Prop
  | start : Reaches tokens .start 0 none tokens []
  | token {state : State} {index : Nat} {previous : Option Token} {token : Token} {rest : List Token}
      {found : List Diagnostic} (before : Reaches tokens state index previous (token :: rest) found)
      (plain : Directive.first? (token :: rest) = none) :
      Reaches tokens (ofToken state index previous token).2 (index + 1) (some token) rest
        (found ++ (singleIf token.unterminated index .unterminated ++ (ofToken state index previous token).1))
  | directive {state : State} {index : Nat} {previous : Option Token} {token : Token} {rest : List Token}
      {found : List Diagnostic} {form : Directive} (before : Reaches tokens state index previous (token :: rest) found)
      (formed : Directive.first? (token :: rest) = some form) :
      Reaches tokens ⟨state.nesting, none⟩ (index + form.size) (token :: rest)[form.size - 1]?
        (rest.drop (form.size - 1))
        (found ++ (singleIf token.unterminated index .unterminated
          ++ ofDirective state index form previous token (rest.drop (form.size - 1)).head?))

namespace Reaches

open Token (Lexed)

variable {tokens rest : List Token} {state : State} {index : Nat} {previous : Option Token} {found : List Diagnostic}

theorem suffix (h : Reaches tokens state index previous rest found) : rest <:+ tokens := by
  induction h with
  | start => exact List.suffix_rfl
  | token _ _ ih => exact (List.suffix_cons _ _).trans ih
  | directive _ _ ih => exact ((List.drop_suffix _ _).trans (List.suffix_cons _ _)).trans ih

theorem lexed (h : Reaches tokens state index previous rest found) (lexed : Lexed tokens) (left : rest ≠ []) :
    Lexed rest := by
  obtain ⟨front, rfl⟩ := h.suffix
  exact lexed.of_append left

/-- What is found in all is what has been found and what is found in the tokens left. -/
theorem ofTokens_eq (h : Reaches tokens state index previous rest found) :
    ofTokens tokens = found ++ ofTokensFrom state index previous rest := by
  induction h with
  | start => rfl
  | token _ plain ih =>
    rw [ih, ofTokensFrom_plain plain]
    simp only [List.append_assoc]
  | directive _ formed ih =>
    rw [ih, ofTokensFrom_directive formed]
    simp only [List.append_assoc]

/-- Before the end of the text the checker agrees with the ledger of the delimiters that it has read. -/
theorem agrees (h : Reaches tokens state index previous rest found) (lexed : Lexed tokens) (left : rest ≠ []) :
    ∃ front, Delimiter.outside 0 tokens = front ++ Delimiter.outside index rest ∧
      Agrees state.nesting found (.ofDelimiters front) := by
  induction h with
  | start => exact ⟨[], rfl, .start⟩
  | @token state index previous token rest found before plain ih =>
    obtain ⟨front, split, agrees⟩ := ih (List.cons_ne_nil _ _)
    have hkind : token.kind ≠ .endOfText := (before.lexed lexed (List.cons_ne_nil _ _)).kind_ne left
    refine ⟨front ++ (Delimiter.ofToken? index token).toList, ?_, ?_⟩
    · rw [split, Delimiter.outside_plain plain, List.append_assoc]
    · rw [Ledger.ofDelimiters, List.foldl_append, ← List.append_assoc]
      exact (agrees.silent rfl (silent_singleIf (by decide) _ _)).ofToken hkind index previous
  | @directive state index previous token rest found form before formed ih =>
    obtain ⟨front, split, agrees⟩ := ih (List.cons_ne_nil _ _)
    refine ⟨front, ?_, ?_⟩
    · rw [split, Delimiter.outside_directive formed]
    · rw [← List.append_assoc]
      exact (agrees.silent rfl (silent_singleIf (by decide) _ _)).silent rfl silent_ofDirective

/-- The checker comes to the end of the tokens. -/
theorem exists_end (h : Reaches tokens state index previous rest found) :
    ∃ state index previous found, Reaches tokens state index previous [] found := by
  fun_induction Directive.outside rest generalizing state index previous found with
  | case1 => exact ⟨_, _, _, _, h⟩
  | case2 token rest plain ih => exact ih (.token h plain)
  | case3 token rest form formed ih => exact ih (.directive h formed)

/-- At the end of the text the checker agrees with the ledger of all delimiters, and nothing is open. -/
theorem agrees_end (h : Reaches tokens state index previous [] found) (lexed : Lexed tokens) :
    Agrees state.nesting found (Ledger.ofDelimiters (Delimiter.outside 0 tokens)).finish ∧ state.nesting.frames = [] := by
  generalize hrest : ([] : List Token) = rest at h
  cases h with
  | start => exact absurd hrest.symm lexed.ne_nil
  | @token state index previous final rest found before plain =>
    subst hrest
    have hkind : final.kind = .endOfText := (before.lexed lexed (List.cons_ne_nil _ _)).kind_of_singleton
    obtain ⟨front, split, agrees⟩ := before.agrees lexed (List.cons_ne_nil _ _)
    have whole : Delimiter.outside 0 tokens = front := by
      rw [split, Delimiter.outside_plain rfl, Delimiter.outside_nil]
      simp [Delimiter.ofToken?, hkind]
    rw [whole, ← List.append_assoc]
    simp only [ofToken, hkind]
    exact ⟨(agrees.silent rfl (silent_singleIf (by decide) _ _)).finish, trivial⟩
  | directive before formed =>
    exact absurd hrest.symm (Directive.drop_ne_nil_of_first? formed (before.lexed lexed (List.cons_ne_nil _ _)))

end Reaches

theorem Agrees.settles {nesting : Nesting} {found : List Diagnostic} {delimiters : List Delimiter}
    (h : Agrees nesting found (.ofDelimiters delimiters)) (ascending : delimiters.Pairwise (·.place < ·.place)) :
    (Ledger.ofDelimiters delimiters).Settles delimiters nesting.openers := by
  obtain ⟨opened, settles⟩ := Ledger.Settles.ofDelimiters ascending
  have same : nesting.openers.map some = opened.map some :=
    List.append_cancel_right (h.scopes.symm.trans settles.scopes)
  rwa [(List.map_inj_right fun _ _ => Option.some.inj).1 same]

/-- A checker that reports no delimiter agrees with a clean ledger. -/
theorem Agrees.silent_iff {nesting : Nesting} {found : List Diagnostic} {ledger : Ledger}
    (h : Agrees nesting found ledger) : (∀ diagnostic ∈ found, Silent diagnostic) ↔ ledger.Clean := by
  have unclosed : ledger.unclosed = [] ↔ ∀ diagnostic ∈ found, diagnostic.complaint ≠ .unclosed := by
    rw [← List.map_eq_nil_iff, ← h.unclosed, List.filter_eq_nil_iff]
    simp
  have unexpected : ledger.unexpected = [] ↔ ∀ diagnostic ∈ found, diagnostic.complaint ≠ .unexpectedCloser := by
    rw [← List.map_eq_nil_iff, ← h.unexpected, List.filter_eq_nil_iff]
    simp
  rw [Ledger.Clean, unclosed, unexpected, ← forall₂_and]
  rfl

end Diagnostic

/-- What the diagnostics of a program say of the delimiters outside directives. They report the openers
that the ledger has found unclosed and the closers that it has found unexpected, each of them once, and
none if and only if the delimiters are balanced. Wherever the checker comes to, what it has open inside
the file is what the ledger has open there, and at the end it is the file alone. -/
theorem diagnostics_of_delimiters (text : List Char) :
    let tokens := Token.ofText text
    let delimiters := Delimiter.outside 0 tokens
    let ledger := (Ledger.ofDelimiters delimiters).finish
    let found := (Source.ofText text).diagnostics
    delimiters.Pairwise (·.place < ·.place) ∧
      ledger.Settles delimiters [] ∧
      found.filter (·.complaint = .unclosed)
        = ledger.unclosed.map (fun opener => Diagnostic.single opener.place .unclosed) ∧
      found.filter (·.complaint = .unexpectedCloser)
        = ledger.unexpected.map (fun closer => Diagnostic.single closer.place .unexpectedCloser) ∧
      ((∀ diagnostic ∈ found, diagnostic.Silent) ↔ Balanced delimiters) ∧
      ∀ state index previous rest found, Diagnostic.Reaches tokens state index previous rest found →
        (rest = [] → state.nesting.frames = []) ∧
          (rest ≠ [] → ∃ front, delimiters = front ++ Delimiter.outside index rest ∧
            (Ledger.ofDelimiters front).Settles front state.nesting.openers) := by
  intro tokens delimiters ledger found
  have lexed : Token.Lexed tokens := Token.lexed_ofText text
  obtain ⟨-, ascending⟩ := Delimiter.ascending_outside 0 tokens
  obtain ⟨opened, settles⟩ := Ledger.Settles.ofDelimiters ascending
  obtain ⟨_, _, _, all, reaches⟩ := (@Diagnostic.Reaches.start tokens).exists_end
  obtain ⟨agrees, -⟩ := reaches.agrees_end lexed
  have whole : found = all := reaches.ofTokens_eq.trans (by rw [Diagnostic.ofTokensFrom, List.append_nil])
  refine ⟨ascending, settles.finish, whole ▸ agrees.unclosed, whole ▸ agrees.unexpected, ?_, ?_⟩
  · rw [whole]
    exact agrees.silent_iff.trans (Ledger.clean_finish_iff ascending)
  · intro state index previous rest found reaches
    constructor
    · rintro rfl
      exact (reaches.agrees_end lexed).2
    · intro left
      obtain ⟨front, split, agrees⟩ := reaches.agrees lexed left
      refine ⟨front, split, agrees.settles ?_⟩
      exact (List.pairwise_append.1 (split ▸ ascending)).1

/-- A closer that skips an opener, and another that fits none. -/
theorem diagnostics_of_delimiters_skipped :
    let tokens := Token.ofText "(\x7b)]".toList
    let delimiters : List Delimiter := [⟨0, .paren, true⟩, ⟨1, .brace, true⟩, ⟨2, .paren, false⟩, ⟨3, .square, false⟩]
    let ledger : Ledger :=
      ⟨[none], [(⟨0, .paren, true⟩, ⟨2, .paren, false⟩)], [⟨1, .brace, true⟩], [⟨3, .square, false⟩]⟩
    (Source.ofText "(\x7b)]".toList).diagnostics = [⟨1, 2, .unclosed⟩, ⟨3, 4, .unexpectedCloser⟩] ∧
      Delimiter.outside 0 tokens = delimiters ∧ ledger.Settles delimiters [] ∧ ¬ Balanced delimiters ∧
      (∃ state previous found, Diagnostic.Reaches tokens state 5 previous [] found ∧ state.nesting.frames = []) ∧
      ∃ state previous rest found, Diagnostic.Reaches tokens state 2 previous rest found ∧ rest ≠ [] ∧
        ∃ front, delimiters = front ++ Delimiter.outside 2 rest ∧
          (Ledger.ofDelimiters front).Settles front state.nesting.openers := by
  intro tokens delimiters ledger
  have read : tokens = [⟨.opener .paren, [], ['('], [], false⟩, ⟨.opener .brace, [], ['\x7b'], [], false⟩,
      ⟨.closer .paren, [], [')'], [], false⟩, ⟨.closer .square, [], [']'], [], false⟩,
      ⟨.endOfText, [], [], [], false⟩] := by
    decide +kernel
  have found : (Source.ofText "(\x7b)]".toList).diagnostics = [⟨1, 2, .unclosed⟩, ⟨3, 4, .unexpectedCloser⟩] := by
    decide +kernel
  have outside : Delimiter.outside 0 tokens = delimiters := by decide +kernel
  obtain ⟨-, settles, -, -, balanced, run⟩ := diagnostics_of_delimiters "(\x7b)]".toList
  rw [show Delimiter.outside 0 (Token.ofText "(\x7b)]".toList) = delimiters from outside] at settles balanced run
  have first := @Diagnostic.Reaches.start tokens
  rw [read] at first
  have second := (first.token rfl).token rfl
  rw [← read] at second
  have last := ((second.token rfl).token rfl).token rfl
  refine ⟨found, outside, settles, ?_, ⟨_, _, _, last, (run _ _ _ _ _ last).1 rfl⟩,
    ⟨_, _, _, _, second, List.cons_ne_nil _ _, (run _ _ _ _ _ second).2 (List.cons_ne_nil _ _)⟩⟩
  intro h
  have silent := balanced.2 h ⟨1, 2, .unclosed⟩ (by rw [found]; exact List.mem_cons_self)
  exact silent.1 rfl

end SwiftTemplate.Swift
