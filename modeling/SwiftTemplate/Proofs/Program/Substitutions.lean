import SwiftTemplate.Program.Print
import SwiftTemplate.Proofs.Swift.Passage
import SwiftTemplate.Proofs.Swift.Writing
import SwiftTemplate.Proofs.Template.Partition

/-!
# Substitutions as interpolations

The tokens of Swift tell where a substitution ends, with one counter for all delimiters. Where an
interpolation ends is told by characters, with a counter of parentheses. Both agree on code whose
parentheses match on their own and in which no token hides anything from the lexer.
-/
namespace SwiftTemplate

open Text (Breaks Passes walk)

namespace Swift

namespace Literal

/-- What the parenthesis behind an interpolation says about comments and literals is what the brace
behind a substitution says. -/
theorem fronts_close (u v : List Char) : Fronts ('\x7d' :: u) (')' :: v) := by
  refine ⟨⟨fun slash => ?_, fun star => ?_, fun line => ?_⟩, fun pattern own hv => ?_⟩
  · cases slash
  · cases star
  · cases line
  · cases pattern with
    | nil => rfl
    | cons d pattern =>
      rw [List.isPrefixOf_cons_cons, Bool.and_eq_true, beq_iff_eq] at hv
      rw [List.all_cons, hv.1] at own
      cases own

end Literal

namespace Token

variable {tokens : List Token}

/-- The scanner passes tokens up to a mark of punctuation, with the trivia before it. -/
theorem passes_before {mark : Char} {token : Token} {others : List Token}
    (listed : (mark, token.kind) ∈ Lexeme.punctuation) (h : Lexed (tokens ++ token :: others))
    (clear : ∀ token ∈ tokens, token.isClear = true) {depth middle : Nat}
    (counted : tokens.foldlM parens? depth = some middle) (outer : List Literal.Mode) :
    Passes Literal.step (mark :: (token.trailing ++ render others)) (.interpolation depth :: outer)
      (render tokens ++ token.leading) (.interpolation middle :: outer) := by
  obtain ⟨htext, left_open, before⟩ := text_of_mem_punctuation listed (h.of_append (by simp)).next_eq
  have rest : render (token :: others) = token.leading ++ mark :: (token.trailing ++ render others) := by
    simp [source, htext]
  have unhashed : (token.leading ++ mark :: (token.trailing ++ render others)).head? ≠ some '#' := by
    have hashless : ∀ entry ∈ Lexeme.punctuation, entry.1 ≠ '#' := by decide
    cases hleading : token.leading with
    | nil => simpa using hashless _ listed
    | cons c leading =>
      rw [hleading] at before
      intro hash
      obtain rfl : c = '#' := Option.some.inj hash
      rcases Trivia.front_of_passes_leading before with blank | slash
      · cases blank
      · cases slash
  rw [← rest] at unhashed
  have passed : Passes Literal.step _ (.interpolation depth :: outer) (render tokens) (.interpolation middle :: outer) :=
    passes_tokens h (by simp) unhashed clear counted
  rw [rest] at passed
  exact passed.append (Literal.passes_of_leadingStep before middle outer)

theorem ofText_of_trivia {trivia : List Char} {left_open : Bool} (h : Trivia.leading trivia = (trivia.length, left_open)) :
    ofText trivia = [⟨.endOfText, trivia, [], [], left_open⟩] := by
  have first : next trivia = (⟨.endOfText, trivia, [], [], left_open⟩, []) := by
    rw [next, h]
    dsimp only
    rw [List.drop_length]
  rw [ofText, first]
  rfl

/-- Whether the parentheses among some tokens match, whatever the other delimiters do. -/
def parensMatch (tokens : List Token) : Bool := tokens.foldlM parens? 0 = some 0

/-- Where parentheses do not match because one is closed too early, those before it match. -/
theorem exists_of_foldlM_eq_none {depth : Nat} (h : tokens.foldlM parens? depth = none) :
    ∃ front paren behind, tokens = front ++ paren :: behind ∧ front.foldlM parens? depth = some 0 ∧
      paren.kind = .closer .paren := by
  induction tokens generalizing depth with
  | nil => cases h
  | cons token tokens ih =>
    rw [List.foldlM_cons] at h
    cases counted : parens? depth token with
    | some middle =>
      rw [counted] at h
      obtain ⟨front, paren, behind, rfl, hfront, hparen⟩ := ih h
      refine ⟨token :: front, paren, behind, rfl, ?_, hparen⟩
      rw [List.foldlM_cons, counted]
      exact hfront
    | none =>
      unfold parens? at counted
      split at counted
      · cases counted
      split at counted
      · next shuts =>
        split at counted
        · next outermost => exact ⟨[], token, tokens, rfl, by rw [outermost]; rfl, shuts⟩
        · cases counted
      · cases counted

/-- A text that is read as one string literal, closed, and nothing else. -/
def IsLiteral (text : List Char) : Prop := ofText text = [.written .string text [], .written .endOfText [] []]

instance (text : List Char) : Decidable (IsLiteral text) := inferInstanceAs (Decidable (_ = _))

end Token

end Swift

open Swift
open Swift.Literal (Mode SelfContained Spells fronts_close step scan)

namespace Template.Embedded

variable {code behind : List Char}

theorem exists_tokens (h : Embedded code behind) : ∃ tokens close others left_open,
    Token.Lexed (tokens ++ close :: others) ∧ ('\x7d', close.kind) ∈ Lexeme.punctuation ∧ close.text = ['\x7d'] ∧
      code = Token.render tokens ++ close.leading ∧
      Token.ofText code = tokens ++ [⟨.endOfText, close.leading, [], [], left_open⟩] := by
  obtain ⟨tokens, close, others, htokens, hclose, rfl⟩ := h
  have lexed : Token.Lexed (tokens ++ close :: others) := by
    rw [← htokens]
    exact Token.lexed_ofText _
  have listed : ('\x7d', close.kind) ∈ Lexeme.punctuation := by
    rw [hclose]
    decide
  obtain ⟨htext, left_open, before⟩ := Token.text_of_mem_punctuation listed (lexed.of_append (by simp)).next_eq
  have rest : Token.render (close :: others) = close.leading ++ '\x7d' :: (close.trailing ++ Token.render others) := by
    simp [Token.source, htext]
  refine ⟨tokens, close, others, left_open, lexed, listed, htext, rfl, ?_⟩
  have ends := lexed.ends (by simp) fun none => by
    rw [rest] at none
    simp at none
  have like : Resembles (Token.render (close :: others)) (close.leading ++ []) := by
    rw [rest]
    refine .breaks Text.breaks_nil fun begins hone => ?_
    obtain ⟨c, hc⟩ := List.length_eq_one_iff.1 hone
    simp [hc, Comment.begins, Comment.beginsLine, Comment.beginsBlock] at begins
  have fronts : Comment.Fronts ('\x7d' :: (close.trailing ++ Token.render others)) [] := by
    refine ⟨fun slash => ?_, fun star => ?_, fun _ => rfl⟩
    · cases slash
    · cases star
  have trivia := (Trivia.passes_leadingStep_congr fronts (by simp) before).walk_eq
  rw [List.append_nil, Text.walk_nil] at trivia
  rw [List.append_nil] at like
  rw [lexed.ofText_append (by simp) ends like, Token.ofText_of_trivia trivia]

variable (clear : ∀ token ∈ Token.ofText code, token.isClear = true)
include clear

theorem passes (h : Embedded code behind) {depth : Nat}
    (counted : (Token.ofText code).foldlM Token.parens? 0 = some depth) (further : List Char) :
    Passes step (')' :: further) [.interpolation 0] code [.interpolation depth] := by
  obtain ⟨tokens, close, others, left_open, lexed, listed, -, hcode, htokens⟩ := h.exists_tokens
  rw [htokens] at clear counted
  have own : tokens.foldlM Token.parens? 0 = some depth := by
    rw [List.foldlM_append] at counted
    obtain ⟨middle, hmiddle, last⟩ := Option.bind_eq_some_iff.1 counted
    rw [hmiddle]
    exact last
  have passed := Token.passes_before listed lexed (fun token hmem => clear token (List.mem_append_left _ hmem)) own []
  rw [← hcode] at passed
  exact Literal.passes_step_congr (fronts_close _ further) passed (.inl (by simp))

/-- Where a parenthesis is closed too early, the scanner comes out of the interpolation there. -/
theorem exists_early (h : Embedded code behind) (early : (Token.ofText code).foldlM Token.parens? 0 = none)
    (further : List Char) :
    ∃ front back, code = front ++ back ∧ Passes step (back ++ ')' :: further) [.interpolation 0] front [] := by
  obtain ⟨tokens, close, others, left_open, lexed, -, hbrace, hcode, htokens⟩ := h.exists_tokens
  rw [htokens] at clear early
  have own : tokens.foldlM Token.parens? 0 = none := by
    cases hfold : tokens.foldlM Token.parens? 0 with
    | none => rfl
    | some middle =>
      rw [List.foldlM_append, hfold] at early
      cases early
  obtain ⟨front, paren, more, rfl, counted, hparen⟩ := Token.exists_of_foldlM_eq_none own
  have listed : (')', paren.kind) ∈ Lexeme.punctuation := by
    rw [hparen]
    decide
  rw [List.append_assoc] at lexed
  obtain ⟨htext, -⟩ := Token.text_of_mem_punctuation listed (lexed.of_append (by simp)).next_eq
  have passed := Token.passes_before listed lexed
    (fun token hmem => clear token (List.mem_append_left _ (List.mem_append_left _ hmem))) counted []
  refine ⟨Token.render front ++ paren.leading ++ [')'], paren.trailing ++ Token.render more ++ close.leading, ?_, ?_⟩
  · simp [hcode, Token.source, htext]
  · have split : paren.trailing ++ Token.render (more.append (close :: others))
        = paren.trailing ++ Token.render more ++ close.leading ++ '\x7d' :: (close.trailing ++ Token.render others) := by
      simp [Token.source, hbrace]
    rw [split] at passed
    have emerges := passed.append (Literal.passes_close [] _)
    exact Literal.passes_step_congr ((fronts_close _ further).append _) emerges (.inl (by simp))

/-- Embedded code can stand in an interpolation if and only if its parentheses match on their own. -/
theorem selfContained_iff (h : Embedded code behind) :
    SelfContained code ↔ Token.parensMatch (Token.ofText code) = true := by
  rw [Token.parensMatch, decide_eq_true_eq]
  constructor
  · intro whole
    cases counted : (Token.ofText code).foldlM Token.parens? 0 with
    | none =>
      obtain ⟨front, back, rfl, passed⟩ := h.exists_early clear counted []
      have stopped := passed.walk_eq
      have own : walk step [.interpolation 0] (front ++ back ++ [')']) = ((front ++ back).length + 1, []) := whole []
      rw [← List.append_assoc, own, Literal.walk_outside, List.length_append] at stopped
      have := congrArg Prod.fst stopped
      dsimp only at this
      omega
    | some depth =>
      have stopped := (h.passes clear counted []).walk_eq
      have own : walk step [.interpolation 0] (code ++ [')']) = (code.length + 1, []) := whole []
      rw [own] at stopped
      cases depth with
      | zero => rfl
      | succ depth =>
        have closes : step [.interpolation (depth + 1)] ')' [] = some (0, [.interpolation depth]) := rfl
        rw [Text.walk_take closes, List.drop_zero, Text.walk_nil] at stopped
        cases congrArg Prod.snd stopped
  · intro counted
    exact Literal.selfContained_of_passes (h.passes clear counted)

end Template.Embedded

namespace Program

open Template (Segment Embedded)

/-- The literal that holds an expression and nothing else. -/
def Print.holding (code : List Char) : List Char :=
  if code.contains '\n' then blockLiteral (interpolation code) else inlineLiteral (interpolation code)

theorem Print.argument_expression (code : List Char) :
    (ofOutputs [] [.expression code]).argument = holding code := by
  by_cases several : code.contains '\n' = true
  · rw [ofOutputs, holding, if_pos several, if_pos several]
    simp [argument, interpolation]
  · rw [ofOutputs, holding, if_neg several, if_neg several]
    simp [ofOutputs, argument, interpolation]

theorem isLiteral_holding {code : List Char} (h : SelfContained code) : Token.IsLiteral (Print.holding code) := by
  have final : Token.ofText [] = [.written .endOfText [] []] := by decide +kernel
  unfold Token.IsLiteral Print.holding
  split
  · have read := @Token.reads_block [] (Print.interpolation code) [] _ (Spells.code h) (by simp [Trivia.trailing])
    rw [Token.Reads, final] at read
    simpa [Token.source, Token.written, Print.blockLiteral] using read
  · have read := @Token.reads_inline [] (Print.interpolation code) [] _ (Spells.code h) (by simp)
      (by simp [Trivia.trailing])
    rw [Token.Reads, final] at read
    simpa [Token.source, Token.written, Print.inlineLiteral] using read

/-- The code of a substitution whose tokens hide nothing can stand in an interpolation if and only if
its parentheses match on their own, and then the literal that holds it is read as a whole. -/
theorem isLiteral_of_substitution {template code : List Char} {segment : Segment}
    (hmem : segment ∈ Segment.ofText template) (hkind : segment.kind = .substitution)
    (htext : segment.text = '$' :: '\x7b' :: (code ++ ['\x7d']))
    (clear : ∀ token ∈ Token.ofText code, token.isClear = true) :
    (SelfContained code ↔ Token.parensMatch (Token.ofText code) = true) ∧
      (Token.parensMatch (Token.ofText code) = true → Token.IsLiteral (Print.holding code)) := by
  obtain ⟨atLineStart, c, rest, extent, hmeasure, hsegment⟩ := Segment.exists_measure_of_mem hmem
  obtain ⟨inner, behind, hinner, embedded⟩ := Segment.exists_embedded_of_measure (hkind ▸ hmeasure)
  obtain rfl : code = inner := by
    rw [← hsegment, htext] at hinner
    simpa using hinner
  have same := embedded.selfContained_iff clear
  exact ⟨same, fun matching => isLiteral_holding (same.2 matching)⟩

/-- A literal with an interpolation and parentheses of its own, and a comment with one more. -/
theorem isLiteral_of_substitution_call :
    SelfContained "f(\"\\(a(1))\", [b]) /* ) */".toList ∧
      Token.IsLiteral (Print.holding "f(\"\\(a(1))\", [b]) /* ) */".toList) := by
  have whole := @isLiteral_of_substitution "$\x7bf(\"\\(a(1))\", [b]) /* ) */\x7d".toList
    "f(\"\\(a(1))\", [b]) /* ) */".toList
    ⟨.substitution, "$\x7bf(\"\\(a(1))\", [b]) /* ) */\x7d".toList, 0⟩ (by decide +kernel) rfl rfl (by decide +kernel)
  have matching : Token.parensMatch (Token.ofText "f(\"\\(a(1))\", [b]) /* ) */".toList) = true := by decide +kernel
  exact ⟨whole.1.2 matching, whole.2 matching⟩

/-- One counter for all delimiters takes a parenthesis and a bracket for a pair. The code is a
substitution, but the literal that holds it is not read as a whole. -/
theorem not_isLiteral_mixed :
    ⟨.substitution, "$\x7b(]\x7d".toList, 0⟩ ∈ Segment.ofText "$\x7b(]\x7d".toList ∧
      ¬ Token.IsLiteral (Print.holding "(]".toList) := by
  decide +kernel

/-- Parentheses that match do not suffice where a literal is left open, or where an identifier in back
quotes or an operator behind two points hides a sign. -/
theorem not_isLiteral_unclear : ∀ code ∈ ["\"a\n".toList, "\x60a(\x60".toList, "0..//1".toList],
    ⟨.substitution, '$' :: '\x7b' :: (code ++ ['\x7d']), 0⟩ ∈ Segment.ofText ('$' :: '\x7b' :: (code ++ ['\x7d'])) ∧
      Token.parensMatch (Token.ofText code) = true ∧ ¬ Token.IsLiteral (Print.holding code) := by
  decide +kernel

end Program

end SwiftTemplate
