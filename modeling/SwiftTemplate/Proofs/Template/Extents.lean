import SwiftTemplate.Proofs.Swift.Standalone
import SwiftTemplate.Proofs.Template.Slices

/-!
# Where substitutions and blocks end

The code of a substitution or a block ends at a closing brace, and the tokens up to that brace are
the same whatever the template goes on with. So no text behind the end moves the end.
-/
namespace SwiftTemplate

namespace Swift.Token

variable {tokens others : List Token} {close : Token}

/-- A closing brace is one character, with the trivia around it. -/
theorem Lexed.source_closer (h : Lexed (tokens ++ close :: others)) (hclose : close.kind = .closer .brace)
    (trailing : List Char) : { close with trailing := trailing }.source = close.leading ++ '\x7d' :: trailing := by
  have own : Lexed (close :: others) := h.of_append (by simp)
  have listed : ('\x7d', close.kind) ∈ Lexeme.punctuation := by
    rw [hclose]
    decide
  have text : close.text = ['\x7d'] := (text_of_mem_punctuation listed own.next_eq).1
  simp [source, text]

/-- Up to a closing brace the tokens are the same whatever stands behind it. -/
theorem Lexed.exists_ofText_closer (h : Lexed (tokens ++ close :: others)) (hclose : close.kind = .closer .brace)
    (other : List Char) : ∃ trailing left,
      ofText (render tokens ++ (close.leading ++ '\x7d' :: other)) = tokens ++ { close with trailing := trailing } :: left := by
  have own : Lexed (close :: others) := h.of_append (by simp)
  have hne : close.kind ≠ .endOfText := by
    rw [hclose]
    decide
  have mark : Lexeme.isMarkKind close.kind = true := by
    rw [hclose]
    rfl
  have rest : render (close :: others) = close.leading ++ '\x7d' :: (close.trailing ++ render others) := by
    rw [render_cons, h.source_closer hclose, List.append_assoc, List.cons_append]
  have ends := h.ends (by simp) fun none => by
    rw [rest] at none
    simp at none
  have ahead := length_leading_le own.next_eq hne
  have like : Resembles (render (close :: others)) (close.leading ++ '\x7d' :: other) := by
    rw [← render_cons, rest] at ahead
    rw [rest]
    exact .mark rfl (Nat.le_of_eq ahead.1)
  obtain ⟨trailing, left, rfl, htrailing, -⟩ := Trivia.passes_trailing other
  have next := next_withTrailing own.next_eq mark htrailing.symm
  rw [h.source_closer hclose, List.append_assoc, List.cons_append] at next
  refine ⟨trailing, ofText left, ?_⟩
  rw [h.ofText_append (by simp) ends like, ofText_of_next next hne]

end Swift.Token

namespace Template

open Swift (Token)

/-- As many delimiters are closed as are opened among some tokens, counted from `depth` on, and none
of the closing ones stands for a delimiter that was not open. -/
def Balances (depth : Nat) (tokens : List Token) : Prop :=
  (tokens.map Token.kind).foldlM depthBehind? depth = some 0

theorem balances_cons {depth : Nat} {token : Token} {tokens : List Token} :
    Balances depth (token :: tokens) ↔
      ∃ middle, depthBehind? depth token.kind = some middle ∧ Balances middle tokens := by
  unfold Balances
  rw [List.map_cons, List.foldlM_cons]
  exact Option.bind_eq_some_iff

/-- Code ends at the brace behind the tokens that balance. -/
theorem codeEndFrom?_eq_some_iff {depth offset stop : Nat} {text : List Char} :
    codeEndFrom? depth offset text = some stop ↔ ∃ tokens close others, Token.ofText text = tokens ++ close :: others ∧
      Balances depth tokens ∧ close.kind = .closer .brace ∧
      stop = offset + (Token.render tokens ++ close.leading).length := by
  constructor
  · intro h
    fun_induction codeEndFrom? depth offset text with
    | case1 => cases h
    | case2 depth offset text first hfirst hdepth hkind =>
      have outermost : depth = 0 := by
        rw [hkind, depthBehind?] at hdepth
        split at hdepth
        · assumption
        · cases hdepth
      subst outermost
      exact ⟨[], first.1, Token.ofText first.2, Token.ofText_of_next rfl hfirst, rfl, hkind, (Option.some.inj h).symm⟩
    | case3 => cases h
    | case4 depth offset text first hfirst middle hdepth ih =>
      obtain ⟨tokens, close, others, htokens, balances, hclose, rfl⟩ := ih h
      refine ⟨first.1 :: tokens, close, others, ?_, balances_cons.2 ⟨middle, hdepth, balances⟩, hclose, ?_⟩
      · rw [List.cons_append, ← htokens]
        exact Token.ofText_of_next rfl hfirst
      · simp only [Token.render_cons, List.length_append]
        omega
  · rintro ⟨tokens, close, others, htokens, balances, hclose, rfl⟩
    induction tokens generalizing depth offset text with
    | nil =>
      obtain rfl : depth = 0 := Option.some.inj balances
      have lexed : Token.Lexed (close :: others) := by
        have := Token.lexed_ofText text
        rwa [htokens] at this
      have whole : text = close.source ++ Token.render others := by
        rw [← Token.render_cons, ← List.nil_append (close :: others), ← htokens]
        exact (Token.flatMap_source_ofText text).symm
      rw [codeEndFrom?, whole, lexed.next_eq]
      simp [hclose, depthBehind?]
    | cons token tokens ih =>
      obtain ⟨middle, hdepth, balances⟩ := balances_cons.1 balances
      have lexed : Token.Lexed (token :: (tokens ++ close :: others)) := by
        have := Token.lexed_ofText text
        rwa [htokens] at this
      have whole : text = token.source ++ Token.render (tokens ++ close :: others) := by
        rw [← Token.render_cons, ← List.cons_append, ← htokens]
        exact (Token.flatMap_source_ofText text).symm
      have rest : Token.ofText (Token.render (tokens ++ close :: others)) = tokens ++ close :: others :=
        lexed.tail (by simp)
      have further := @ih middle (offset + token.source.length) _ rest balances
      rw [codeEndFrom?, whole, lexed.next_eq]
      simp only [lexed.kind_ne (by simp), hdepth, dite_false, further, Token.render_cons, List.length_append]
      congr 1
      omega

/-- Code ends where it ends whatever stands behind the brace. -/
theorem codeEnd?_append {code behind : List Char} (h : codeEnd? (code ++ '\x7d' :: behind) = some code.length)
    (other : List Char) : codeEnd? (code ++ '\x7d' :: other) = some code.length := by
  obtain ⟨tokens, close, others, htokens, balances, hclose, hstop⟩ := codeEndFrom?_eq_some_iff.1 h
  have lexed : Token.Lexed (tokens ++ close :: others) := by
    rw [← htokens]
    exact Token.lexed_ofText _
  have rest : Token.render (close :: others) = close.leading ++ '\x7d' :: (close.trailing ++ Token.render others) := by
    rw [Token.render_cons, lexed.source_closer hclose, List.append_assoc, List.cons_append]
  have whole : code ++ '\x7d' :: behind
      = (Token.render tokens ++ close.leading) ++ '\x7d' :: (close.trailing ++ Token.render others) := by
    rw [List.append_assoc, ← rest, ← Token.render_append, ← htokens]
    exact (Token.flatMap_source_ofText _).symm
  obtain ⟨rfl, -⟩ := List.append_inj whole (by rw [hstop, Nat.zero_add])
  obtain ⟨trailing, left, again⟩ := lexed.exists_ofText_closer hclose other
  refine codeEndFrom?_eq_some_iff.2 ⟨tokens, { close with trailing := trailing }, left, ?_, balances, hclose, hstop⟩
  rw [List.append_assoc]
  exact again

namespace Segment

/-! ## The first segment -/

theorem head?_ofText (c : Char) (rest : List Char) :
    (ofText (c :: rest)).head? = some ⟨(measure true c rest).1, c :: rest.take (measure true c rest).2, 0⟩ := by
  rw [ofText, ofTextFrom]
  rfl

variable {code behind : List Char}

/-- A substitution ends where its code ends. -/
theorem head?_substitution (h : codeEnd? (code ++ '\x7d' :: behind) = some code.length) :
    (ofText ('$' :: '\x7b' :: (code ++ '\x7d' :: behind))).head?
      = some ⟨.substitution, '$' :: '\x7b' :: (code ++ ['\x7d']), 0⟩ := by
  have measured : measure true '$' ('\x7b' :: (code ++ '\x7d' :: behind)) = (.substitution, code.length + 2) := by
    simp [measure, substitutionExtent?, h]
  have taken : ('\x7b' :: (code ++ '\x7d' :: behind)).take (code.length + 2) = '\x7b' :: (code ++ ['\x7d']) := by
    rw [List.take_succ_cons, List.take_length_add_append]
    rfl
  rw [head?_ofText, measured, taken]

/-- A block ends where its code ends, with the line break behind it. -/
theorem head?_codeBlock (h : codeEnd? (code ++ '\x7d' :: '%' :: behind) = some code.length) :
    (ofText ('%' :: '\x7b' :: (code ++ '\x7d' :: '%' :: behind))).head?
      = some ⟨.codeBlock, '%' :: '\x7b' :: (code ++ '\x7d' :: '%' :: behind.take (breakExtent behind)), 0⟩ := by
  have block := blockExtent?_of_codeEnd? h
  rw [List.head?_cons, if_pos rfl] at block
  have measured : measure true '%' ('\x7b' :: (code ++ '\x7d' :: '%' :: behind))
      = (.codeBlock, code.length + (breakExtent behind + 2) + 1) := by
    simp [measure, block]
    omega
  rw [head?_ofText, measured, List.take_succ_cons, List.take_length_add_append, List.take_succ_cons, List.take_succ_cons]

theorem exists_of_head?_substitution {text : List Char} {first : Segment} (kind : first.kind = .substitution)
    (h : (ofText ('$' :: '\x7b' :: text)).head? = some first) :
    ∃ code behind, text = code ++ '\x7d' :: behind ∧ codeEnd? (code ++ '\x7d' :: behind) = some code.length := by
  rw [head?_ofText] at h
  rw [← Option.some.inj h] at kind
  obtain ⟨extent, measured⟩ : ∃ extent, measure true '$' ('\x7b' :: text) = (.substitution, extent) :=
    ⟨_, Prod.ext kind rfl⟩
  cases measured_of_measure measured with
  | substitution ends =>
    obtain ⟨stop, hstop, -⟩ := Option.map_eq_some_iff.1 ends
    exact exists_of_codeEnd? hstop

theorem exists_of_head?_codeBlock {text : List Char} {first : Segment} (kind : first.kind = .codeBlock)
    (h : (ofText ('%' :: '\x7b' :: text)).head? = some first) :
    ∃ code behind, text = code ++ '\x7d' :: '%' :: behind ∧
      codeEnd? (code ++ '\x7d' :: '%' :: behind) = some code.length := by
  rw [head?_ofText] at h
  rw [← Option.some.inj h] at kind
  obtain ⟨extent, measured⟩ : ∃ extent, measure true '%' ('\x7b' :: text) = (.codeBlock, extent) :=
    ⟨_, Prod.ext kind rfl⟩
  cases measured_of_measure measured with
  | codeBlock ends =>
    obtain ⟨code, behind, rfl, hcode, -⟩ := exists_of_blockExtent? ends
    exact ⟨code, behind, rfl, hcode⟩

/-- The code of the substitution at the start of a template ends where the substitution does. -/
theorem codeEnd?_of_substitution
    (h : (ofText ('$' :: '\x7b' :: (code ++ '\x7d' :: behind))).head?
      = some ⟨.substitution, '$' :: '\x7b' :: (code ++ ['\x7d']), 0⟩) :
    codeEnd? (code ++ '\x7d' :: behind) = some code.length := by
  obtain ⟨inner, rest, split, ends⟩ := exists_of_head?_substitution rfl h
  rw [split, head?_substitution ends] at h
  have same : inner = code := by simpa using h
  rw [split, ends, same]

/-- The code of the block at the start of a template ends where the block does. -/
theorem codeEnd?_of_codeBlock {ending : List Char} (hending : ending ∈ endings)
    (h : (ofText ('%' :: '\x7b' :: (code ++ '\x7d' :: '%' :: behind))).head?
      = some ⟨.codeBlock, '%' :: '\x7b' :: (code ++ '\x7d' :: '%' :: ending), 0⟩) :
    codeEnd? (code ++ '\x7d' :: '%' :: behind) = some code.length := by
  obtain ⟨inner, rest, split, ends⟩ := exists_of_head?_codeBlock rfl h
  rw [split, head?_codeBlock ends] at h
  have text : (inner ++ ['\x7d']) ++ '%' :: rest.take (breakExtent rest) = (code ++ ['\x7d']) ++ '%' :: ending := by
    simpa using h
  -- The line breaks behind the two blocks may differ only as far as they are dropped.
  have body := congrArg Node.withoutBreak text
  rw [Node.withoutBreak_block (take_breakExtent_mem rest), Node.withoutBreak_block hending] at body
  have same : inner = code := by simpa using body
  rw [split, ends, same]

end Segment

/-! ## Other continuations -/

/-- Where a substitution or a block ends depends only on the text up to its end. If the template begins
with a substitution of some code, it does so whatever it goes on with, and if it begins with a block of
some code, whose end may take a line break along, then the block has the same end whatever follows, and
takes the line break that follows there. -/
theorem Segment.head?_ofText_append (code behind other : List Char) :
    ((ofText ('$' :: '\x7b' :: (code ++ '\x7d' :: behind))).head?
        = some ⟨.substitution, '$' :: '\x7b' :: (code ++ ['\x7d']), 0⟩ →
      (ofText ('$' :: '\x7b' :: (code ++ '\x7d' :: other))).head?
        = some ⟨.substitution, '$' :: '\x7b' :: (code ++ ['\x7d']), 0⟩) ∧
    ((∃ ending ∈ endings, (ofText ('%' :: '\x7b' :: (code ++ '\x7d' :: '%' :: behind))).head?
        = some ⟨.codeBlock, '%' :: '\x7b' :: (code ++ '\x7d' :: '%' :: ending), 0⟩) →
      other.take (breakExtent other) ∈ endings ∧
        (ofText ('%' :: '\x7b' :: (code ++ '\x7d' :: '%' :: other))).head?
          = some ⟨.codeBlock, '%' :: '\x7b' :: (code ++ '\x7d' :: '%' :: other.take (breakExtent other)), 0⟩) := by
  constructor
  · intro h
    exact head?_substitution (codeEnd?_append (codeEnd?_of_substitution h) other)
  · rintro ⟨ending, hending, h⟩
    have ends := codeEnd?_append (codeEnd?_of_codeBlock hending h) ('%' :: other)
    exact ⟨take_breakExtent_mem other, head?_codeBlock ends⟩

/-- Code with a brace in a literal and one in a comment, before nothing and before the start of another
literal, and an empty block before two kinds of line breaks. -/
theorem Segment.head?_ofText_append_call :
    (ofText "$\x7bf(\"\x7d\") /* \x7d */\x7d\"*/".toList).head?
        = some ⟨.substitution, "$\x7bf(\"\x7d\") /* \x7d */\x7d".toList, 0⟩ ∧
      (ofText "%\x7b\x7d%\nx".toList).head? = some ⟨.codeBlock, "%\x7b\x7d%\n".toList, 0⟩ := by
  constructor
  · exact (head?_ofText_append "f(\"\x7d\") /* \x7d */".toList [] "\"*/".toList).1 (by decide +kernel)
  · have block := (head?_ofText_append [] "\r\n".toList "\nx".toList).2 ⟨['\r', '\n'], by decide, by decide +kernel⟩
    exact block.2

end Template

end SwiftTemplate
