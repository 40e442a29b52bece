import SwiftTemplate.Proofs.Swift.Reading

/-!
# Splicing

When a text is put together from the tokens of others, its tokens are those it was put together
from, provided every seam is at a line break or at trivia that is whole.
-/
namespace SwiftTemplate.Swift

open Text (Breaks Alike isMark Passes walk)

namespace Token

/-- The text that some tokens make up. -/
def render (tokens : List Token) : List Char := tokens.flatMap source

@[simp] theorem render_nil : render [] = [] := rfl

@[simp] theorem render_cons (token : Token) (tokens : List Token) :
    render (token :: tokens) = token.source ++ render tokens := rfl

@[simp] theorem render_append (tokens others : List Token) :
    render (tokens ++ others) = render tokens ++ render others := List.flatMap_append

/-- Tokens that are those of the text they make up. -/
def Lexed (tokens : List Token) : Prop := ofText (render tokens) = tokens

theorem lexed_ofText (text : List Char) : Lexed (ofText text) := by
  rw [Lexed, render, flatMap_source_ofText]

theorem ofText_of_next {text rest : List Char} {token : Token} (h : next text = (token, rest))
    (hkind : token.kind ≠ .endOfText) : ofText text = token :: ofText rest := by
  rw [ofText]
  simp [h, hkind]

theorem ofText_ne_nil (text : List Char) : ofText text ≠ [] := by
  rw [ofText]
  split <;> simp

theorem Lexed.ne_nil {tokens : List Token} (h : Lexed tokens) : tokens ≠ [] := h ▸ ofText_ne_nil _

/-- The first of some tokens is the first of their text. -/
theorem Lexed.next_eq {token : Token} {tokens : List Token} (h : Lexed (token :: tokens)) :
    next (token.source ++ render tokens) = (token, render tokens) := by
  have split := source_next_append (token.source ++ render tokens)
  rw [Lexed, render_cons, ofText] at h
  split at h
  · next hkind =>
    obtain ⟨htoken, hrest⟩ := List.cons.inj h
    refine Prod.ext htoken ?_
    rw [rest_eq_nil hkind, ← hrest]
    rfl
  · obtain ⟨htoken, -⟩ := List.cons.inj h
    refine Prod.ext htoken ?_
    rw [htoken] at split
    exact List.append_cancel_left split

theorem Lexed.kind_ne {token : Token} {tokens : List Token} (h : Lexed (token :: tokens)) (htokens : tokens ≠ []) :
    token.kind ≠ .endOfText := by
  have hnext := h.next_eq
  rw [Lexed, render_cons, ofText, hnext] at h
  intro hkind
  simp only [hkind, dite_true, List.cons.injEq, true_and] at h
  exact htokens h.symm

theorem Lexed.tail {token : Token} {tokens : List Token} (h : Lexed (token :: tokens)) (htokens : tokens ≠ []) :
    Lexed tokens := by
  have := ofText_of_next h.next_eq (h.kind_ne htokens)
  rw [Lexed, render_cons, this] at h
  exact (List.cons.inj h).2

theorem Lexed.of_append {tokens others : List Token} (h : Lexed (tokens ++ others)) (hothers : others ≠ []) :
    Lexed others := by
  induction tokens with
  | nil => exact h
  | cons token tokens ih => exact ih (h.tail (List.append_ne_nil_of_right_ne_nil tokens hothers))

theorem Lexed.cons {token : Token} {tokens : List Token} (h : Lexed tokens) (hkind : token.kind ≠ .endOfText)
    (hnext : next (token.source ++ render tokens) = (token, render tokens)) : Lexed (token :: tokens) := by
  rw [Lexed, render_cons, ofText_of_next hnext hkind, h]

/-- Behind a token no trivia is left that would belong to it. -/
theorem Lexed.trailing_eq_zero {tokens others : List Token} (h : Lexed (tokens ++ others)) (htokens : tokens ≠ [])
    (hothers : others ≠ []) : Trivia.trailing (render others) = 0 := by
  obtain ⟨before, last, rfl⟩ : ∃ before last, tokens = before ++ [last] :=
    ⟨_, _, (List.dropLast_concat_getLast htokens).symm⟩
  rw [List.append_assoc] at h
  have own := h.of_append (by simp)
  obtain ⟨_, _, _, _, -, -, -, htrailing, -⟩ := (next_eq_iff (own.kind_ne hothers)).1 own.next_eq
  exact congrArg Prod.fst (Text.passes_of_walk (t := ()) (Prod.ext htrailing rfl)).2

/-! ## Exchanging what follows -/

theorem length_leading_le {token : Token} {rest : List Char} (h : next (token.source ++ rest) = (token, rest))
    (hkind : token.kind ≠ .endOfText) :
    (Trivia.leading (token.source ++ rest)).1 = token.leading.length ∧ token.text ≠ [] := by
  obtain ⟨c, w, left_open, -, htext, hleading, -⟩ := (next_eq_iff hkind).1 h
  refine ⟨?_, by simp [htext]⟩
  rw [show token.source ++ rest = token.leading ++ c :: (w ++ (token.trailing ++ rest)) by simp [source, htext],
    hleading]

theorem leading_pos_of_begins {s : List Char} (h : Comment.begins s = true) : 0 < (Trivia.leading s).1 := by
  cases s with
  | nil => cases h
  | cons c s =>
    cases hstep : Trivia.leadingStep false c s with
    | some kt =>
      rw [Trivia.leading, Text.walk_take hstep]
      dsimp only
      omega
    | none =>
      unfold Trivia.leadingStep at hstep
      rcases Bool.or_eq_true_iff.1 h with line | block
      · rw [if_pos line] at hstep
        split at hstep <;> cases hstep
      · rw [if_pos block] at hstep
        repeat' split at hstep
        all_goals cases hstep

/-- What resembles a text resembles it behind a token as well. -/
theorem resembles_source_append {token : Token} {u v : List Char} (h : next (token.source ++ u) = (token, u))
    (hkind : token.kind ≠ .endOfText) (like : Resembles u v) : Resembles (token.source ++ u) (token.source ++ v) := by
  obtain ⟨hleading, htext⟩ := length_leading_le h hkind
  have room : token.leading.length < token.source.length := by
    have := List.length_pos_iff.2 htext
    simp only [source, List.length_append]
    omega
  cases like with
  | @breaks q y z breaks =>
    rw [← List.append_assoc, ← List.append_assoc]
    refine .breaks breaks fun begins hone => ?_
    have := leading_pos_of_begins begins
    rw [List.append_assoc, hleading] at this
    rw [List.length_append] at hone
    omega
  | @mark q y z c mark =>
    rw [← List.append_assoc, ← List.append_assoc]
    refine .mark mark ?_
    rw [List.append_assoc, hleading, List.length_append]
    omega

theorem Lexed.resembles_append {tokens others : List Token} {v : List Char} (h : Lexed (tokens ++ others))
    (hothers : others ≠ []) (like : Resembles (render others) v) :
    Resembles (render (tokens ++ others)) (render tokens ++ v) := by
  induction tokens with
  | nil => exact like
  | cons token tokens ih =>
    have hne := List.append_ne_nil_of_right_ne_nil tokens hothers
    rw [List.cons_append, render_cons, render_cons, List.append_assoc]
    exact resembles_source_append h.next_eq (h.kind_ne hne) (ih (h.tail hne))

/-- Tokens stay what they are when the text behind them is exchanged for one that resembles it. -/
theorem Lexed.ofText_append {tokens others : List Token} {v : List Char} (h : Lexed (tokens ++ others))
    (hothers : others ≠ []) (ends : ∀ token ∈ tokens, token.Ends) (like : Resembles (render others) v) :
    ofText (render tokens ++ v) = tokens ++ ofText v := by
  induction tokens with
  | nil => rfl
  | cons token tokens ih =>
    obtain ⟨hends, ends⟩ := List.forall_mem_cons.1 ends
    have hne := List.append_ne_nil_of_right_ne_nil tokens hothers
    have hnext := next_append_resembles h.next_eq (h.kind_ne hne) hends
      ((h.tail hne).resembles_append hothers like)
    rw [render_cons, List.append_assoc, ofText_of_next hnext (h.kind_ne hne), ih (h.tail hne) ends]
    rfl

theorem Lexed.append_resembles {tokens others spliced : List Token} (h : Lexed (tokens ++ others))
    (hothers : others ≠ []) (ends : ∀ token ∈ tokens, token.Ends) (hspliced : Lexed spliced)
    (like : Resembles (render others) (render spliced)) : Lexed (tokens ++ spliced) := by
  rw [Lexed, render_append, h.ofText_append hothers ends like, hspliced]

end Token

namespace Trivia

/-! ## Whole trivia -/

/-- Trivia in which nothing is left open, so that a new line can begin behind it. -/
def Whole (trivia : List Char) : Prop := leading (trivia ++ ['\n']) = (trivia.length + 1, false)

instance (trivia : List Char) : Decidable (Whole trivia) := inferInstanceAs (Decidable (_ = _))

theorem whole_nil : Whole [] := by decide +kernel

private theorem extent_le_of_newline {w : List Char} (hclosed : (Comment.block (w ++ ['\n'])).closed = true) :
    (Comment.block (w ++ ['\n'])).extent ≤ w.length := by
  refine Nat.le_of_not_lt fun hlt => ?_
  have last := Comment.getLast?_take_extent hclosed
  rw [List.take_of_length_le (by simpa using Nat.succ_le_of_lt hlt), List.getLast?_concat] at last
  cases last

/-- Trivia that is whole in front of a line break passes there. -/
theorem passes_of_leading {w : List Char} {left_open : Bool}
    (h : walk leadingStep left_open (w ++ ['\n']) = (w.length + 1, false)) :
    Passes leadingStep ['\n'] left_open w false := by
  induction hlen : w.length using Nat.strongRecOn generalizing w left_open with
  | ind n ih =>
  subst hlen
  cases w with
  | nil =>
    have step : leadingStep left_open '\n' [] = some (0, left_open) := rfl
    rw [List.nil_append, Text.walk_take step] at h
    obtain rfl : left_open = false := by simpa using congrArg Prod.snd h
    exact .stay false
  | cons c w =>
    rw [List.cons_append] at h
    cases hstep : leadingStep left_open c (w ++ ['\n']) with
    | none => rw [Text.walk_halt hstep] at h; simp at h
    | some kt =>
      obtain ⟨k, after⟩ := kt
      rw [Text.walk_take hstep] at h
      simp only [List.length_cons, Prod.mk.injEq] at h
      obtain ⟨hlength, hfinal⟩ := h
      have inside : k ≤ w.length := by
        rcases leadingStep_cases hstep with ⟨-, rfl, -⟩ | ⟨-, rfl, -⟩ | ⟨-, -, rfl, rfl⟩
        · exact Nat.zero_le _
        · have := Text.run_le_length (fun d => !Comment.isBreak d) w
          refine Nat.le_trans (Nat.le_of_eq ?_) this
          rw [Comment.lineExtent, Text.run_append_eq (u := []) (fun _ => rfl) w (by simpa using this)]
          simp
        · cases hclosed : (Comment.block (w ++ ['\n'])).closed with
          | true => exact extent_le_of_newline hclosed
          | false =>
            -- A comment left open would be all there is, and would leave the trivia open.
            have whole := Comment.extent_of_not_closed (by simp) hclosed
            rw [whole, List.drop_length] at hfinal
            simp [hclosed] at hfinal
      rw [List.drop_append_of_le_length inside] at hlength hfinal
      exact .take hstep inside (ih (w.drop k).length (by simp only [List.length_drop, List.length_cons]; omega)
        (Prod.ext (by simp only [List.length_drop]; omega) hfinal) rfl)

/-- Before a token no trivia is left open. -/
theorem eq_of_passes_leading {u w : List Char} {left_open after : Bool}
    (passed : Passes leadingStep u left_open w after) (hu : u ≠ []) : after = left_open := by
  induction passed with
  | stay => rfl
  | @take left_open inner after c w k taken inside further ih =>
    rw [ih]
    rcases leadingStep_cases taken with ⟨-, -, rfl⟩ | ⟨-, -, rfl⟩ | ⟨-, -, rfl, rfl⟩
    · rfl
    · rfl
    · cases hclosed : (Comment.block (w ++ u)).closed with
      | true => simp
      | false =>
        have whole := Comment.extent_of_not_closed (List.append_ne_nil_of_right_ne_nil w hu) hclosed
        have := List.length_pos_iff.2 hu
        rw [whole, List.length_append] at inside
        omega

theorem Whole.leading_append {trivia : List Char} (h : Whole trivia) {s : List Char} (hs : Breaks s) :
    leading (trivia ++ s) = (trivia.length + (leading s).1, (leading s).2) :=
  (passes_leadingStep_congr (Comment.fronts_of_alike (.breaks hs)) (by simp) (passes_of_leading h)).walk_eq

/-- Whole trivia does not end in the middle of the first two characters of a comment. -/
theorem Whole.apart {trivia : List Char} (h : Whole trivia) (s : List Char) :
    Comment.begins (trivia ++ s) = true → trivia.length ≠ 1 := by
  intro begins hone
  obtain ⟨c, rfl⟩ := List.length_eq_one_iff.1 hone
  have slash : c = '/' := by
    rcases Bool.or_eq_true_iff.1 begins with line | block
    · exact Comment.slash_of_beginsLine line
    · exact Comment.slash_of_beginsBlock block
  subst slash
  revert h
  decide +kernel

theorem breaks_append_newline {trivia s : List Char} (h : Breaks (trivia ++ s)) : Breaks (trivia ++ ['\n']) := by
  cases trivia with
  | nil => exact Text.breaks_newline []
  | cons c trivia => exact h

theorem Whole.append {trivia more : List Char} (h : Whole trivia) (hmore : Whole more)
    (breaks : trivia = [] ∨ Breaks (more ++ ['\n'])) : Whole (trivia ++ more) := by
  rcases breaks with rfl | breaks
  · exact hmore
  · rw [Whole, List.append_assoc, h.leading_append breaks, hmore, List.length_append, Nat.add_assoc]

end Trivia

/-- What resembles a text resembles it behind whole trivia as well. -/
theorem Resembles.whole_append {trivia u v : List Char} (h : Resembles u v) (whole : Trivia.Whole trivia)
    (breaks : trivia = [] ∨ Breaks u) : Resembles (trivia ++ u) (trivia ++ v) := by
  rcases breaks with rfl | breaks
  · exact h
  cases h with
  | @breaks q y z hz apart =>
    rw [← List.append_assoc, ← List.append_assoc]
    refine .breaks hz fun begins hone => ?_
    cases trivia with
    | nil => exact apart begins hone
    | cons c trivia =>
      have room : (c :: trivia).length = 1 := by
        simp only [List.length_append, List.length_cons] at hone ⊢
        omega
      rw [List.append_assoc] at begins
      exact whole.apart (q ++ y) begins room
  | @mark q y z c hc ahead =>
    rw [← List.append_assoc, ← List.append_assoc]
    refine .mark hc ?_
    rw [List.append_assoc, whole.leading_append breaks, List.length_append]
    exact Nat.add_le_add_left ahead _

namespace Token

/-- Some tokens with more trivia before the first one. -/
def prepend (trivia : List Char) (tokens : List Token) : List Token :=
  tokens.modifyHead fun token => { token with leading := trivia ++ token.leading }

@[simp] theorem prepend_nil (tokens : List Token) : prepend [] tokens = tokens := by
  cases tokens <;> rfl

theorem prepend_prepend (trivia more : List Char) (tokens : List Token) :
    prepend trivia (prepend more tokens) = prepend (trivia ++ more) tokens := by
  cases tokens <;> simp [prepend]

theorem render_prepend (trivia : List Char) {tokens : List Token} (h : tokens ≠ []) :
    render (prepend trivia tokens) = trivia ++ render tokens := by
  obtain ⟨token, tokens, rfl⟩ := List.exists_cons_of_ne_nil h
  simp [prepend, source]

/-- Trivia that the trivia of a text goes on from belongs to its first token. -/
theorem ofText_append_of_leading {trivia text : List Char}
    (h : Trivia.leading (trivia ++ text) = (trivia.length + (Trivia.leading text).1, (Trivia.leading text).2)) :
    ofText (trivia ++ text) = prepend trivia (ofText text) := by
  have first : next (trivia ++ text)
      = ({ (next text).1 with leading := trivia ++ (next text).1.leading }, (next text).2) := by
    unfold next
    simp only [h, List.drop_length_add_append, List.take_length_add_append]
    cases text.drop (Trivia.leading text).1 <;> rfl
  rw [ofText.eq_def (trivia ++ text), ofText.eq_def text, first]
  dsimp only
  split <;> rfl

/-- Whole trivia belongs to the first token that follows on a new line. -/
theorem ofText_append_of_whole {trivia text : List Char} (h : Trivia.Whole trivia) (breaks : Breaks text) :
    ofText (trivia ++ text) = prepend trivia (ofText text) :=
  ofText_append_of_leading (h.leading_append breaks)

theorem Lexed.prepend {trivia : List Char} {tokens : List Token} (h : Lexed tokens) (whole : Trivia.Whole trivia)
    (breaks : trivia = [] ∨ Breaks (render tokens)) : Lexed (prepend trivia tokens) := by
  rcases breaks with rfl | breaks
  · rwa [prepend_nil]
  · rw [Lexed, render_prepend trivia h.ne_nil, ofText_append_of_whole whole breaks, h]

theorem prepend_ne_nil {trivia : List Char} {tokens : List Token} (h : tokens ≠ []) : prepend trivia tokens ≠ [] := by
  obtain ⟨token, tokens, rfl⟩ := List.exists_cons_of_ne_nil h
  simp [Token.prepend]

theorem prepend_injective (trivia : List Char) : Function.Injective (prepend trivia) := by
  intro tokens others h
  rcases tokens with _ | ⟨⟨_, _, _, _, _⟩, tokens⟩ <;> rcases others with _ | ⟨⟨_, _, _, _, _⟩, others⟩ <;>
    simp_all [Token.prepend]

theorem Lexed.of_prepend {trivia : List Char} {tokens : List Token} (h : Lexed (Token.prepend trivia tokens))
    (hne : tokens ≠ []) (whole : Trivia.Whole trivia) (breaks : trivia = [] ∨ Breaks (render tokens)) :
    Lexed tokens := by
  rcases breaks with rfl | breaks
  · rwa [prepend_nil] at h
  · rw [Lexed, render_prepend trivia hne, ofText_append_of_whole whole breaks] at h
    exact prepend_injective trivia h

/-- A token whose trivia is exchanged is still one if that trivia is read alone. -/
theorem next_withLeading {token : Token} {rest leading : List Char} (h : next (token.source ++ rest) = (token, rest))
    (hkind : token.kind ≠ .endOfText)
    (hleading : Trivia.leading (leading ++ (token.text ++ (token.trailing ++ rest))) = (leading.length, false)) :
    next ({ token with leading := leading }.source ++ rest) = ({ token with leading := leading }, rest) := by
  obtain ⟨c, w, left_open, unterminated, htext, hbefore, hread, htrailing, hunterminated⟩ := (next_eq_iff hkind).1 h
  have closed : left_open = false := Trivia.eq_of_passes_leading (Text.passes_of_walk hbefore).1 (by simp)
  refine (@next_eq_iff { token with leading := leading } rest hkind).2
    ⟨c, w, false, unterminated, htext, ?_, hread, htrailing, closed ▸ hunterminated⟩
  rw [htext] at hleading
  simpa using hleading

/-- Only string literals are left open in front of other tokens. -/
theorem Lexed.kind_of_unterminated {token : Token} {tokens : List Token} (h : Lexed (token :: tokens))
    (htokens : tokens ≠ []) (unterminated : token.unterminated = true) : token.kind = .string := by
  obtain ⟨c, w, left_open, own, -, hbefore, hread, -, hunterminated⟩ := (next_eq_iff (h.kind_ne htokens)).1 h.next_eq
  have closed : left_open = false := Trivia.eq_of_passes_leading (Text.passes_of_walk hbefore).1 (by simp)
  rw [hunterminated, closed, Bool.or_false] at unterminated
  subst unterminated
  have := @Lexeme.kind_of_unterminated c (w ++ (token.trailing ++ render tokens)) (by rw [hread])
  rwa [hread] at this

/-- Every token but a string literal left open at the end of the text ends with its line. -/
theorem Lexed.ends {tokens others : List Token} (h : Lexed (tokens ++ others)) (hothers : others ≠ [])
    (closed : render others = [] → ∀ token ∈ tokens, token.kind = .string → token.unterminated = false) :
    ∀ token ∈ tokens, token.Ends := by
  induction tokens with
  | nil => simp
  | cons token tokens ih =>
    have hne := List.append_ne_nil_of_right_ne_nil tokens hothers
    refine List.forall_mem_cons.2 ⟨ends_of_next h.next_eq (h.kind_ne hne) fun final => ?_, ih (h.tail hne) fun final =>
      fun token hmem => closed final token (List.mem_cons_of_mem _ hmem)⟩
    have none : render others = [] := (List.append_eq_nil_iff.1 ((render_append tokens others).symm.trans final)).2
    exact closed none token (List.mem_cons_self ..)

end Token

end SwiftTemplate.Swift
