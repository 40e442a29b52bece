import SwiftTemplate.Proofs.Repair.Drafts

/-!
# Taking directives out

A program in sound parts stays one when some of the parts are replaced, in particular when a directive
is taken out of it.
-/
namespace SwiftTemplate.Repair

open Swift
open Swift.Token (render Lexed)

/-- A token without the trivia before it. -/
def bared (token : Token) : Token := { token with leading := [] }

/-- A program in sound parts. -/
structure Holds (text : List Char) (parts : List Part) : Prop where
  tokens : Token.ofText text = tokensOf parts
  sound : Sound parts
  lexed : Lexed (baseOf parts)
  bare : Directive.Bare (plainsOf parts)
  nonempty : parts ≠ []

section
variable {text : List Char}

theorem Holds.source_tokens {parts : List Part} (h : Holds text parts) : (Source.ofText text).tokens = tokensOf parts :=
  h.tokens

/-- The directives of a program are those among its parts. -/
theorem Holds.directives_eq {parts : List Part} (h : Holds text parts) :
    (Source.ofText text).directives = placesFrom 0 parts := by
  rw [Source.directives, h.source_tokens, places_tokensOf h.sound h.bare]

theorem Holds.mem_directives {front behind : List Part} {part : Part} {form : Directive}
    (h : Holds text (front ++ part :: behind)) (hform : part.form? = some form) :
    ((tokensOf front).length, form) ∈ (Source.ofText text).directives := by
  rw [h.directives_eq, placesFrom_append, Nat.zero_add, placesFrom, hform]
  exact List.mem_append_right _ (List.mem_append_left _ (by simp))

end

/-- Tokens that are the same but for the trivia before them. -/
def SameTokens (parts others : List Part) : Prop := (plainsOf parts).map bared = (plainsOf others).map bared

theorem bared_plainsOf_pend (trivia : List Char) (parts : List Part) : SameTokens (pend trivia parts) parts := by
  cases parts with
  | nil => rfl
  | cons part parts => cases part <;> rfl

/-- Tokens of which the same is left by a map that keeps their kinds and texts make up the same directives. -/
theorem similar_of_map {f : Token → Token} (keeps : ∀ token other, f token = f other → Token.Similar token other)
    {tokens others : List Token} (h : tokens.map f = others.map f) : List.Forall₂ Token.Similar tokens others := by
  rw [← List.forall₂_eq_eq_eq, List.forall₂_map_left_iff, List.forall₂_map_right_iff] at h
  exact h.imp keeps

theorem similar_of_map_bared {tokens others : List Token} (h : tokens.map bared = others.map bared) :
    List.Forall₂ Token.Similar tokens others := by
  refine similar_of_map (fun token other same => ?_) h
  obtain ⟨hkind, -, htext, -, hunterminated⟩ := Token.mk.inj same
  exact ⟨hkind, hunterminated, fun _ => htext⟩

theorem bare_of_bared {tokens others : List Token} (h : tokens.map bared = others.map bared)
    (bare : Directive.Bare tokens) : Directive.Bare others := by
  have related := similar_of_map_bared h
  clear h
  induction related with
  | nil => trivial
  | cons hhead htail ih => exact ⟨(Directive.first?_congr (.cons hhead htail)).symm.trans bare.1, ih bare.2⟩

/-- Sound parts are the parts of the program that they make up. -/
theorem holds_of_sound {parts : List Part} (sound : Sound parts) (lexed : Lexed (baseOf parts))
    (bare : Directive.Bare (plainsOf parts)) (nonempty : parts ≠ []) : Holds (render (tokensOf parts)) parts :=
  ⟨lexed_tokensOf sound nonempty lexed, sound, lexed, bare, nonempty⟩

/-- Parts that replace others make up a program with the same tokens. -/
theorem Holds.replace {text : List Char} {front parts others : List Part} (h : Holds text (front ++ parts))
    (hparts : parts ≠ []) (hothers : others ≠ []) (replaces : Replaces parts others)
    (same : SameTokens others parts) :
    Holds (render (tokensOf (front ++ others))) (front ++ others) ∧ SameTokens (front ++ others) (front ++ parts) := by
  have whole := replaces.append hparts h.sound h.lexed
  have tokens : SameTokens (front ++ others) (front ++ parts) := by
    rw [SameTokens, plainsOf_append, plainsOf_append, List.map_append, List.map_append, same]
  exact ⟨holds_of_sound whole.sound whole.lexed (bare_of_bared tokens.symm h.bare)
    (List.append_ne_nil_of_right_ne_nil front hothers), tokens⟩

/-- A directive of a program, with the parts before and behind it. -/
structure At (text : List Char) (front : List Part) (part : Part) (behind : List Part) (form : Directive)
    (head : Token) (rest : List Token) : Prop where
  holds : Holds text (front ++ part :: behind)
  form : part.form? = some form
  tokens : part.tokens = head :: rest

namespace At
variable {text : List Char} {front behind : List Part} {part : Part} {form : Directive} {head : Token}
    {rest : List Token}
  (h : At text front part behind form head rest)
include h

theorem sound : Sound (part :: behind) := h.holds.sound.of_append

theorem lexed : Lexed (baseOf (part :: behind)) := lexed_baseOf_of_append h.holds.sound (by simp) h.holds.lexed

theorem loose : Loose form head rest behind := loose_of_sound h.sound h.lexed h.form h.tokens

theorem plainsOf_eq : plainsOf (part :: behind) = plainsOf behind := plainsOf_cons_of_form h.form

/-- The program without the directive. -/
theorem removed : Holds (render (tokensOf (front ++ pend (leftBehind head) behind)))
    (front ++ pend (leftBehind head) behind) ∧
      SameTokens (front ++ pend (leftBehind head) behind) (front ++ part :: behind) := by
  have replaces := replaces_pend h.sound h.lexed h.form h.tokens
  refine h.holds.replace (by simp) ?_ replaces ?_
  · intro hnil
    have := replaces.lexed.ne_nil
    rw [hnil] at this
    exact this rfl
  · have := bared_plainsOf_pend (leftBehind head) behind
    rwa [SameTokens, h.plainsOf_eq]

/-- What is left of the draft when the directive is cut out. -/
theorem detach_eq : (Draft.ofTokens (Source.ofText text).tokens).detach (tokensOf front).length form.size =
    (⟨remainder (leftBehind head) (piecesOf front) (piecesOf behind)⟩, headed form (cutOut head rest)) := by
  have lines := (lexed_tokensOf h.holds.sound h.holds.nonempty h.holds.lexed).newline_not_mem_trailing
  have pieces : Draft.piecesOf (Source.ofText text).tokens = piecesOf (front ++ part :: behind) := by
    rw [show (Source.ofText text).tokens = Token.ofText text from rfl, h.holds.tokens,
      piecesOf_tokensOf h.holds.sound h.holds.bare]
  rw [Draft.ofTokens, pieces]
  refine detach_parts h.form h.tokens (h.tokens ▸ (shape_of_sound h.sound h.form).2) fun token hmem => lines token ?_
  rw [tokensOf_append, tokensOf_cons, h.tokens]
  exact List.mem_append_right _ (List.mem_append_left _ hmem)

theorem render_remainder :
    renderPieces (remainder (leftBehind head) (piecesOf front) (piecesOf behind))
    = render (tokensOf (front ++ pend (leftBehind head) behind)) := by
  have hbehind := h.loose.nonempty
  have hne := tokensOf_ne_nil h.loose.sound hbehind
  rw [Repair.render_remainder (piecesOf_ne_nil h.loose.sound hbehind), renderPieces_piecesOf, renderPieces_piecesOf,
    tokensOf_append, Token.render_append, tokensOf_pend _ h.loose.sound, Token.render_prepend _ hne]

end At

/-- A directive of a program is one of its parts. -/
theorem Holds.exists_at {text : List Char} {parts : List Part} (h : Holds text parts) {index : Nat} {form : Directive}
    (hmem : (index, form) ∈ (Source.ofText text).directives) : ∃ front part behind head rest,
      parts = front ++ part :: behind ∧ index = (tokensOf front).length ∧ At text front part behind form head rest := by
  rw [h.directives_eq] at hmem
  obtain ⟨front, part, behind, rfl, hform, hindex⟩ := exists_of_mem_placesFrom hmem
  obtain ⟨head, rest, hcons, -⟩ := Directive.begins_of_first? (shape_of_sound h.sound.of_append hform).1
  exact ⟨front, part, behind, head, rest, rfl, by simpa using hindex, h, hform, hcons⟩

/-- What is left when a directive is taken out. -/
theorem Holds.exists_removed {text shorter : List Char} {parts : List Part} {line : Nat} (h : Holds text parts)
    (hremove : withoutDirective? text line = some shorter) : ∃ front part behind form head rest,
      parts = front ++ part :: behind ∧ At text front part behind form head rest ∧
      Holds shorter (front ++ pend (leftBehind head) behind) := by
  obtain ⟨⟨index, form⟩, hfind, rfl⟩ := Option.map_eq_some_iff.1 hremove
  obtain ⟨front, part, behind, head, rest, rfl, rfl, hat⟩ := h.exists_at (List.mem_of_find?_eq_some hfind)
  refine ⟨front, part, behind, form, head, rest, rfl, hat, ?_⟩
  rw [hat.detach_eq]
  have removed := hat.removed.1
  rw [← hat.render_remainder] at removed
  exact removed

/-- Taking a directive out leaves the tokens of a program as they are. -/
theorem Holds.withoutDirective {text shorter : List Char} {parts : List Part} {line : Nat} (h : Holds text parts)
    (hremove : withoutDirective? text line = some shorter) :
    ∃ parts', Holds shorter parts' ∧ SameTokens parts' parts := by
  obtain ⟨front, part, behind, form, head, rest, rfl, hat, removed⟩ := h.exists_removed hremove
  exact ⟨_, removed, hat.removed.2⟩

end SwiftTemplate.Repair
