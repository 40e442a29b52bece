import SwiftTemplate.Proofs.Repair.FixedPoint
import SwiftTemplate.Proofs.Repair.Removal
import SwiftTemplate.Proofs.Swift.Sources

/-!
# The first place of a program

A directive at the start of a program that is at fault is at fault as well where it is put back
there. The trivia that it left behind then follows it, but no diagnostic takes notice.
-/
namespace SwiftTemplate.Repair

open Swift
open Swift.Token (render Lexed prepend)

/-! ## Lines of directives -/

theorem beginLine_tokensOf {parts : List Part} (h : Sound parts) (line : BeginLine (baseOf parts)) :
    BeginLine (tokensOf parts) := by
  cases parts with
  | nil => exact line
  | cons part parts =>
    cases part with
    | plain token => exact line
    | fixed form tokens =>
      obtain ⟨head, rest, rfl⟩ := List.exists_cons_of_ne_nil (standalone_ne_nil h.1.standalone)
      exact line
    | moved form kept tokens =>
      obtain ⟨head, indent, hhead, hleading, -⟩ := h.1.fresh
      obtain ⟨rest, rfl⟩ := List.head?_eq_some_iff.1 hhead
      exact ⟨_, rfl, .inr (by simp [hleading])⟩

/-- Two elements of a list are the same one, or one of them comes before the other. -/
theorem split_cases {α : Type} {front front' behind behind' : List α} {a b : α}
    (h : front ++ a :: behind = front' ++ b :: behind') :
    (front = front' ∧ a = b ∧ behind = behind') ∨
      (∃ gap, front' = front ++ a :: gap ∧ behind = gap ++ b :: behind') ∨
      ∃ gap, front = front' ++ b :: gap ∧ behind' = gap ++ a :: behind := by
  rcases List.append_eq_append_iff.1 h with ⟨gap, rfl, hgap⟩ | ⟨gap, rfl, hgap⟩
  · cases gap with
    | nil =>
      obtain ⟨rfl, rfl⟩ := List.cons.inj hgap
      exact .inl ⟨by simp, rfl, rfl⟩
    | cons c gap =>
      obtain ⟨rfl, rfl⟩ := List.cons.inj hgap
      exact .inr (.inl ⟨gap, rfl, rfl⟩)
  · cases gap with
    | nil =>
      obtain ⟨rfl, rfl⟩ := List.cons.inj hgap
      exact .inl ⟨by simp, rfl, rfl⟩
    | cons c gap =>
      obtain ⟨rfl, rfl⟩ := List.cons.inj hgap
      exact .inr (.inr ⟨gap, rfl, rfl⟩)

section
variable {text : List Char} {front gap behind : List Part} {part part' : Part} {form form' : Directive}

/-- The line of a directive among the parts of a program. -/
theorem Holds.lineOf_eq {head : Token} {rest : List Token} (h : Holds text (front ++ part :: behind))
    (htokens : part.tokens = head :: rest) :
    (Source.ofText text).lineOf (tokensOf front).length
      = 1 + Text.newlines (render (tokensOf front) ++ head.leading) := by
  refine @Source.lineOf_eq text (tokensOf front) (rest ++ tokensOf behind) head ?_
  rw [h.tokens, tokensOf_append, tokensOf_cons, htokens]
  rfl

/-- A directive stands below those before it. -/
theorem Holds.lineOf_lt (h : Holds text (front ++ part :: (gap ++ part' :: behind))) (hform : part.form? = some form)
    (hform' : part'.form? = some form') :
    (Source.ofText text).lineOf (tokensOf front).length
      < (Source.ofText text).lineOf (tokensOf (front ++ part :: gap)).length := by
  have sound := h.sound.of_append
  obtain ⟨head, rest, hcons, -⟩ := Directive.begins_of_first? (shape_of_sound sound hform).1
  have hat : At text front part (gap ++ part' :: behind) form head rest := ⟨h, hform, hcons⟩
  obtain ⟨hshape, hsize⟩ := shape_of_sound hat.loose.sound.of_append hform'
  obtain ⟨head', rest', hcons', -⟩ := Directive.begins_of_first? hshape
  have behindTokens : tokensOf (gap ++ part' :: behind) = tokensOf gap ++ head' :: (rest' ++ tokensOf behind) := by
    rw [tokensOf_append, tokensOf_cons, hcons']
    rfl
  have nonempty : rest' ≠ [] := by
    rintro rfl
    rw [hcons'] at hsize
    cases form' <;> cases hsize
  -- The first token behind the first directive begins a line, and stands no later than the other one.
  have later : '\n' ∈ render (tokensOf gap) ++ head'.leading := by
    obtain ⟨token, htoken, hstart⟩ := beginLine_tokensOf hat.loose.sound hat.loose.line
    have lexed := lexed_tokensOf hat.loose.sound hat.loose.nonempty hat.loose.lexed
    rw [behindTokens] at htoken lexed
    cases hgap : tokensOf gap with
    | nil =>
      rw [hgap] at htoken lexed
      obtain rfl := Option.some.inj htoken
      simpa using hstart.resolve_left (lexed.kind_ne (by simp [nonempty]))
    | cons first others =>
      rw [hgap] at htoken lexed
      obtain rfl := Option.some.inj htoken
      have := hstart.resolve_left (lexed.kind_ne (by simp))
      simp [Token.source, this]
  have own := h.lineOf_eq hcons
  have other := @Holds.lineOf_eq text (front ++ part :: gap) behind part' head' rest' (by simpa using h) hcons'
  rw [own, other, tokensOf_append, tokensOf_cons, hcons]
  have := List.count_pos_iff.2 later
  simp only [Token.render_append, Token.render_cons, Token.source, Text.newlines, List.count_append] at this ⊢
  omega

/-- No two directives begin on one line. -/
theorem Holds.eq_of_lineOf_eq {parts : List Part} (h : Holds text parts) {place place' : Nat × Directive}
    (hplace : place ∈ (Source.ofText text).directives) (hplace' : place' ∈ (Source.ofText text).directives)
    (hline : (Source.ofText text).lineOf place.1 = (Source.ofText text).lineOf place'.1) : place = place' := by
  obtain ⟨index, form⟩ := place
  obtain ⟨index', form'⟩ := place'
  obtain ⟨front, part, behind, _, _, rfl, rfl, hat⟩ := h.exists_at hplace
  obtain ⟨front', part', behind', _, _, hparts, rfl, hat'⟩ := h.exists_at hplace'
  rcases split_cases hparts with ⟨rfl, rfl, rfl⟩ | ⟨gap, rfl, rfl⟩ | ⟨gap, rfl, rfl⟩
  · rw [Option.some.inj (hat.form.symm.trans hat'.form)]
  · exact absurd hline (Nat.ne_of_lt (h.lineOf_lt hat.form hat'.form))
  · rw [hparts] at h
    exact absurd hline (Nat.ne_of_gt (h.lineOf_lt hat'.form hat.form))

/-- The directive on the line of a problem is the one at fault. -/
theorem Holds.exists_blame? {parts : List Part} (h : Holds text parts) {problem : Problem}
    (hproblem : problem ∈ problems text) {index : Nat}
    (hfind : directiveOn? (Source.ofText text) problem.line = some (index, form)) :
    ∃ diagnostic, (Source.ofText text).blame? index form = some diagnostic := by
  obtain ⟨place, hplace, hblamed⟩ := List.mem_filterMap.1 hproblem
  obtain ⟨diagnostic, hblame, rfl⟩ := Option.map_eq_some_iff.1 hblamed
  have same := h.eq_of_lineOf_eq (List.mem_of_find?_eq_some hfind) hplace (by simpa using List.find?_some hfind)
  obtain ⟨rfl, rfl⟩ := Prod.mk.inj same
  exact ⟨diagnostic, hblame⟩

end

/-! ## The tokens of the program with the directive put back -/

theorem standalone_announce {form : Directive} {tokens : List Token} (h : form.Standalone tokens) (line : Nat) :
    form.Standalone (announce line tokens) := by
  unfold announce
  split
  · next located =>
    obtain rfl : form = .located := by
      rw [h.size] at located
      cases form with
      | reset => cases located
      | located => rfl
    exact h.renumber _
  · exact h

theorem exists_announce (line : Nat) (head : Token) (rest : List Token) :
    ∃ rest', announce line (head :: rest) = head :: rest' := by
  unfold announce
  split
  · exact ⟨_, by rw [Directive.renumber, Directive.lineToken, List.modify_succ_cons]⟩
  · exact ⟨rest, rfl⟩

/-- The line that a directive announces makes no difference to the diagnostics. -/
theorem sameShape_announce {form : Directive} {tokens : List Token} (h : form.Standalone tokens) (line : Nat) :
    SameShape (announce line tokens) tokens := by
  unfold announce
  split
  · next located =>
    obtain ⟨head, paren, arguments, rfl, -, -, ⟨rfl, -⟩ | ⟨rfl, hlocates⟩⟩ := Directive.first?_cases h.shape
    · rw [h.size] at located
      cases located
    · obtain ⟨_, _, _, _, _, _, number, _, others, rfl, -, -, -, -, -, -, -, hnumber, -⟩ :=
        Directive.locates_cases hlocates
      have same : Token.Same { number with text := Text.Decimal.write (line + 1) } number :=
        ⟨⟨rfl, rfl, fun hkind => absurd hnumber hkind⟩, fun _ => rfl, fun _ => rfl, fun _ => rfl⟩
      simp only [Directive.renumber, Directive.lineToken, List.modify_succ_cons, List.modify_zero_cons]
      exact .append (.refl [head, paren, _, _, _, _, _, _]) (.cons same (SameShape.refl _))
  · exact .refl tokens

/-- The line break in front of a directive tells where it begins a line. -/
theorem sameShape_ownLeading {form : Directive} {head : Token} {rest : List Token}
    (h : form.Standalone (cutOut head rest)) : SameShape (cutOut head rest) (head :: rest) := by
  obtain ⟨_, _, hcons, hbegins⟩ := Directive.begins_of_first? h.shape
  obtain ⟨rfl, rfl⟩ := List.cons.inj hcons
  have hkind : head.kind = .pound := Directive.kind_of_begins hbegins
  refine .cons ⟨⟨rfl, rfl, fun _ => rfl⟩, fun _ => ?_, ?_, fun _ => rfl⟩ (SameShape.refl rest)
  · show List.contains (Text.cutAtLastNewline head.leading).2 '\n' = head.leading.contains '\n'
    rcases Text.cutAtLastNewline_cases head.leading with ⟨hnone, hcut⟩ | ⟨before, indent, hleading, -, hcut⟩
    · simp [hcut, hnone]
    · rw [hcut, hleading]
      simp
  · intro operator
    rw [show head.kind = .operator from operator] at hkind
    cases hkind

/-- Trivia that moves from the front of a line to the end of the line before makes no difference. -/
theorem sameShape_of_prepend {taken kept : List Char} {tokens others : List Token} (line : BeginLine tokens)
    (h : prepend taken others = prepend kept tokens) (htaken : '\n' ∉ taken) : SameShape others tokens := by
  obtain ⟨token, htoken, hstart⟩ := line
  obtain ⟨tokens, rfl⟩ := List.head?_eq_some_iff.1 htoken
  cases others with
  | nil => cases h
  | cons other others =>
    obtain ⟨hhead, rfl⟩ := List.cons.inj h
    obtain ⟨hkind, hleading, htext, htrailing, hunterminated⟩ := Token.mk.inj hhead
    have starts (hne : other.kind ≠ .endOfText) : '\n' ∈ token.leading ∧ '\n' ∈ other.leading := by
      have own := hstart.resolve_left (hkind ▸ hne)
      have : '\n' ∈ taken ++ other.leading := hleading ▸ List.mem_append_right kept own
      exact ⟨own, (List.mem_append.1 this).resolve_left htaken⟩
    refine .cons ⟨⟨hkind, hunterminated, fun _ => htext⟩, fun hne => ?_, fun operator => ?_,
      fun _ => by rw [htrailing]⟩
      (SameShape.refl others)
    · simp [Token.startsLine, starts hne]
    · obtain ⟨own, behind⟩ := starts (by rw [operator]; decide)
      rw [List.isEmpty_eq_false_iff.2 (List.ne_nil_of_mem own),
        List.isEmpty_eq_false_iff.2 (List.ne_nil_of_mem behind)]

namespace At
variable {text : List Char} {behind : List Part} {part : Part} {form : Directive} {head : Token} {rest : List Token}
  (h : At text [] part behind form head rest)
include h

private theorem ofText_eq : Token.ofText text = head :: (rest ++ tokensOf behind) := by
  rw [h.holds.tokens, List.nil_append, tokensOf_cons, h.tokens]
  rfl

/-- The program with its first directive put back looks to the diagnostics like the program. -/
theorem exists_putBack (line : Nat) : ∃ others,
    Token.ofText (render (announce line (cutOut head rest)) ++ render (tokensOf (pend (leftBehind head) behind)))
      = cutOut head others ∧ SameShape (cutOut head others) (Token.ofText text) := by
  have own := standalone_cutOut h.loose.unit
  have announced := standalone_announce own line
  obtain ⟨front, close, taken, left, hunit, htext, hlength, hleft, hwhole⟩ :=
    announced.exists_ofText_append (render (tokensOf (pend (leftBehind head) behind)))
  have left_same : SameShape (Token.ofText left) (tokensOf behind) := by
    refine sameShape_of_prepend (beginLine_tokensOf h.loose.sound h.loose.line)
      (hleft.symm.trans (h.removed.1.tokens.trans (tokensOf_pend _ h.loose.sound))) ?_
    obtain ⟨w, u, hsplit, hlen, passed⟩ := Trivia.passes_trailing
      (render (tokensOf (pend (leftBehind head) behind)))
    obtain ⟨rfl, -⟩ := List.append_inj (htext.symm.trans hsplit) (hlength.trans hlen.symm)
    exact Trivia.newline_not_mem_of_passes passed
  have close_kind : close.kind = .closer .paren := by
    obtain ⟨other, hother, hparen⟩ := Directive.exists_close announced.shape
    rw [← announced.size, ← List.getLast?_eq_getElem?, hunit, List.getLast?_concat] at hother
    rwa [Option.some.inj hother]
  have close_same : Token.Same { close with trailing := close.trailing ++ taken } close :=
    ⟨⟨rfl, rfl, fun _ => rfl⟩, fun _ => rfl, fun _ => rfl, fun operator => by
      rw [show close.kind = .operator from operator] at close_kind
      cases close_kind⟩
  have unit_same : SameShape (front ++ [{ close with trailing := close.trailing ++ taken }]) (head :: rest) :=
    ((SameShape.refl front).append (.cons close_same .nil)).trans
      ((hunit ▸ sameShape_announce own line).trans (sameShape_ownLeading own))
  have whole := unit_same.append left_same
  rw [List.append_assoc, List.singleton_append, ← hwhole] at whole
  obtain ⟨rest', hrest'⟩ := exists_announce line { head with leading := (Text.cutAtLastNewline head.leading).2 } rest
  cases front with
  | nil =>
    have := announced.size
    rw [hunit] at this
    cases form <;> cases this
  | cons first front =>
    obtain rfl := (List.cons.inj (hunit.symm.trans hrest')).1
    refine ⟨_, hwhole, ?_⟩
    rw [hwhole] at whole
    rw [h.ofText_eq]
    exact whole

/-- A directive at the start of a program that is at fault is at fault where it is put back. -/
theorem isFlagged_placed {problem : Problem} (hproblem : problem ∈ problems text)
    (hfind : directiveOn? (Source.ofText text) problem.line = some (0, form)) :
    isFlagged
      (placed ⟨piecesOf (pend (leftBehind head) behind)⟩ (headed form (cutOut head rest)) 0).1
      (placed ⟨piecesOf (pend (leftBehind head) behind)⟩ (headed form (cutOut head rest)) 0).2 = true := by
  obtain ⟨line, hline, hplaced⟩ :=
    placed_append [] (piecesOf (pend (leftBehind head) behind)) form (cutOut head rest)
  obtain ⟨others, htokens, same⟩ := h.exists_putBack line
  rw [List.length_nil] at hplaced hline
  rw [List.nil_append] at hplaced
  rw [show unitAt 0 (cutOut head rest) = cutOut head rest from rfl] at hplaced hline
  rw [hplaced, renderPieces_piecesOf, renderPieces, List.flatMap_nil, List.nil_append]
  generalize render (announce line (cutOut head rest))
    ++ render (tokensOf (pend (leftBehind head) behind)) = trial at htokens
  obtain ⟨diagnostic, hblame⟩ := h.holds.exists_blame? hproblem hfind
  have hform : Directive.first? (Token.ofText trial) = some form := by
    rw [htokens, Directive.first?_congr (same.imp fun _ _ h => h.toSimilar), h.ofText_eq, ← List.cons_append,
      ← h.tokens]
    exact Directive.first?_append (shape_of_sound h.sound h.form).1 _
  have place : (0, form) ∈ (Source.ofText trial).directives := by
    rw [htokens] at hform
    rw [Source.directives, show (Source.ofText trial).tokens = Token.ofText trial from rfl, htokens]
    rw [cutOut] at hform ⊢
    rw [Directive.places, hform]
    exact List.mem_cons_self
  have diagnostics : (Source.ofText trial).diagnostics = (Source.ofText text).diagnostics := by
    refine .trans ?_ (Diagnostic.ofTokensFrom_congr same _ 0 .none)
    rw [← htokens]
    rfl
  have blamed : (Source.ofText trial).blame? 0 form = some diagnostic := by
    rw [Source.blame?, diagnostics]
    exact hblame
  have own : (Source.ofText trial).lineOf 0 = line := by
    have := @Source.lineOf_eq trial [] others _ htokens
    rw [List.length_nil] at this
    rw [this, hline]
    simp [Draft.lineOf, cutOut, headed, Piece.ofToken]
  refine List.any_eq_true.2 ⟨⟨(Source.ofText trial).lineOf 0, (Source.ofText trial).lineOf diagnostic.first⟩,
    List.mem_filterMap.2 ⟨(0, form), place, ?_⟩, by simpa using own⟩
  rw [problem?, blamed]
  rfl

end At

end SwiftTemplate.Repair
