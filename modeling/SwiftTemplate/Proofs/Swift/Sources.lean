import SwiftTemplate.Swift.Source
import SwiftTemplate.Proofs.Swift.Outside
import SwiftTemplate.Proofs.Swift.Splicing
import SwiftTemplate.Proofs.Swift.Transparency
import SwiftTemplate.Proofs.Text.Lines

/-!
# Sources

The line of a token is told by the text before it. The diagnostics of a program are told by the
kinds and texts of its tokens, by where lines begin and by where operators touch their operands.
-/
namespace SwiftTemplate.Swift

/-! ## Lines -/

theorem getElem?_spans (first : Nat) (front : List Token) (token : Token) (behind : List Token) :
    ((Token.spans first (front ++ token :: behind)).map (·.start))[front.length]?
      = some (first + Text.byteSize (Token.render front ++ token.leading)) := by
  induction front generalizing first with
  | nil => simp [Token.spans, Token.spanFrom]
  | cons other front ih =>
    rw [List.cons_append, Token.spans, List.map_cons, List.length_cons, List.getElem?_cons_succ, ih]
    simp [Token.spanFrom, Token.source, Nat.add_assoc]

/-- A token begins behind the texts of those before it and the trivia in front of it. -/
theorem Source.getD_starts {text : List Char} {front behind : List Token} {token : Token}
    (h : Token.ofText text = front ++ token :: behind) :
    (Source.ofText text).starts.getD front.length 0 = Text.byteSize (Token.render front ++ token.leading) := by
  have := getElem?_spans 0 front token behind
  rw [Array.getD_eq_getD_getElem?, Source.ofText, h]
  simp only [List.getElem?_toArray, this, Nat.zero_add, Option.getD_some]

theorem Source.text_eq {text : List Char} {front behind : List Token} {token : Token}
    (h : Token.ofText text = front ++ token :: behind) :
    text = (Token.render front ++ token.leading) ++ (token.text ++ (token.trailing ++ Token.render behind)) := by
  have := Token.flatMap_source_ofText text
  rw [h] at this
  rw [← this]
  simp [Token.render, Token.source]

/-- The line of a token is one more than the line breaks in front of it. -/
theorem Source.lineOf_eq {text : List Char} {front behind : List Token} {token : Token}
    (h : Token.ofText text = front ++ token :: behind) :
    (Source.ofText text).lineOf front.length = 1 + Text.newlines (Token.render front ++ token.leading) := by
  rw [Source.lineOf, Source.getD_starts h]
  conv_lhs => rw [Source.ofText, Source.text_eq h]
  exact Text.lineOf_byteSize _ _

private theorem exists_between {α : Type} {l : List α} {index other : Nat} (h : index < other) (inside : other < l.length) :
    ∃ front a gap b behind, l = front ++ a :: (gap ++ b :: behind) ∧ front.length = index ∧
      (front ++ a :: gap).length = other ∧ l[other]? = some b := by
  have first : l = l.take index ++ l[index] :: l.drop (index + 1) := by
    rw [← List.drop_eq_getElem_cons, List.take_append_drop]
  have rest : l.drop (index + 1) = (l.drop (index + 1)).take (other - (index + 1)) ++ l[other] :: l.drop (other + 1) := by
    conv_lhs => rw [← List.take_append_drop (other - (index + 1)) (l.drop (index + 1)), List.drop_drop,
      Nat.add_sub_cancel' h, List.drop_eq_getElem_cons inside]
  refine ⟨l.take index, l[index], (l.drop (index + 1)).take (other - (index + 1)), l[other], l.drop (other + 1),
    ?_, ?_, ?_, List.getElem?_eq_getElem inside⟩
  · rw [← rest]
    exact first
  · rw [List.length_take]
    omega
  · simp only [List.length_append, List.length_cons, List.length_take, List.length_drop]
    omega

/-- A token is on the line of one before it, or below. -/
theorem Source.lineOf_add {text : List Char} {front gap behind : List Token} {token other : Token}
    (h : Token.ofText text = front ++ token :: (gap ++ other :: behind)) :
    (Source.ofText text).lineOf (front ++ token :: gap).length = (Source.ofText text).lineOf front.length
      + Text.newlines (token.text ++ token.trailing ++ Token.render gap ++ other.leading) := by
  rw [Source.lineOf_eq h, @Source.lineOf_eq text (front ++ token :: gap) behind other (by simpa using h)]
  simp only [Token.render_append, Token.render_cons, Token.source, Text.newlines, List.count_append]
  omega

theorem Source.lineOf_le {text : List Char} {index other : Nat} (h : index ≤ other)
    (inside : other < (Token.ofText text).length) :
    (Source.ofText text).lineOf index ≤ (Source.ofText text).lineOf other := by
  rcases Nat.eq_or_lt_of_le h with rfl | before
  · exact Nat.le_refl _
  · obtain ⟨front, token, gap, other, behind, split, rfl, rfl, -⟩ := exists_between before inside
    rw [Source.lineOf_add split]
    exact Nat.le_add_right _ _

/-- A token that begins a line is below those before it. -/
theorem Source.lineOf_lt {text : List Char} {index other : Nat} (h : index < other) {token : Token}
    (htoken : (Token.ofText text)[other]? = some token) (line : token.startsLine = true) :
    (Source.ofText text).lineOf index < (Source.ofText text).lineOf other := by
  have inside := (List.getElem?_eq_some_iff.1 htoken).1
  obtain ⟨front, first, gap, next, behind, split, rfl, rfl, hnext⟩ := exists_between h inside
  obtain rfl := Option.some.inj (hnext.symm.trans htoken)
  have broken : '\n' ∈ first.text ++ first.trailing ++ Token.render gap ++ next.leading :=
    List.mem_append_right _ (List.contains_iff_mem.1 line)
  have := List.count_pos_iff.2 broken
  rw [Source.lineOf_add split]
  exact Nat.lt_add_of_pos_right this

/-! ## Diagnostics -/

/-- Tokens that the diagnostics do not tell apart. -/
structure Token.Same (token other : Token) : Prop extends token.Similar other where
  line : token.kind ≠ .endOfText → token.startsLine = other.startsLine
  front : token.kind = .operator → token.leading.isEmpty = other.leading.isEmpty
  back : token.kind = .operator → token.trailing.isEmpty = other.trailing.isEmpty

theorem Token.Same.refl (token : Token) : token.Same token := ⟨.refl token, fun _ => rfl, fun _ => rfl, fun _ => rfl⟩

theorem Token.Same.trans {token other third : Token} (h : token.Same other) (h' : other.Same third) :
    token.Same third where
  kind := h.kind.trans h'.kind
  unterminated := h.unterminated.trans h'.unterminated
  text hkind := (h.text hkind).trans (h'.text (h.kind ▸ hkind))
  line hkind := (h.line hkind).trans (h'.line (h.kind ▸ hkind))
  front hkind := (h.front hkind).trans (h'.front (h.kind ▸ hkind))
  back hkind := (h.back hkind).trans (h'.back (h.kind ▸ hkind))

/-- Programs whose tokens the diagnostics do not tell apart. -/
abbrev SameShape (tokens others : List Token) : Prop := List.Forall₂ Token.Same tokens others

theorem SameShape.refl (tokens : List Token) : SameShape tokens tokens :=
  List.forall₂_same.2 fun token _ => .refl token

theorem SameShape.trans {tokens others third : List Token} (h : SameShape tokens others)
    (h' : SameShape others third) :
    SameShape tokens third := by
  induction h generalizing third with
  | nil => exact h'
  | cons hhead htail ih =>
    obtain ⟨_, _, hhead', htail', rfl⟩ := List.forall₂_cons_left_iff.1 h'
    exact .cons (hhead.trans hhead') (ih htail')

theorem SameShape.append {tokens others more more' : List Token} (h : SameShape tokens others)
    (h' : SameShape more more') :
    SameShape (tokens ++ more) (others ++ more') := List.rel_append h h'

namespace Diagnostic

theorem needsMore_congr {token other : Token} (h : token.Same other) (header : Option Keyword) :
    needsMore header token = needsMore header other := by
  by_cases operator : token.kind = .operator
  · have text := h.text (by rw [operator]; decide)
    simp only [needsMore, ← h.kind, operator, followsOperand, text, h.front operator]
  · unfold needsMore
    rw [← h.kind]
    split
    all_goals first
      | rfl
      | exact absurd ‹_› operator

theorem cannotBegin_congr {token other : Token} (h : token.Same other) : cannotBegin token = cannotBegin other := by
  by_cases operator : token.kind = .operator
  · have text := h.text (by rw [operator]; decide)
    simp only [cannotBegin, ← h.kind, operator, precedesOperand, text, h.back operator]
  · unfold cannotBegin
    rw [← h.kind]
    split
    all_goals first
      | rfl
      | exact absurd ‹_› operator

theorem isKind_congr {previous other : Option Token} (h : Option.Rel Token.Similar previous other) (kind : Kind) :
    isKind kind previous = isKind kind other := by
  cases h with
  | none => rfl
  | some h => simp [isKind, h.kind]

theorem rel_similar {previous other : Option Token} (h : Option.Rel Token.Same previous other) :
    Option.Rel Token.Similar previous other := by
  cases h with
  | none => exact .none
  | some h => exact .some h.toSimilar

theorem any_congr {previous other : Option Token} (h : Option.Rel Token.Same previous other) {p : Token → Bool}
    (hp : ∀ {token other : Token}, token.Same other → p token = p other) : previous.any p = other.any p := by
  cases h with
  | none => rfl
  | some h => exact hp h

theorem rel_getElem? {tokens others : List Token} (h : SameShape tokens others) (index : Nat) :
    Option.Rel Token.Same tokens[index]? others[index]? := by
  induction h generalizing index with
  | nil => exact .none
  | cons hhead htail ih =>
    cases index with
    | zero => exact .some hhead
    | succ index => exact ih index

theorem rel_head? {tokens others : List Token} (h : SameShape tokens others) :
    Option.Rel Token.Same tokens.head? others.head? := by
  cases h with
  | nil => exact .none
  | cons hhead htail => exact .some hhead

theorem ofDirective_congr {state : State} {index : Nat} {form : Directive}
    {previous previous' behind behind' : Option Token} {head head' : Token}
    (hprevious : Option.Rel Token.Same previous previous')
    (hbehind : Option.Rel Token.Same behind behind')
    (hline : previous.isSome = true → head.startsLine = head'.startsLine) :
    ofDirective state index form previous head behind = ofDirective state index form previous' head' behind' := by
  have line : (previous.isSome && !head.startsLine) = (previous'.isSome && !head'.startsLine) := by
    cases hprevious with
    | none => rfl
    | some => rw [hline rfl]; rfl
  have ends : (behind.any fun token => token.kind ≠ .endOfText && !token.startsLine)
      = behind'.any fun token => token.kind ≠ .endOfText && !token.startsLine := by
    refine any_congr hbehind fun {token other} h => ?_
    by_cases hkind : token.kind = .endOfText
    · simp [← h.kind, hkind]
    · rw [h.line hkind, h.kind]
  unfold ofDirective misplacements
  simp only [line, ends, any_congr hprevious fun h => needsMore_congr h state.nesting.header,
    any_congr hbehind fun h => cannotBegin_congr h]

theorem ofToken_congr {state : State} {index : Nat} {previous previous' : Option Token} {token other : Token}
    (hprevious : Option.Rel Token.Similar previous previous') (h : token.Similar other) :
    ofToken state index previous token = ofToken state index previous' other := by
  unfold ofToken beginHeader
  simp only [h.kind, isKind_congr hprevious, Directive.begins_congr h]

/-- Tokens of no directive are told apart by their kinds and texts alone. -/
theorem ofTokensFrom_congr_of_begins {tokens others : List Token} (h : List.Forall₂ Token.Similar tokens others)
    (plain : ∀ token ∈ tokens, Directive.begins token = false) (state : State) (index : Nat)
    {previous previous' : Option Token}
    (hprevious : Option.Rel Token.Similar previous previous') :
    ofTokensFrom state index previous tokens = ofTokensFrom state index previous' others := by
  induction h generalizing state index previous previous' with
  | nil => rw [ofTokensFrom, ofTokensFrom]
  | @cons token other tokens others hhead htail ih =>
    obtain ⟨own, plain⟩ := List.forall_mem_cons.1 plain
    rw [ofTokensFrom_plain (Directive.first?_eq_none own),
      ofTokensFrom_plain (Directive.first?_eq_none ((Directive.begins_congr hhead).symm.trans own)),
      ← ofToken_congr hprevious hhead, ih plain _ _ (.some hhead), hhead.unterminated]

/-- Nothing is left open in tokens that nothing is wrong with. -/
theorem unterminated_eq_false {tokens : List Token} (plain : ∀ token ∈ tokens, Directive.begins token = false)
    {state : State}
    {index : Nat} {previous : Option Token} (clean : ofTokensFrom state index previous tokens = []) :
    ∀ token ∈ tokens, token.unterminated = false := by
  induction tokens generalizing state index previous with
  | nil => simp
  | cons token tokens ih =>
    obtain ⟨own, plain⟩ := List.forall_mem_cons.1 plain
    rw [ofTokensFrom_plain (Directive.first?_eq_none own)] at clean
    obtain ⟨front, rest⟩ := List.append_eq_nil_iff.1 clean
    refine List.forall_mem_cons.2 ⟨?_, ih plain rest⟩
    cases unterminated : token.unterminated with
    | false => rfl
    | true => simp [unterminated, singleIf] at front

theorem ofTokensFrom_congr {tokens others : List Token} (h : SameShape tokens others) (state : State)
    (index : Nat) {previous previous' : Option Token} (hprevious : Option.Rel Token.Same previous previous') :
    ofTokensFrom state index previous tokens = ofTokensFrom state index previous' others := by
  fun_induction ofTokensFrom state index previous tokens generalizing others previous' with
  | case1 => cases h; rw [ofTokensFrom]
  | case2 state index previous token tokens broken form hform behind =>
    rename_i ih
    obtain ⟨other, others, hhead, htail, rfl⟩ := List.forall₂_cons_left_iff.1 h
    have hform' := (Directive.first?_congr (h.imp fun _ _ h => h.toSimilar)).symm.trans hform
    have hdrop : SameShape behind (others.drop (form.size - 1)) := List.forall₂_drop _ htail
    have hkind : token.kind ≠ .endOfText := by
      obtain ⟨_, _, hcons, hbegins⟩ := Directive.begins_of_first? hform
      obtain ⟨rfl, -⟩ := List.cons.inj hcons
      rw [Directive.kind_of_begins hbegins]
      decide
    rw [ofTokensFrom.eq_def _ _ _ (other :: others)]
    simp only [hform']
    rw [ih hdrop (rel_getElem? h _), ofDirective_congr hprevious
      (rel_head? hdrop) (fun _ => hhead.line hkind)]
    rw [← hhead.unterminated]
  | case3 state index previous token tokens broken hform found state' hstep =>
    rename_i ih
    obtain ⟨other, others, hhead, htail, rfl⟩ := List.forall₂_cons_left_iff.1 h
    have hform' := (Directive.first?_congr (h.imp fun _ _ h => h.toSimilar)).symm.trans hform
    rw [ofTokensFrom.eq_def _ _ _ (other :: others)]
    simp only [hform', ← ofToken_congr (rel_similar hprevious) hhead.toSimilar, hstep]
    rw [ih htail (.some hhead)]
    rw [← hhead.unterminated]

end Diagnostic

end SwiftTemplate.Swift
