import SwiftTemplate.Proofs.Swift.Alone
import SwiftTemplate.Proofs.Swift.LineEnds
import SwiftTemplate.Proofs.Swift.Passage

/-!
# Carriage returns

What is read in front of a line break is read in front of `\r` and a line break as well. The one
exception is an identifier in back quotes that its line leaves open: it takes the `\r` along.
-/
namespace SwiftTemplate.Text

/-- A line ends at the front of a text: nothing follows, or a line break does, with or without `\r`. -/
def LineEnds (s : List Char) : Prop := Breaks s ∨ ['\r', '\n'] <+: s

theorem LineEnds.cases {s : List Char} (h : LineEnds s) : Breaks s ∨ ∃ rest, s = '\r' :: '\n' :: rest :=
  h.imp_right fun ⟨rest, hrest⟩ => ⟨rest, hrest.symm⟩

end SwiftTemplate.Text

namespace SwiftTemplate.Swift

open Text (Breaks LineEnds Passes crlf walk run)

/-- Behind a line break the texts may differ. -/
theorem Resembles.newline (q y z : List Char) : Resembles (q ++ '\n' :: y) (q ++ '\n' :: z) := by
  refine .breaks (Text.breaks_newline z) fun begins hone => ?_
  obtain ⟨c, rfl⟩ := List.length_eq_one_iff.1 hone
  simp [Comment.begins, Comment.beginsLine, Comment.beginsBlock] at begins

theorem Comment.fronts_of_lineEnds {s : List Char} (h : LineEnds s) : Comment.Fronts ['\n'] s := by
  rcases h.cases with breaks | ⟨rest, rfl⟩
  · exact Comment.fronts_of_alike (.breaks breaks)
  · exact ⟨by simp, by simp, fun _ => rfl⟩

namespace Literal

/-- A line end stops a literal with `\r` where it does without. -/
theorem stops_return (s : List Char) : Stops (s ++ ['\n']) (s ++ ['\r', '\n']) := by
  refine ⟨Fronts.append ⟨Comment.fronts_of_lineEnds (.inr List.prefix_rfl), fun pattern own hv => ?_⟩ s,
    fun modes _ halts => ?_⟩
  · cases pattern with
    | nil => rfl
    | cons c pattern =>
      obtain rfl : c = '\r' := by simpa using (Bool.and_eq_true_iff.1 ((List.isPrefixOf_cons_cons ..).symm.trans hv)).1
      cases own
  · cases s with
    | nil =>
      refine Text.walk_halt (step_eq_none_iff.2 ?_)
      exact (step_eq_none_iff.1 (Text.step_eq_none_of_walk halts)).imp_right
        fun ⟨hashes, outer, hmodes, _⟩ => ⟨hashes, outer, hmodes, rfl⟩
    | cons c s => exact Text.walk_halt (step_eq_none_iff.2 (step_eq_none_iff.1 (Text.step_eq_none_of_walk halts)))

end Literal

namespace Lexeme
variable {c : Char} {w s : List Char}

/-- An identifier between back quotes does not depend on what follows. -/
theorem quotedExtent_of_closed {u : List Char} (h : quotedExtent (w ++ u) = w.length)
    (closed : w.getLast? = some '\x60') (v : List Char) : quotedExtent (w ++ v) = w.length := by
  obtain ⟨name, rfl⟩ := List.getLast?_eq_some_iff.1 closed
  rw [List.append_assoc, List.singleton_append, List.length_append, List.length_singleton] at h
  have plain : name.all isQuotable = true := by
    refine Text.all_of_run (s := '\x60' :: u) ?_
    have short := Text.run_append_cons_le (p := isQuotable) (c := '\x60') (by decide) name u
    have extent : quotedExtent (name ++ '\x60' :: u) ≤ run isQuotable (name ++ '\x60' :: u) + 1 := by
      show (if _ then run isQuotable _ + 1 else run isQuotable _) ≤ _
      split
      · exact Nat.le_refl _
      · exact Nat.le_succ _
    omega
  rw [List.append_assoc, List.singleton_append, quotedExtent_append plain rfl]
  simp

theorem readLong_append_return (hle : (readLong c (w ++ (s ++ ['\n']))).extent = w.length)
    (closed : s = [] → c = '\x60' → w.getLast? = some '\x60') :
    readLong c (w ++ (s ++ ['\r', '\n'])) = readLong c (w ++ (s ++ ['\n'])) := by
  by_cases literal : opensLiteral c (w ++ (s ++ ['\n'])) = true
  · have stops := Literal.stops_return s
    rw [opensLiteral, Bool.or_eq_true, decide_eq_true_eq, Bool.and_eq_true, decide_eq_true_eq] at literal
    rcases literal with rfl | ⟨rfl, quoted⟩
    · simp only [readLong, if_true] at hle ⊢
      rw [Literal.measure_append_eq stops hle fun _ => by simp]
    · exact pound_append_of_quotes stops quoted hle fun _ => by simp
  rw [Bool.not_eq_true] at literal
  by_cases hs : '\n' ∈ s
  · obtain ⟨front, behind, rfl⟩ := List.append_of_mem hs
    have like := Resembles.newline front (behind ++ ['\n']) (behind ++ ['\r', '\n'])
    simp only [List.append_assoc, List.cons_append] at hle ⊢
    exact readLong_append_alike like.alike like.begins hle fun _ => by simp
  have plain := newline_not_mem_take_readLong literal
  rw [hle, List.take_left] at plain
  by_cases tick : c = '\x60'
  · subst tick
    have extent : quotedExtent (w ++ (s ++ ['\n'])) = w.length := hle
    have last : w.getLast? = some '\x60' := by
      refine (getLast?_of_quotedExtent extent).elim id fun breaks => ?_
      cases s with
      | nil => exact closed rfl rfl
      | cons d s => exact absurd (List.mem_cons.2 (.inl (breaks d rfl).symm)) hs
    show (⟨.identifier, _, false⟩ : Lexeme) = ⟨.identifier, _, false⟩
    rw [quotedExtent_of_closed extent last, extent]
  · have longer : crlf (w ++ (s ++ ['\n'])) = w ++ (s ++ ['\r', '\n']) := by
      simp [Text.crlf_of_not_mem plain, Text.crlf_of_not_mem hs]
    rw [← longer, readLong_crlf literal tick]

/-- A token in front of a line break is read in front of `\r` and a line break. -/
theorem read_append_return (hle : (read c (w ++ (s ++ ['\n']))).extent = w.length)
    (closed : s = [] → c = '\x60' → w.getLast? = some '\x60') :
    read c (w ++ (s ++ ['\r', '\n'])) = read c (w ++ (s ++ ['\n'])) := by
  unfold read at hle ⊢
  split
  · rfl
  · next none =>
    rw [none] at hle
    exact readLong_append_return hle closed

end Lexeme

namespace Trivia

theorem trailing_of_lineEnds {s : List Char} (h : LineEnds s) : trailing s = 0 := by
  rcases h.cases with breaks | ⟨rest, rfl⟩
  · exact trailing_of_breaks breaks
  · rw [trailing, Text.walk_halt rfl]

/-- Where no trivia stands behind a token in front of a line break, none stands there in front of a `\r`. -/
theorem trailing_return {s : List Char} (h : trailing (s ++ ['\n']) = 0) : trailing (s ++ ['\r', '\n']) = 0 := by
  by_cases hs : '\n' ∈ s
  · obtain ⟨front, behind, rfl⟩ := List.append_of_mem hs
    have like := Resembles.newline front (behind ++ ['\n']) (behind ++ ['\r', '\n'])
    simp only [List.append_assoc, List.cons_append] at h ⊢
    exact trailing_eq_zero_of_resembles like h
  · have longer : crlf (s ++ ['\n']) = s ++ ['\r', '\n'] := by simp [Text.crlf_of_not_mem hs]
    have behind := @follows_drop_trailing (s ++ ['\n']) _ (.inl rfl)
    rw [h, longer, List.drop_zero] at behind
    rcases behind with whole | ⟨rest, hrest, -⟩
    · have length := congrArg List.length whole
      rw [longer, List.length_drop, List.length_append, List.length_cons] at length
      omega
    · cases s with
      | nil => exact trailing_of_lineEnds (.inr List.prefix_rfl)
      | cons c s => exact absurd (List.mem_cons.2 (.inl (List.cons.inj hrest).1.symm)) hs

theorem Whole.leading_append_lineEnds {trivia s : List Char} (h : Whole trivia) (hs : LineEnds s) :
    leading (trivia ++ s) = (trivia.length + (leading s).1, (leading s).2) :=
  (passes_leadingStep_congr (Comment.fronts_of_lineEnds hs) (by simp) (passes_of_leading h)).walk_eq

end Trivia

namespace Token

/-- Whether a token is an identifier in back quotes that its line leaves open. -/
def isOpenQuoted (token : Token) : Bool :=
  token.text.head? = some '\x60' && token.text.tail.getLast? ≠ some '\x60'

/-- A token in front of a line break is the token in front of `\r` and a line break. -/
theorem next_append_return {token : Token} {s : List Char}
    (h : next (token.source ++ (s ++ ['\n'])) = (token, s ++ ['\n'])) (hkind : token.kind ≠ .endOfText)
    (closed : s = [] → token.isOpenQuoted = false) :
    next (token.source ++ (s ++ ['\r', '\n'])) = (token, s ++ ['\r', '\n']) := by
  refine next_congr h hkind (Literal.stops_return s).fronts.toFronts (fun c w htext extent => ?_) Trivia.trailing_return
  rw [← List.append_assoc token.trailing] at extent ⊢
  rw [← List.append_assoc token.trailing]
  refine Lexeme.read_append_return extent fun hnil tick => ?_
  have own := closed (List.append_eq_nil_iff.1 hnil).2
  simpa [isOpenQuoted, htext, tick] using own

/-- Tokens stay what they are in front of `\r` and a line break, where a line breaks. -/
theorem Lexed.ofText_append_return {tokens others : List Token} {kept : List Char} (h : Lexed (tokens ++ others))
    (hothers : others ≠ []) (ends : ∀ token ∈ tokens, token.Ends)
    (like : Resembles (render others) (kept ++ ['\n']))
    (closed : kept = [] → ∀ last ∈ tokens.getLast?, last.isOpenQuoted = false) (rest : List Char) :
    ofText (render tokens ++ (kept ++ '\r' :: '\n' :: rest)) = tokens ++ ofText (kept ++ '\r' :: '\n' :: rest) := by
  induction tokens with
  | nil => rfl
  | cons token tokens ih =>
    obtain ⟨own, ends⟩ := List.forall_mem_cons.1 ends
    have hne := List.append_ne_nil_of_right_ne_nil tokens hothers
    have hkind := h.kind_ne hne
    have later := h.tail hne
    have broken := next_append_resembles h.next_eq hkind own (later.resembles_append hothers like)
    rw [← List.append_assoc (render tokens)] at broken
    have returned := next_append_return broken hkind fun hnil => ?_
    · have hnext := next_append_resembles returned hkind own
        (v := render tokens ++ kept ++ '\r' :: '\n' :: rest) (by
          simpa using Resembles.newline (render tokens ++ kept ++ ['\r']) [] rest)
      rw [render_cons, List.append_assoc, ← List.append_assoc (render tokens), ofText_of_next hnext hkind,
        List.append_assoc, ih later ends fun hkept last hlast => ?_]
      · rfl
      · refine closed hkept last ?_
        cases tokens with
        | nil => cases hlast
        | cons other tokens => rwa [List.getLast?_cons_cons]
    · obtain ⟨hnone, hkept⟩ := List.append_eq_nil_iff.1 hnil
      refine closed hkept token ?_
      cases tokens with
      | nil => rfl
      | cons other tokens =>
        have := (length_leading_le later.next_eq (later.kind_ne (List.append_ne_nil_of_right_ne_nil tokens hothers))).2
        simp [source, this] at hnone

/-- Whole trivia belongs to the first token, if a line ends in front of it. -/
theorem Lexed.prepend_lineEnds {trivia : List Char} {tokens : List Token} (h : Lexed tokens)
    (whole : Trivia.Whole trivia) (ends : LineEnds (render tokens)) : Lexed (Token.prepend trivia tokens) := by
  rw [Lexed, render_prepend trivia h.ne_nil, ofText_append_of_leading (whole.leading_append_lineEnds ends), h]

/-- Whether a line ends behind the token before: with the text, or with a line break, which may have a `\r`
in front. -/
def FollowsLineEnd (token : Token) : Prop := token.FollowsBreak ∨ ['\r', '\n'] <+: token.leading

instance (token : Token) : Decidable token.FollowsLineEnd := inferInstanceAs (Decidable (_ ∨ _))

end Token

namespace Directive

/-- Whether no identifier that its line leaves open comes to stand in front of what follows the directive at some
place, when the directive is cut out. -/
def LeavesNoneOpen (tokens : List Token) (index : Nat) : Prop :=
  ∀ head ∈ tokens[index]?, (Text.cutAtLastNewline head.leading).1 = [] →
    ∀ last ∈ (tokens.take index).getLast?, last.isOpenQuoted = false

/-- Whether the line of the directive at some place ends behind it with `\r` and a line break, and no identifier
takes that `\r` along. -/
def EndsReturned (tokens : List Token) (index : Nat) (form : Directive) : Prop :=
  (∀ next ∈ tokens[index + form.size]?, ['\r', '\n'] <+: next.leading) ∧ LeavesNoneOpen tokens index

/-- A directive at some place among tokens that is alone on its line, with nothing but spaces and tabs beside
it, or with these and the `\r` of the line end. -/
structure OnOwnLine (tokens : List Token) (index : Nat) (form : Directive) : Prop where
  begins : ∀ head ∈ tokens[index]?, index = 0 ∨ head.startsLine = true
  before : ∀ head ∈ tokens[index]?, (Trivia.lastLine head.leading).all Text.isSpaceOrTab = true
  behind : ∀ close ∈ tokens[index + form.size - 1]?, close.trailing.all Text.isSpaceOrTab = true
  ends : EndsLine tokens index form ∨ EndsReturned tokens index form

section
variable (tokens : List Token) (index : Nat) (form : Directive)

instance : Decidable (LeavesNoneOpen tokens index) := inferInstanceAs (Decidable (∀ head ∈ _, _))

instance : Decidable (EndsReturned tokens index form) := inferInstanceAs (Decidable (_ ∧ _))

instance : Decidable (OnOwnLine tokens index form) :=
  decidable_of_iff (_ ∧ _ ∧ _ ∧ _)
    ⟨fun ⟨begins, before, behind, ends⟩ => ⟨begins, before, behind, ends⟩,
      fun h => ⟨h.begins, h.before, h.behind, h.ends⟩⟩

end

/-- A directive with nothing but spaces and tabs beside it is alone on its line. -/
theorem Alone.onOwnLine {tokens : List Token} {index : Nat} {form : Directive} (h : Alone tokens index form) :
    OnOwnLine tokens index form :=
  ⟨h.begins, h.before, h.behind, .inl h.ends⟩

end Directive

end SwiftTemplate.Swift
