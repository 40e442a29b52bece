import SwiftTemplate.Proofs.Swift.Interpolations
import SwiftTemplate.Proofs.Swift.Standalone

/-!
# Tokens inside interpolations

The scanner of string literals reads the code of an interpolation by characters, and the lexer reads
it by tokens. Both go the same way through trivia, through literals and through the tokens in which
nothing looks like a parenthesis, a quote or a comment.
-/
namespace SwiftTemplate.Swift

open Text (Breaks Passes run walk)

/-! ## Plain text -/

/-- Whether a text holds a parenthesis, a quote or the beginning of a comment. -/
def holdsSign : List Char → Bool
  | [] => false
  | c :: rest => c = '(' || c = ')' || c = '"' || Comment.begins (c :: rest) || holdsSign rest

/-- A text before `behind` in which the scanner of an interpolation finds nothing to act on. -/
def Plain (behind : List Char) : List Char → Prop
  | [] => True
  | c :: rest => (c ≠ '(' ∧ c ≠ ')' ∧ c ≠ '"') ∧ (c = '#' → Lexeme.quotes (rest ++ behind) = false) ∧
      Comment.begins (c :: (rest ++ behind)) = false ∧ Plain behind rest

/-- The characters that the scanner of an interpolation may act on. -/
def signs : List Char := ['(', ')', '"', '#', '/']

section
variable {behind text : List Char}

theorem begins_eq_false {c : Char} (h : c ≠ '/') (rest : List Char) : Comment.begins (c :: rest) = false := by
  simp [Comment.begins, Comment.beginsLine, Comment.beginsBlock, h]

theorem plain_cons {c : Char} (h : c ∉ signs) (others : Plain behind text) : Plain behind (c :: text) := by
  have other {d : Char} (hd : d ∈ signs) : c ≠ d := by
    rintro rfl
    exact h hd
  refine ⟨⟨other (by decide), other (by decide), other (by decide)⟩, fun hash => ?_, ?_, others⟩
  · exact absurd hash (other (by decide))
  · exact begins_eq_false (other (by decide)) _

/-- Characters of a class without signs are plain before everything. -/
theorem plain_of_all {p : Char → Bool} (hp : signs.any p = false) (h : text.all p = true) (behind : List Char) :
    Plain behind text := by
  induction text with
  | nil => trivial
  | cons c text ih =>
    rw [List.all_cons, Bool.and_eq_true] at h
    refine plain_cons (fun hmem => ?_) (ih h.2)
    exact List.any_eq_false.1 hp c hmem h.1

theorem plain_append {more : List Char} (h : Plain (more ++ behind) text) (others : Plain behind more) :
    Plain behind (text ++ more) := by
  induction text with
  | nil => exact others
  | cons c text ih =>
    rw [List.cons_append]
    obtain ⟨other, hash, begins, further⟩ := h
    rw [← List.append_assoc] at hash begins
    exact ⟨other, hash, begins, ih further⟩

theorem quotes_append_eq_false (h : '"' ∉ text) (hashes : text.all (· = '#') = true → Lexeme.quotes behind = false) :
    Lexeme.quotes (text ++ behind) = false := by
  induction text with
  | nil => exact hashes rfl
  | cons c text ih =>
    rw [List.cons_append, Lexeme.quotes_cons]
    by_cases hash : c = '#'
    · rw [if_pos hash]
      refine ih (fun hmem => h (List.mem_cons_of_mem _ hmem)) fun all => hashes ?_
      simp [hash, all]
    · rw [if_neg hash]
      refine decide_eq_false fun quote => h ?_
      simp [quote]

theorem quote_not_mem_of_holdsSign (h : holdsSign text = false) : '"' ∉ text := by
  induction text with
  | nil => simp
  | cons c text ih =>
    simp only [holdsSign, Bool.or_eq_false_iff, decide_eq_false_iff_not] at h
    simp [ih h.2, Ne.symm h.1.1.2]

/-- A text that holds no sign is plain unless one arises at its end. -/
theorem plain_of_holdsSign (h : holdsSign text = false)
    (slash : text.getLast? = some '/' → Comment.begins ('/' :: behind) = false)
    (hash : text.getLast? = some '#' → Lexeme.quotes behind = false) : Plain behind text := by
  induction text with
  | nil => trivial
  | cons c text ih =>
    simp only [holdsSign, Bool.or_eq_false_iff, decide_eq_false_iff_not] at h
    obtain ⟨⟨⟨⟨opens, shuts⟩, quote⟩, begins⟩, others⟩ := h
    have further {d : Char} (last : text.getLast? = some d) : (c :: text).getLast? = some d := by
      rw [List.getLast?_cons, last]
      rfl
    refine ⟨⟨opens, shuts, quote⟩, fun hashSign => ?_, ?_, ih others (fun last => slash (further last)) fun last =>
      hash (further last)⟩
    · refine quotes_append_eq_false (quote_not_mem_of_holdsSign others) fun all => hash ?_
      have every : ∀ d ∈ c :: text, d = '#' := by simpa [hashSign] using all
      have last := List.getLast?_eq_some_getLast (List.cons_ne_nil c text)
      rw [last, every _ (List.getLast_mem _)]
    · cases text with
      | nil =>
        by_cases sign : c = '/'
        · subst sign
          exact slash rfl
        · exact begins_eq_false sign _
      | cons d text => exact begins

end

/-! ## Plain tokens -/

namespace Number

theorem plain_run {p : Char → Bool} (hp : signs.any p = false) (s behind : List Char) :
    Plain behind (s.take (run p s)) :=
  plain_of_all hp (Text.all_take_run p s) behind

theorem plain_fraction (s behind : List Char) : Plain behind (s.take (fraction s)) := by
  cases s with
  | nil => trivial
  | cons c s =>
    rw [fraction]
    split
    · next point =>
      have sign : c = '.' := of_decide_eq_true (Bool.and_eq_true_iff.1 point).1
      rw [Nat.add_comm, List.take_succ_cons, sign]
      exact plain_cons (by decide) (plain_run (by decide) s behind)
    · trivial

theorem plain_exponent (s behind : List Char) : Plain behind (s.take (exponent s)) := by
  cases s with
  | nil => trivial
  | cons c s =>
    rw [exponent_cons]
    split
    · next letter =>
      split
      · have mark : c ∉ signs := by
          rcases Bool.or_eq_true_iff.1 letter with hc | hc
          · rw [of_decide_eq_true hc]
            decide
          · rw [of_decide_eq_true hc]
            decide
        have sign : Plain (((s.drop (signAhead s).toNat).take (run isDigitOrGap (s.drop (signAhead s).toNat))) ++ behind)
            (s.take (signAhead s).toNat) := by
          cases ahead : signAhead s with
          | false => trivial
          | true =>
            cases s with
            | nil => trivial
            | cons d s =>
              have hd : d ∉ signs := by
                rcases Bool.or_eq_true_iff.1 ahead with hd | hd
                · rw [Option.some.inj (of_decide_eq_true hd)]
                  decide
                · rw [Option.some.inj (of_decide_eq_true hd)]
                  decide
              exact plain_cons hd trivial
        rw [Nat.add_assoc, Nat.add_comm, List.take_succ_cons, List.take_add]
        exact plain_cons mark (plain_append sign (plain_run (by decide) _ behind))
      · trivial
    · trivial

/-- What a number consists of is plain. -/
theorem plain_measure (c : Char) (rest behind : List Char) : Plain behind (rest.take (measure c rest).2) := by
  unfold measure
  split
  · next radix =>
    simp only [beginsRadix, Bool.and_eq_true, Bool.or_eq_true, decide_eq_true_eq] at radix
    cases rest with
    | nil => trivial
    | cons letter rest =>
      have mark : letter ∉ signs := by
        rcases radix.2 with (hx | hx) | hx
        · rw [Option.some.inj hx]
          decide
        · rw [Option.some.inj hx]
          decide
        · rw [Option.some.inj hx]
          decide
      dsimp only
      rw [Nat.add_comm, List.take_succ_cons, List.drop_succ_cons, List.drop_zero]
      exact plain_cons mark (plain_run (by decide) rest behind)
  · dsimp only
    rw [List.take_add, List.take_add, List.take_add]
    refine plain_append (plain_append (plain_append ?_ ?_) ?_) ?_
    · exact plain_run (by decide) rest _
    · exact plain_fraction _ _
    · exact plain_exponent _ _
    · exact plain_run (by decide +kernel) _ behind

end Number

namespace Lexeme

variable {c : Char} {w r : List Char}

theorem plain_of_operatorExtent (h : operatorExtent (w ++ r) = w.length) : Plain r w := by
  induction w with
  | nil => trivial
  | cons c w ih =>
    rw [List.cons_append, operatorExtent, List.length_cons] at h
    split at h
    · omega
    · next goes =>
      rw [Bool.or_eq_true, Bool.or_eq_true, not_or, not_or] at goes
      have operator : isOperatorChar c = true := by simpa using goes.1.1
      have other {d : Char} (hd : isOperatorChar d = false) : c ≠ d := by
        rintro rfl
        rw [hd] at operator
        cases operator
      refine ⟨⟨other (by decide), other (by decide), other (by decide)⟩, fun hash => ?_, ?_, ih (by omega)⟩
      · exact absurd hash (other (by decide))
      · rw [Comment.begins, Bool.or_eq_false_iff]
        exact ⟨by simpa using goes.1.2, by simpa using goes.2⟩

/-- An identifier in back quotes ends with one, or with its line. -/
theorem getLast?_of_quotedExtent (h : quotedExtent (w ++ r) = w.length) : w.getLast? = some '\x60' ∨ Breaks r := by
  unfold quotedExtent at h
  dsimp only at h
  have stops := Text.any_head?_drop_run (fun c => decide (c ≠ '\x60') && decide (c ≠ '\n')) (w ++ r)
  generalize run (fun c => decide (c ≠ '\x60') && decide (c ≠ '\n')) (w ++ r) = name at h stops
  by_cases closes : ((w ++ r).drop name).head? = some '\x60'
  · left
    rw [if_pos closes] at h
    rw [List.drop_append_of_le_length (by omega)] at closes
    have single : (w.drop name).length = 1 := by
      rw [List.length_drop]
      omega
    obtain ⟨d, hd⟩ := List.length_eq_one_iff.1 single
    rw [hd] at closes
    rw [← List.take_append_drop name w, hd, Option.some.inj closes]
    simp
  · right
    rw [if_neg closes] at h
    subst h
    rw [List.drop_left] at closes stops
    intro d hd
    rw [hd] at closes stops
    simpa [show d ≠ '\x60' by simpa using closes] using stops

end Lexeme

/-- Whether a token hides a sign from the lexer that the scanner of an interpolation would see: an
identifier in back quotes and an operator that begins with two points may hold any. -/
def hidesSign (text : List Char) : Bool :=
  (text.head? = some '\x60' || ['.', '.'].isPrefixOf text) && holdsSign text

namespace Lexeme

variable {c : Char} {w r : List Char}

theorem plain_quoted (extent : quotedExtent (w ++ r) = w.length) (clear : hidesSign ('\x60' :: w) = false) :
    Plain r ('\x60' :: w) := by
  have none : holdsSign ('\x60' :: w) = false := by simpa [hidesSign] using clear
  have last {d : Char} (hd : d ≠ '\x60') (h : ('\x60' :: w).getLast? = some d) : Breaks r := by
    refine (getLast?_of_quotedExtent extent).resolve_left fun closes => hd ?_
    rw [List.getLast?_cons, closes] at h
    exact (Option.some.inj h).symm
  refine plain_of_holdsSign none (fun slash => ?_) fun hash => ?_
  · rcases (last (by decide) slash).cases with rfl | ⟨rest, rfl⟩
    · rfl
    · rfl
  · rcases (last (by decide) hash).cases with rfl | ⟨rest, rfl⟩
    · rfl
    · rfl

theorem plain_points (points : (w ++ r).head? = some '.')
    (extent : run (fun d => d = '.' || isOperatorChar d) (w ++ r) = w.length) (clear : hidesSign ('.' :: w) = false) :
    Plain r ('.' :: w) := by
  have stops := Text.any_head?_drop_run (fun d => decide (d = '.') || isOperatorChar d) (w ++ r)
  have inside := Text.all_of_run extent
  rw [extent, List.drop_left] at stops
  have none : holdsSign ('.' :: w) = false := by
    cases w with
    | nil =>
      obtain ⟨rest, rfl⟩ := List.head?_eq_some_iff.1 points
      simp at stops
    | cons d w =>
      obtain rfl : d = '.' := Option.some.inj points
      simpa [hidesSign] using clear
  refine plain_of_holdsSign none (fun slash => ?_) fun hash => ?_
  · cases r with
    | nil => rfl
    | cons d r =>
      have other {e : Char} (he : isOperatorChar e = true) : d ≠ e := by
        rintro rfl
        simp [he] at stops
      simp [Comment.begins, Comment.beginsLine, Comment.beginsBlock, other (e := '/') (by decide),
        other (e := '*') (by decide)]
  · have every : ∀ d ∈ '.' :: w, (decide (d = '.') || isOperatorChar d) = true :=
      List.forall_mem_cons.2 ⟨rfl, List.all_eq_true.1 inside⟩
    exact absurd (every '#' (List.mem_of_getLast? hash)) (by decide)

theorem plain_pound {kind : Kind} {unterminated : Bool} (hread : pound (w ++ r) = ⟨kind, w.length, unterminated⟩)
    (string : kind ≠ .string) : Plain r ('#' :: w) := by
  cases quoted : quotes (w ++ r) with
  | true =>
    obtain ⟨behind, hbehind⟩ := List.head?_eq_some_iff.1 (of_decide_eq_true quoted)
    rw [pound_of_drop_eq hbehind, Lexeme.mk.injEq] at hread
    exact absurd hread.1.symm string
  | false =>
    rw [pound_of_not_quotes quoted] at hread
    refine ⟨by decide, fun _ => quoted, begins_eq_false (by decide) _, ?_⟩
    split at hread
    · exact plain_of_all (by decide +kernel) (Text.all_of_run (Lexeme.mk.inj hread).2.1) r
    · obtain rfl : w = [] := List.length_eq_zero_iff.1 (Lexeme.mk.inj hread).2.1.symm
      trivial

/-- Every token but a literal and a parenthesis is plain, if it hides no sign. -/
theorem plain_of_read {kind : Kind} {unterminated : Bool} (hread : read c (w ++ r) = ⟨kind, w.length, unterminated⟩)
    (first : Comment.begins (c :: (w ++ r)) = false) (string : kind ≠ .string) (opens : kind ≠ .opener .paren)
    (shuts : kind ≠ .closer .paren) (clear : hidesSign (c :: w) = false) : Plain r (c :: w) := by
  unfold read at hread
  cases hlookup : punctuation.lookup c with
  | some mark =>
    have listed : ∀ entry ∈ punctuation, entry.2 ≠ .opener .paren → entry.2 ≠ .closer .paren → entry.1 ∉ signs := by
      decide
    obtain ⟨before, behind, split, -⟩ := List.lookup_eq_some_iff.1 hlookup
    simp only [hlookup, Lexeme.mk.injEq] at hread
    obtain ⟨rfl, extent, -⟩ := hread
    obtain rfl : w = [] := List.length_eq_zero_iff.1 extent.symm
    exact plain_cons (listed (c, mark) (by simp [split]) opens shuts) trivial
  | none =>
    have unlisted (d : Char) (hd : (punctuation.lookup d).isSome = true) : c ≠ d := by
      rintro rfl
      rw [hlookup] at hd
      cases hd
    simp only [hlookup] at hread
    by_cases quote : c = '"'
    · simp only [readLong, if_pos quote, Lexeme.mk.injEq] at hread
      exact absurd hread.1.symm string
    by_cases hash : c = '#'
    · subst hash
      simp only [readLong, if_neg quote, if_true] at hread
      exact plain_pound hread string
    by_cases tick : c = '\x60'
    · subst tick
      simp only [readLong, if_neg quote, if_neg hash, if_true, Lexeme.mk.injEq] at hread
      exact plain_quoted hread.2.1 clear
    by_cases dollar : c = '$'
    · subst dollar
      simp only [readLong, if_neg quote, if_neg hash, if_neg tick, if_true, Lexeme.mk.injEq] at hread
      exact plain_cons (by decide) (plain_of_all (by decide +kernel) (Text.all_of_run hread.2.1) r)
    by_cases digit : Text.Decimal.isDigit c = true
    · simp only [readLong, if_neg quote, if_neg hash, if_neg tick, if_neg dollar, if_pos digit, Lexeme.mk.injEq] at hread
      have number := Number.plain_measure c (w ++ r) r
      rw [hread.2.1, List.take_left] at number
      refine plain_cons (fun hmem => ?_) number
      exact List.any_eq_false.1 (show signs.any Text.Decimal.isDigit = false by decide) c hmem digit
    by_cases point : c = '.'
    · subst point
      simp only [readLong, if_neg quote, if_neg hash, if_neg tick, if_neg dollar, if_neg digit, if_true] at hread
      split at hread
      · next points => exact plain_points points (Lexeme.mk.inj hread).2.1 clear
      · obtain rfl : w = [] := List.length_eq_zero_iff.1 (Lexeme.mk.inj hread).2.1.symm
        exact plain_cons (by decide) trivial
    by_cases operator : isOperatorChar c = true
    · simp only [readLong, if_neg quote, if_neg hash, if_neg tick, if_neg dollar, if_neg digit, if_neg point,
        if_pos operator, Lexeme.mk.injEq] at hread
      have opens := unlisted '(' rfl
      have shuts := unlisted ')' rfl
      exact ⟨⟨opens, shuts, quote⟩, fun sign => absurd sign hash, first, plain_of_operatorExtent hread.2.1⟩
    have sign : c ∉ signs := by
      have slash : c ≠ '/' := by
        rintro rfl
        exact operator rfl
      simp [signs, unlisted '(' rfl, unlisted ')' rfl, quote, hash, slash]
    refine plain_cons sign ?_
    simp only [readLong, if_neg quote, if_neg hash, if_neg tick, if_neg dollar, if_neg digit, if_neg point,
      if_neg operator] at hread
    split at hread
    · exact plain_of_all (by decide +kernel) (Text.all_of_run (Lexeme.mk.inj hread).2.1) r
    · obtain rfl : w = [] := List.length_eq_zero_iff.1 (Lexeme.mk.inj hread).2.1.symm
      trivial

/-- A literal begins with a quote, perhaps behind hashes. -/
theorem front_of_string {rest : List Char} (h : (read c rest).kind = .string) :
    c = '"' ∨ (c = '#' ∧ quotes rest = true) := by
  unfold read at h
  cases hlookup : punctuation.lookup c with
  | some mark =>
    have listed : ∀ entry ∈ punctuation, entry.2 ≠ .string := by decide
    obtain ⟨before, behind, split, -⟩ := List.lookup_eq_some_iff.1 hlookup
    simp only [hlookup] at h
    exact absurd h (listed (c, mark) (by simp [split]))
  | none =>
    simp only [hlookup] at h
    by_cases quote : c = '"'
    · exact .inl quote
    by_cases hash : c = '#'
    · refine .inr ⟨hash, Bool.ne_false_iff.1 fun unquoted => ?_⟩
      simp only [readLong, if_neg quote, if_pos hash, pound_of_not_quotes unquoted] at h
      split at h <;> cases h
    · unfold readLong operatorKind wordKind Number.measure at h
      dsimp only at h
      rw [if_neg quote, if_neg hash] at h
      repeat' split at h
      all_goals cases h

end Lexeme

/-! ## The scanner in plain text -/

namespace Literal

variable {u w : List Char} {depth : Nat} {outer after : List Mode}

theorem interpolationStep_hash {rest : List Char} (h : Lexeme.quotes rest = false) :
    interpolationStep depth outer '#' rest = (run (· = '#') rest, .interpolation depth :: outer) := by
  have unquoted : (rest.drop (run (· = '#') rest)).head? ≠ some '"' := by simpa [Lexeme.quotes] using h
  unfold interpolationStep
  simp only [if_neg (show ¬('#' = '(') by decide), if_neg (show ¬('#' = ')') by decide),
    if_neg (show ¬('#' = '"') by decide), if_true]
  split
  · next behind heq =>
    rw [heq] at unquoted
    exact absurd rfl unquoted
  · rfl

/-- The scanner takes a run of `#` at once, and goes on behind it as if it had taken them one by one. -/
theorem passes_hash (hu : u.head? ≠ some '#') (unquoted : Lexeme.quotes (w ++ u) = false)
    (h : Passes step u (.interpolation depth :: outer) w after) :
    Passes step u (.interpolation depth :: outer) ('#' :: w) after := by
  have taken {rest : List Char} (hrest : Lexeme.quotes rest = false) : step (.interpolation depth :: outer) '#' rest
      = some (run (· = '#') rest, .interpolation depth :: outer) := congrArg some (interpolationStep_hash hrest)
  cases w with
  | nil =>
    have none : run (· = '#') ([] ++ u) = 0 := by
      refine Text.run_eq_zero ?_
      cases u with
      | nil => rfl
      | cons d u => simpa using hu
    have whole := taken unquoted
    rw [none] at whole
    exact .take whole (Nat.le_refl 0) h
  | cons c w =>
    have whole := taken unquoted
    rw [List.cons_append, Text.run_cons] at whole
    rw [List.cons_append, Lexeme.quotes_cons] at unquoted
    by_cases hash : c = '#'
    · subst hash
      rw [if_pos rfl] at unquoted
      rw [if_pos (by decide)] at whole
      cases h with
      | take own inside further =>
        rw [taken unquoted] at own
        cases own
        exact .take whole (Nat.succ_le_succ inside) further
    · rw [if_neg (by simpa using hash)] at whole
      exact .take whole (Nat.zero_le _) h

/-- The scanner goes through plain text without a change. -/
theorem passes_plain {text : List Char} (hu : u.head? ≠ some '#') (plain : Plain (w ++ u) text)
    (h : Passes step u (.interpolation depth :: outer) w after) :
    Passes step u (.interpolation depth :: outer) (text ++ w) after := by
  induction text with
  | nil => exact h
  | cons c text ih =>
    obtain ⟨⟨opens, shuts, quote⟩, unquoted, begins, others⟩ := plain
    rw [← List.append_assoc] at unquoted begins
    by_cases hash : c = '#'
    · subst hash
      exact passes_hash hu (unquoted rfl) (ih others)
    · have comments := Bool.or_eq_false_iff.1 begins
      have taken : step (.interpolation depth :: outer) c (text ++ w ++ u) = some (0, .interpolation depth :: outer) := by
        simp only [step, interpolationStep, if_neg opens, if_neg shuts, if_neg quote, if_neg hash, comments.1,
          comments.2, Bool.false_eq_true, if_false]
      exact .take taken (Nat.zero_le _) (ih others)

/-- The scanner goes through the trivia before a token without a change. -/
theorem passes_of_leadingStep {left_open left_open' : Bool} (h : Passes Trivia.leadingStep u left_open w left_open')
    (depth : Nat) (outer : List Mode) :
    Passes step u (.interpolation depth :: outer) w (.interpolation depth :: outer) := by
  induction h with
  | stay => exact .stay _
  | @take s t r c w k taken inside further ih =>
    refine .take ?_ inside ih
    rcases Trivia.leadingStep_cases taken with ⟨blank, rfl, rfl⟩ | ⟨line, rfl, rfl⟩ | ⟨line, block, rfl, rfl⟩
    · have signs (d : Char) (hd : Trivia.isSpace d = false) : c ≠ d := by
        rintro rfl
        rw [hd] at blank
        cases blank
      have slash := signs '/' (by decide)
      simp [step, interpolationStep, Comment.beginsLine, Comment.beginsBlock, signs '(' (by decide),
        signs ')' (by decide), signs '"' (by decide), signs '#' (by decide), slash]
    · obtain rfl := Comment.slash_of_beginsLine line
      simp [step, interpolationStep, line]
    · obtain rfl := Comment.slash_of_beginsBlock block
      simp [step, interpolationStep, line, block]

/-- A literal that is closed is passed as a whole. -/
theorem passes_measure {hashes : Nat} (h : measure hashes (w ++ u) = ⟨w.length, true⟩) :
    quoteExtent (isTriple (w ++ u)) ≤ w.length ∧ ∀ outer,
      Passes step u (.text hashes (isTriple (w ++ u)) :: outer) (w.drop (quoteExtent (isTriple (w ++ u)))) outer := by
  simp only [measure, scan, Extent.mk.injEq, List.isEmpty_iff] at h
  generalize isTriple (w ++ u) = multiline at h ⊢
  obtain ⟨extent, closed⟩ := h
  have inside : quoteExtent multiline ≤ w.length := by omega
  rw [List.drop_append_of_le_length inside] at extent closed
  refine ⟨inside, fun outer => ?_⟩
  have alone : Passes step u [.text hashes multiline] (w.drop (quoteExtent multiline)) [] := by
    refine (Text.passes_of_walk (Prod.ext ?_ closed)).1
    rw [List.length_drop]
    omega
  exact passes_append_modes alone outer

/-- The scanner passes a literal that the lexer reads as a whole. -/
theorem passes_string {c : Char} (h : Lexeme.read c (w ++ u) = ⟨.string, w.length, false⟩) (depth : Nat)
    (outer : List Mode) :
    Passes step u (.interpolation depth :: outer) (c :: w) (.interpolation depth :: outer) := by
  obtain rfl | ⟨rfl, quoted⟩ := Lexeme.front_of_string (congrArg Lexeme.kind h)
  · have read : Lexeme.read '"' (w ++ u)
        = ⟨.string, (measure 0 (w ++ u)).extent, !(measure 0 (w ++ u)).closed⟩ := rfl
    rw [read, Lexeme.mk.injEq, Bool.not_eq_false'] at h
    have measured : measure 0 (w ++ u) = ⟨w.length, true⟩ := by
      rw [← h.2.1, ← h.2.2]
    obtain ⟨inside, passed⟩ := passes_measure measured
    have taken : step (.interpolation depth :: outer) '"' (w ++ u) = some (quoteExtent (isTriple (w ++ u)),
        .text 0 (isTriple (w ++ u)) :: .interpolation depth :: outer) := rfl
    exact .take taken inside (passed _)
  · have read : Lexeme.read '#' (w ++ u) = Lexeme.pound (w ++ u) := rfl
    obtain ⟨behind, hbehind⟩ := List.head?_eq_some_iff.1 (of_decide_eq_true quoted)
    have taken : step (.interpolation depth :: outer) '#' (w ++ u)
        = some (run (· = '#') (w ++ u) + 1 + quoteExtent (isTriple behind),
          .text (run (· = '#') (w ++ u) + 1) (isTriple behind) :: .interpolation depth :: outer) := by
      simp only [step, interpolationStep, if_neg (show ¬('#' = '(') by decide), if_neg (show ¬('#' = ')') by decide),
        if_neg (show ¬('#' = '"') by decide), if_true, hbehind]
    rw [read, Lexeme.pound_of_drop_eq hbehind, Lexeme.mk.injEq, Bool.not_eq_false'] at h
    generalize run (fun c => decide (c = '#')) (w ++ u) = more at h hbehind taken
    obtain ⟨-, extent, closed⟩ := h
    rw [List.drop_append_of_le_length (by omega)] at hbehind
    obtain ⟨inner, hinner, rfl⟩ : ∃ inner, w.drop more = '"' :: inner ∧ behind = inner ++ u := by
      cases hdrop : w.drop more with
      | nil =>
        rw [List.drop_eq_nil_iff] at hdrop
        omega
      | cons d inner =>
        rw [hdrop, List.cons_append] at hbehind
        obtain ⟨rfl, rfl⟩ := List.cons.inj hbehind
        exact ⟨inner, rfl, rfl⟩
    have length := congrArg List.length hinner
    rw [List.length_drop, List.length_cons] at length
    obtain ⟨inside, passed⟩ := @passes_measure u inner (more + 1) (by
      have size : (measure (more + 1) (inner ++ u)).extent = inner.length := by omega
      rw [← size, ← closed])
    have rest : w.drop (more + 1 + quoteExtent (isTriple (inner ++ u)))
        = inner.drop (quoteExtent (isTriple (inner ++ u))) := by
      rw [← List.drop_drop, ← List.drop_drop, hinner]
      rfl
    refine .take taken (by omega) ?_
    rw [rest]
    exact passed _

end Literal

/-! ## The scanner among tokens -/

theorem Trivia.begins_eq_false {left_open : Bool} {c : Char} {rest : List Char}
    (h : leadingStep left_open c rest = none) : Comment.begins (c :: rest) = false := by
  unfold leadingStep at h
  split at h
  · cases h
  split at h
  · cases h
  next line =>
  split at h
  · cases h
  next block =>
  rw [Comment.begins, Bool.or_eq_false_iff]
  exact ⟨by simpa using line, by simpa using block⟩

namespace Token

open Literal (Mode step)

/-- The number of parentheses open behind a token, unless the token closes one more than are open. -/
def parens? (depth : Nat) (token : Token) : Option Nat :=
  if token.kind = .opener .paren then some (depth + 1)
  else if token.kind = .closer .paren then (if depth = 0 then none else some (depth - 1))
  else some depth

/-- Whether the scanner of an interpolation sees in a token what the lexer does: the token is no
literal left open, and hides no sign. -/
def isClear (token : Token) : Bool := !(token.kind = .string && token.unterminated) && !hidesSign token.text

variable {token : Token} {tokens others : List Token} {u w : List Char} {depth middle : Nat} {outer after : List Mode}

/-- The scanner passes the text of a token and counts its parenthesis. -/
theorem passes_text {c : Char} {x : List Char} {unterminated : Bool}
    (hread : Lexeme.read c (x ++ (w ++ u)) = ⟨token.kind, x.length, unterminated⟩)
    (first : Comment.begins (c :: (x ++ (w ++ u))) = false) (unhidden : hidesSign (c :: x) = false)
    (closed : token.kind = .string → unterminated = false) (hu : u.head? ≠ some '#')
    (counted : parens? depth token = some middle) (further : Passes step u (.interpolation middle :: outer) w after) :
    Passes step u (.interpolation depth :: outer) (c :: (x ++ w)) after := by
  have kind : (Lexeme.read c (x ++ (w ++ u))).kind = token.kind := congrArg Lexeme.kind hread
  have single (h : (Lexeme.read c (x ++ (w ++ u))).extent = 0) : x = [] := by
    rw [hread] at h
    exact List.length_eq_zero_iff.1 h
  by_cases opens : token.kind = .opener .paren
  · have listed : ('(', Kind.opener .paren) ∈ Lexeme.punctuation := by decide
    obtain ⟨rfl, extent⟩ := Lexeme.eq_of_mem_punctuation listed (kind.trans opens)
    obtain rfl := single extent
    rw [parens?, if_pos opens] at counted
    cases counted
    exact .take rfl (Nat.zero_le _) further
  by_cases shuts : token.kind = .closer .paren
  · have listed : (')', Kind.closer .paren) ∈ Lexeme.punctuation := by decide
    obtain ⟨rfl, extent⟩ := Lexeme.eq_of_mem_punctuation listed (kind.trans shuts)
    obtain rfl := single extent
    rw [parens?, if_neg opens, if_pos shuts] at counted
    split at counted
    · cases counted
    next inside =>
    cases counted
    refine .take ?_ (Nat.zero_le _) further
    show some (0, if depth = 0 then outer else .interpolation (depth - 1) :: outer) = _
    rw [if_neg inside]
  rw [parens?, if_neg opens, if_neg shuts] at counted
  cases counted
  by_cases string : token.kind = .string
  · rw [string, closed string] at hread
    exact (Literal.passes_string hread depth outer).append further
  · exact Literal.passes_plain hu (Lexeme.plain_of_read hread first string opens shuts unhidden) further

/-- The scanner passes a token with the trivia around it. -/
theorem passes_source (hnext : next (token.source ++ (w ++ u)) = (token, w ++ u)) (hkind : token.kind ≠ .endOfText)
    (clear : token.isClear = true) (hu : u.head? ≠ some '#') (counted : parens? depth token = some middle)
    (further : Passes step u (.interpolation middle :: outer) w after) :
    Passes step u (.interpolation depth :: outer) (token.source ++ w) after := by
  obtain ⟨c, x, left_open, unterminated, htext, hleading, hread, htrailing, hunterminated⟩ :=
    (next_eq_iff hkind).1 hnext
  obtain ⟨before, halts⟩ := Text.passes_of_walk hleading
  have behind := (Text.passes_of_walk (t := ()) (Prod.ext htrailing rfl)).1
  have first : Trivia.leadingStep left_open c (x ++ (token.trailing ++ (w ++ u))) = none :=
    Text.step_eq_none_of_walk halts
  obtain ⟨terminated, unhidden⟩ := Bool.and_eq_true_iff.1 clear
  rw [htext, Bool.not_eq_true'] at unhidden
  have closed (string : token.kind = .string) : unterminated = false := by
    have : token.unterminated = false := by simpa [string] using terminated
    rw [hunterminated, Bool.or_eq_false_iff] at this
    exact this.1
  have tail : Passes step u (.interpolation middle :: outer) (token.trailing ++ w) after :=
    (Literal.passes_of_leadingStep (Trivia.passes_leadingStep_of_trailingStep behind false) middle outer).append further
  have text : Passes step u (.interpolation depth :: outer) (c :: (x ++ (token.trailing ++ w))) after := by
    rw [← List.append_assoc token.trailing] at hread first
    exact passes_text hread (Trivia.begins_eq_false first) unhidden closed hu counted tail
  have whole : token.source ++ w = token.leading ++ (c :: (x ++ (token.trailing ++ w))) := by
    simp [source, htext]
  have split : c :: (x ++ (token.trailing ++ (w ++ u))) = c :: (x ++ (token.trailing ++ w)) ++ u := by
    simp
  rw [split] at before
  rw [whole]
  exact (Literal.passes_of_leadingStep before depth outer).append text

/-- The scanner passes tokens and counts their parentheses. -/
theorem passes_tokens (h : Lexed (tokens ++ others)) (hothers : others ≠ []) (hu : (render others).head? ≠ some '#')
    (clear : ∀ token ∈ tokens, token.isClear = true) (counted : tokens.foldlM parens? depth = some middle) :
    Passes step (render others) (.interpolation depth :: outer) (render tokens) (.interpolation middle :: outer) := by
  induction tokens generalizing depth with
  | nil =>
    cases counted
    exact .stay _
  | cons token tokens ih =>
    obtain ⟨own, clear⟩ := List.forall_mem_cons.1 clear
    have hne := List.append_ne_nil_of_right_ne_nil tokens hothers
    rw [List.foldlM_cons] at counted
    obtain ⟨between, first, counted⟩ := Option.bind_eq_some_iff.1 counted
    have hnext : next (token.source ++ (render tokens ++ render others)) = (token, render tokens ++ render others) := by
      rw [← render_append]
      exact h.next_eq
    rw [render_cons]
    exact passes_source hnext (h.kind_ne hne) own hu first (ih (h.tail hne) clear counted)

end Token

end SwiftTemplate.Swift
