import SwiftTemplate.Proofs.Swift.Outside
import SwiftTemplate.Proofs.Swift.Splicing
import SwiftTemplate.Proofs.Text.Lines

/-!
# Directives on their own

The tokens of a directive stay what they are wherever the directive is put, and whatever line it
announces, if the trivia behind it leaves its line open.
-/
namespace SwiftTemplate.Swift

open Text (Alike isMark Passes walk run)

namespace Lexeme

/-- Whether a kind is that of a punctuation mark no scan goes on past. -/
def isMarkKind (kind : Kind) : Bool := kind = .colon || kind = .closer .paren || kind = .closer .brace

theorem ne_endOfText_of_isMarkKind {kind : Kind} (h : isMarkKind kind = true) : kind ≠ .endOfText := by
  rintro rfl
  cases h

/-- A mark is read as what it is before every text. -/
theorem read_of_isMarkKind {c : Char} {rest : List Char} (h : isMarkKind (read c rest).kind = true) :
    isMark c = true ∧ ∀ other, read c other = ⟨(read c rest).kind, 0, false⟩ := by
  have marks : ∀ entry ∈ punctuation, isMarkKind entry.2 = true → isMark entry.1 = true := by decide
  have found : punctuation.lookup c = some (read c rest).kind := by
    refine lookup_of_isPunctuation ?_
    simp only [isMarkKind, Bool.or_eq_true, decide_eq_true_eq] at h
    rcases h with (colon | paren) | brace
    · rw [colon]
      decide
    · rw [paren]
      decide
    · rw [brace]
      decide
  obtain ⟨before, behind, hsplit, -⟩ := List.lookup_eq_some_iff.1 found
  exact ⟨marks (c, (read c rest).kind) (by simp [hsplit]) h, read_of_lookup found⟩

end Lexeme

namespace Word

theorem isNumeral_of_isDigit {c : Char} (h : Text.Decimal.isDigit c = true) : Text.isNumeral c = true := by
  simp only [Text.Decimal.isDigit, Bool.and_eq_true, decide_eq_true_eq, UInt32.le_iff_toNat_le] at h
  have low : 48 ≤ c.toNat := h.1
  have high : c.toNat ≤ 57 := h.2
  have first : Text.isNumeral c = (decide (48 ≤ c.toNat) &&
      (decide (c.toNat ≤ 57) || Text.inRanges c.toNat (Text.numeralRanges.drop 1))) := rfl
  rw [first, decide_eq_true low, decide_eq_true high]
  rfl

theorem isInside_of_isDigit {c : Char} (h : Text.Decimal.isDigit c = true) : isInside c = true := by
  rw [isInside, isNumeral_of_isDigit h, Bool.or_true]

end Word

namespace Number

/-- Whether a number goes on with a character, right or wrong. -/
def goesOn (c : Char) : Bool := Word.isInside c || c = '.'

/-- Digits before anything but more of a number are an integer. -/
theorem measure_digits {c : Char} {digits s : List Char} (hdigits : digits.all Text.Decimal.isDigit = true)
    (hs : s.head?.any goesOn = false) : measure c (digits ++ s) = (.integer, digits.length) := by
  have outside {p : Char → Bool} (hp : ∀ d, p d = true → goesOn d = true) : s.head?.any p = false := by
    cases s with
    | nil => rfl
    | cons d s =>
      cases h : p d with
      | false => exact h
      | true =>
        have := hp d h
        simp [this] at hs
  have decimal : beginsRadix c (digits ++ s) = false := by
    rw [beginsRadix, Bool.and_eq_false_iff]
    right
    cases digits with
    | nil =>
      have := @outside (fun d => d = 'x' || d = 'o' || d = 'b') (by
        simp only [Bool.or_eq_true, decide_eq_true_eq]
        rintro d ((rfl | rfl) | rfl) <;> decide +kernel)
      cases s with
      | nil => rfl
      | cons d s => simpa [or_assoc] using this
    | cons d digits =>
      have digit := (Bool.and_eq_true_iff.1 ((List.all_cons ..).symm.trans hdigits)).1
      have (letter : Char) (h : Text.Decimal.isDigit letter = false) : d ≠ letter := by
        rintro rfl
        rw [h] at digit
        cases digit
      simp [this 'x' (by decide), this 'o' (by decide), this 'b' (by decide)]
  have whole : run isDigitOrGap (digits ++ s) = digits.length := by
    refine Text.run_append_of_all ?_ (outside fun d hd => ?_)
    · rw [List.all_eq_true] at hdigits ⊢
      intro d hd
      rw [isDigitOrGap, hdigits d hd, Bool.true_or]
    · rw [goesOn, Bool.or_eq_true]
      left
      rcases Bool.or_eq_true_iff.1 hd with hd | hd
      · exact Word.isInside_of_isDigit hd
      · rw [of_decide_eq_true hd]
        decide +kernel
  have part : fraction s = 0 := by
    have := outside (p := fun d => decide (d = '.')) (by simp [goesOn])
    cases s with
    | nil => rfl
    | cons d s =>
      have : d ≠ '.' := by simpa using this
      simp [fraction, this]
  have power : exponent s = 0 := by
    have := @outside (fun d => d = 'e' || d = 'E') (by
      simp only [Bool.or_eq_true, decide_eq_true_eq]
      rintro d (rfl | rfl) <;> decide +kernel)
    cases s with
    | nil => rfl
    | cons d s =>
      have : ¬ (decide (d = 'e') || decide (d = 'E')) = true := by simpa using this
      rw [exponent_cons, if_neg this]
  have suffix : run Word.isInside s = 0 := Text.run_eq_zero (outside (by simp +contextual [goesOn]))
  unfold measure
  rw [if_neg (by rw [decimal]; decide)]
  simp only [whole, List.drop_left, part, power, Nat.add_zero, suffix, if_true]

end Number

namespace Trivia

/-- Trivia behind a token that leaves the line open: no line comment is in it. -/
def LeavesOpen (trivia : List Char) : Prop := trailing (trivia ++ [')']) = trivia.length

instance (trivia : List Char) : Decidable (LeavesOpen trivia) := inferInstanceAs (Decidable (_ = _))

/-- A line comment is never in front of other trivia on its line. -/
private theorem beginsLine_eq_false {u w : List Char} {c : Char} {k : Nat} (open_line : u.head? = some ')')
    (taken : trailingStep () c (w ++ u) = some (k, ())) (inside : k ≤ w.length)
    (further : Passes trailingStep u () (w.drop k) ()) : Comment.beginsLine c (w ++ u) = false := by
  refine Bool.eq_false_iff.2 fun line => ?_
  obtain rfl := Comment.slash_of_beginsLine line
  rw [trailingStep, if_neg (by decide), if_pos line] at taken
  obtain ⟨rfl, -⟩ := Prod.mk.inj (Option.some.inj taken)
  have stops := Text.any_head?_drop_run (fun d => !Comment.isBreak d) (w ++ u)
  rw [show run (fun d => !Comment.isBreak d) (w ++ u) = Comment.lineExtent (w ++ u) from rfl,
    List.drop_append_of_le_length inside] at stops
  generalize w.drop (Comment.lineExtent (w ++ u)) = behind at stops further
  cases further with
  | stay => simp [open_line, Comment.isBreak] at stops
  | @take _ _ _ d more _ taken =>
    have hbreak : Comment.isBreak d = true := by simpa using stops
    have : d ≠ ' ' ∧ d ≠ '\t' ∧ d ≠ '/' := by
      refine ⟨?_, ?_, ?_⟩ <;> (rintro rfl; exact absurd hbreak (by decide))
    simp [trailingStep, Text.isSpaceOrTab, Comment.beginsLine, Comment.beginsBlock, this] at taken

/-- Trivia that leaves the line open is trivia before every text. -/
theorem LeavesOpen.passes {trivia : List Char} (h : LeavesOpen trivia) (v : List Char) :
    Passes trailingStep v () trivia () := by
  refine (Text.passes_of_walk (t := ()) (Prod.ext h rfl)).1.congr fun _ c w k _ taken inside further => ?_
  have line := beginsLine_eq_false rfl taken inside further
  unfold trailingStep at taken ⊢
  split at taken
  · next blank => rw [if_pos blank]; exact taken
  next blank =>
  rw [if_neg (by rw [line]; decide)] at taken
  split at taken
  · next block =>
    dsimp only at taken ⊢
    split at taken
    · next hstays =>
      obtain ⟨rfl, -⟩ := Prod.mk.inj (Option.some.inj taken)
      have hw : w ≠ [] := by
        rintro rfl
        exact absurd (Comment.extent_pos ([] ++ [')'])) (Nat.not_lt.2 inside)
      rw [Comment.block_append_of_closed hw (Bool.and_eq_true_iff.1 hstays).1 inside v]
      rw [List.take_append_of_le_length inside] at hstays ⊢
      obtain ⟨d, w, rfl⟩ := List.exists_cons_of_ne_nil hw
      rw [if_neg blank, if_neg (by simpa [Comment.beginsLine] using line),
        if_pos (by simpa [Comment.beginsBlock] using block), if_pos hstays]
    · cases taken
  · cases taken

theorem LeavesOpen.trailing_append {trivia : List Char} (h : LeavesOpen trivia) (v : List Char) :
    trailing (trivia ++ v) = trivia.length + trailing v := by
  rw [trailing, (h.passes v).walk_eq]
  rfl

theorem isSpace_of_isSpaceOrTab {c : Char} (h : Text.isSpaceOrTab c = true) : isSpace c = true := by
  rw [Text.isSpaceOrTab, Bool.or_eq_true, decide_eq_true_eq, decide_eq_true_eq] at h
  rcases h with rfl | rfl <;> decide

/-- What follows a token on its line could as well stand before the next one. -/
theorem passes_leadingStep_of_trailingStep {u w : List Char} {s t : Unit} (passed : Passes trailingStep u s w t)
    (left_open : Bool) : Passes leadingStep u left_open w left_open := by
  induction passed with
  | stay => exact .stay left_open
  | @take s t r c w k taken inside further ih =>
    refine .take ?_ inside ih
    unfold leadingStep
    rcases trailingStep_cases taken with ⟨blank, rfl⟩ | ⟨line, rfl⟩ | ⟨line, block, hstays, rfl⟩
    · rw [if_pos (isSpace_of_isSpaceOrTab blank)]
    · rw [if_neg (by rw [Comment.slash_of_beginsLine line]; decide), if_pos line]
    · rw [if_neg (by rw [Comment.slash_of_beginsBlock block]; decide), if_neg (Bool.eq_false_iff.1 line), if_pos block]
      simp [(Bool.and_eq_true_iff.1 hstays).1]

theorem passes_trailing (s : List Char) : ∃ w u, s = w ++ u ∧ w.length = trailing s ∧ Passes trailingStep u () w () := by
  have split := List.take_append_drop (trailing s) s
  have length : (s.take (trailing s)).length = trailing s := by
    rw [List.length_take, Nat.min_eq_left (trailing_le_length s)]
  refine ⟨_, _, split.symm, length, (Text.passes_of_walk (t := ()) ?_).1⟩
  rw [split]
  exact Prod.ext length.symm rfl

/-- Trivia behind a token begins with a blank or a comment. -/
theorem front_of_passes_trailing {u w : List Char} {c : Char} (passed : Passes trailingStep u () (c :: w) ()) :
    isSpace c = true ∨ c = '/' := by
  cases passed with
  | take taken =>
    rcases trailingStep_cases taken with ⟨blank, -⟩ | ⟨line, -⟩ | ⟨-, block, -, -⟩
    · exact .inl (isSpace_of_isSpaceOrTab blank)
    · exact .inr (Comment.slash_of_beginsLine line)
    · exact .inr (Comment.slash_of_beginsBlock block)

/-- What follows a token on its line does not end the line. -/
theorem newline_not_mem_of_passes {u w : List Char} {s t : Unit} (passed : Passes trailingStep u s w t) : '\n' ∉ w := by
  induction passed with
  | stay => simp
  | @take s t r c w k taken inside further ih =>
    rw [← List.take_append_drop k w, ← List.cons_append, List.mem_append, not_or]
    refine ⟨?_, ih⟩
    rcases trailingStep_cases taken with ⟨blank, rfl⟩ | ⟨line, rfl⟩ | ⟨-, block, hstays, rfl⟩
    · rw [List.take_zero, List.mem_singleton]
      rintro rfl
      cases blank
    · have plain := List.all_takeWhile (p := fun d => !Comment.isBreak d) (l := w ++ u)
      rw [List.prefix_iff_eq_take.1 (List.takeWhile_prefix fun d => !Comment.isBreak d),
        show (List.takeWhile (fun d => !Comment.isBreak d) (w ++ u)).length = Comment.lineExtent (w ++ u) from rfl,
        List.take_append_of_le_length inside] at plain
      rw [Comment.slash_of_beginsLine line, List.mem_cons, not_or]
      refine ⟨by decide, fun hmem => ?_⟩
      have := List.all_eq_true.1 plain _ hmem
      simp [Comment.isBreak] at this
    · have plain := (Bool.and_eq_true_iff.1 hstays).2
      rw [List.take_append_of_le_length inside] at plain
      rw [Comment.slash_of_beginsBlock block, List.mem_cons, not_or]
      exact ⟨by decide, by simpa using plain⟩

/-- Trivia before a token begins with a blank or a comment. -/
theorem front_of_passes_leading {u w : List Char} {c : Char} {left_open after : Bool}
    (passed : Passes leadingStep u left_open (c :: w) after) : isSpace c = true ∨ c = '/' := by
  cases passed with
  | take taken =>
    rcases leadingStep_cases taken with ⟨blank, -, -⟩ | ⟨line, -, -⟩ | ⟨-, block, -, -⟩
    · exact .inl blank
    · exact .inr (Comment.slash_of_beginsLine line)
    · exact .inr (Comment.slash_of_beginsBlock block)

theorem leadingStep_eq_none {left_open : Bool} {c : Char} (hc : isSpace c = false) (slash : c ≠ '/')
    (rest : List Char) :
    leadingStep left_open c rest = none := by
  simp [leadingStep, hc, Comment.beginsLine, Comment.beginsBlock, slash]

end Trivia

namespace Token

theorem isSpace_of_isMark {c : Char} (h : isMark c = true) : Trivia.isSpace c = false ∧ c ≠ '/' := by
  simp only [isMark, Bool.or_eq_true, decide_eq_true_eq] at h
  rcases h with (rfl | rfl) | rfl <;> decide

/-- A mark of punctuation is a token of one character. -/
theorem text_of_mem_punctuation {mark : Char} {token : Token} {u : List Char}
    (listed : (mark, token.kind) ∈ Lexeme.punctuation) (hnext : next (token.source ++ u) = (token, u)) :
    token.text = [mark] ∧ ∃ left_open,
      Passes Trivia.leadingStep (mark :: (token.trailing ++ u)) false token.leading left_open := by
  have hne : token.kind ≠ .endOfText := by
    have kinds : ∀ entry ∈ Lexeme.punctuation, entry.2 ≠ .endOfText := by decide
    exact kinds _ listed
  obtain ⟨c, w, left_open, unterminated, htext, hleading, hread, -⟩ := (next_eq_iff hne).1 hnext
  obtain ⟨rfl, extent⟩ := Lexeme.eq_of_mem_punctuation listed (congrArg Lexeme.kind hread)
  obtain rfl : w = [] := by
    rw [hread] at extent
    exact List.length_eq_zero_iff.1 extent
  exact ⟨htext, left_open, (Text.passes_of_walk hleading).1⟩

/-- A mark is one before every text, with the trivia behind it that the text gives it. -/
theorem next_withTrailing {token : Token} {u v trailing : List Char} (h : next (token.source ++ u) = (token, u))
    (hkind : Lexeme.isMarkKind token.kind = true) (htrailing : Trivia.trailing (trailing ++ v) = trailing.length) :
    next ({ token with trailing := trailing }.source ++ v) = ({ token with trailing := trailing }, v) := by
  have hne := Lexeme.ne_endOfText_of_isMarkKind hkind
  obtain ⟨c, w, left_open, unterminated, htext, hleading, hread, -, hunterminated⟩ := (next_eq_iff hne).1 h
  obtain ⟨mark, same⟩ := @Lexeme.read_of_isMarkKind c (w ++ (token.trailing ++ u)) (by rw [hread]; exact hkind)
  rw [hread] at same
  obtain ⟨space, slash⟩ := isSpace_of_isMark mark
  refine (@next_eq_iff { token with trailing := trailing } v hne).2
    ⟨c, w, left_open, unterminated, htext, ?_, ?_, htrailing, hunterminated⟩
  · have passed := Trivia.passes_leadingStep_congr (u := c :: (w ++ (token.trailing ++ u)))
      (v := c :: (w ++ (trailing ++ v))) ⟨id, id, id⟩ (by simp) (Text.passes_of_walk hleading).1
    rw [Trivia.leading, passed.walk_eq, Text.walk_halt (Trivia.leadingStep_eq_none space slash _)]
    rfl
  · have own := same (w ++ (token.trailing ++ u))
    rw [hread] at own
    rw [same, ← own]

/-- A mark stays what it is before every text that takes none of the trivia behind it away and adds
none to it. -/
theorem next_of_isMarkKind {token : Token} {u v : List Char} (h : next (token.source ++ u) = (token, u))
    (hkind : Lexeme.isMarkKind token.kind = true)
    (htrailing : Trivia.trailing (token.trailing ++ v) = token.trailing.length) :
    next (token.source ++ v) = (token, v) :=
  next_withTrailing h hkind htrailing

theorem resembles_of_isMarkKind {token : Token} {u : List Char} (h : next (token.source ++ u) = (token, u))
    (hkind : Lexeme.isMarkKind token.kind = true) (v : List Char) :
    Resembles (token.source ++ u) (token.source ++ v) := by
  have hne := Lexeme.ne_endOfText_of_isMarkKind hkind
  obtain ⟨c, w, left_open, unterminated, htext, hleading, hread, -⟩ := (next_eq_iff hne).1 h
  obtain ⟨mark, -⟩ := @Lexeme.read_of_isMarkKind c (w ++ (token.trailing ++ u)) (by rw [hread]; exact hkind)
  have split (s : List Char) : token.source ++ s = token.leading ++ c :: (w ++ (token.trailing ++ s)) := by
    simp [source, htext]
  rw [split, split]
  exact .mark mark (Nat.le_of_eq (congrArg Prod.fst hleading))

theorem nil_of_endOfText {text : List Char} (h : (next text).1.kind = .endOfText) :
    (next text).1.text = [] ∧ (next text).1.trailing = [] := by
  unfold next at h ⊢
  dsimp only at h ⊢
  split at h
  · exact ⟨rfl, rfl⟩
  · exact absurd h (Lexeme.kind_read_ne _ _)

theorem Lexed.nil_of_endOfText {token : Token} {tokens : List Token} (h : Lexed (token :: tokens))
    (hkind : token.kind = .endOfText) : token.text = [] ∧ token.trailing = [] := by
  have := @Token.nil_of_endOfText (token.source ++ render tokens) (by rw [h.next_eq]; exact hkind)
  rwa [h.next_eq] at this

theorem Lexed.newline_not_mem_trailing {tokens : List Token} (h : Lexed tokens) :
    ∀ token ∈ tokens, '\n' ∉ token.trailing := by
  induction tokens with
  | nil => simp
  | cons token tokens ih =>
    have own : '\n' ∉ token.trailing := by
      by_cases hkind : token.kind = .endOfText
      · simp [(h.nil_of_endOfText hkind).2]
      · obtain ⟨_, _, _, _, -, -, -, htrailing, -⟩ := (next_eq_iff hkind).1 h.next_eq
        exact Trivia.newline_not_mem_of_passes (Text.passes_of_walk (t := ()) (Prod.ext htrailing rfl)).1
    refine List.forall_mem_cons.2 ⟨own, ?_⟩
    by_cases htokens : tokens = []
    · simp [htokens]
    · exact ih (h.tail htokens)

/-- The last token of a text is its end. -/
theorem Lexed.kind_of_singleton {token : Token} (h : Lexed [token]) : token.kind = .endOfText := by
  refine Decidable.byContradiction fun hkind => ?_
  have := ofText_of_next h.next_eq hkind
  rw [← render_cons, h] at this
  exact ofText_ne_nil _ (List.cons.inj this).2.symm

/-- The trivia between a token and the parenthesis that follows it, and the parenthesis itself, do
not go on with a number. -/
private theorem any_goesOn_eq_false {token close : Token} {u : List Char}
    (h : next (token.source ++ (close.source ++ u)) = (token, close.source ++ u)) (hkind : token.kind ≠ .endOfText)
    (hclose : next (close.source ++ u) = (close, u)) (hparen : Lexeme.isMarkKind close.kind = true) :
    (token.trailing ++ (close.source ++ u)).head?.any Number.goesOn = false := by
  have outside {c : Char} (hc : Trivia.isSpace c = true ∨ c = '/') : Number.goesOn c = false := by
    rcases hc with space | rfl
    · simp only [Trivia.isSpace, Bool.or_eq_true, decide_eq_true_eq] at space
      rcases space with ((((rfl | rfl) | rfl) | rfl) | rfl) | rfl <;> decide +kernel
    · decide +kernel
  have hne := Lexeme.ne_endOfText_of_isMarkKind hparen
  obtain ⟨_, _, _, _, -, -, -, htrailing, -⟩ := (next_eq_iff hkind).1 h
  obtain ⟨c, w, _, _, htext, hleading, hread, -⟩ := (next_eq_iff hne).1 hclose
  have behind := (Text.passes_of_walk (t := ()) (Prod.ext htrailing rfl)).1
  have before := (Text.passes_of_walk hleading).1
  have mark := (@Lexeme.read_of_isMarkKind c (w ++ (close.trailing ++ u)) (by rw [hread]; exact hparen)).1
  cases htrivia : token.trailing with
  | cons d more =>
    rw [htrivia] at behind
    exact outside (Trivia.front_of_passes_trailing behind)
  | nil =>
    cases hlead : close.leading with
    | cons d more =>
      rw [hlead] at before
      simpa [source, hlead] using outside (Trivia.front_of_passes_leading before)
    | nil =>
      simp only [source, hlead, htext, List.nil_append, List.cons_append, List.head?_cons, Option.any_some]
      simp only [isMark, Bool.or_eq_true, decide_eq_true_eq] at mark
      rcases mark with (rfl | rfl) | rfl <;> decide +kernel

theorem digit_facts {c : Char} (h : Text.Decimal.isDigit c = true) :
    Trivia.isSpace c = false ∧ c ≠ '/' ∧ c ≠ '*' ∧ Comment.isBreak c = false := by
  have other (d : Char) (hd : Text.Decimal.isDigit d = false) : c ≠ d := by
    rintro rfl
    rw [h] at hd
    cases hd
  simp [Trivia.isSpace, Comment.isBreak, other ' ' (by decide), other '\t' (by decide), other '\n' (by decide),
    other '\r' (by decide), other '\x0B' (by decide), other '\x0C' (by decide), other '/' (by decide),
    other '*' (by decide)]

theorem read_digits {c : Char} {digits s : List Char} (hc : Text.Decimal.isDigit c = true)
    (hdigits : digits.all Text.Decimal.isDigit = true) (hs : s.head?.any Number.goesOn = false) :
    Lexeme.read c (digits ++ s) = ⟨.integer, digits.length, false⟩ := by
  have other (d : Char) (hd : Text.Decimal.isDigit d = false) : c ≠ d := by
    rintro rfl
    rw [hc] at hd
    cases hd
  have nolookup : Lexeme.punctuation.lookup c = none := by
    have marks : ∀ entry ∈ Lexeme.punctuation, Text.Decimal.isDigit entry.1 = false := by decide
    exact List.lookup_eq_none_iff.2 fun entry hmem => by
      simpa using other entry.1 (marks entry hmem)
  simp only [Lexeme.read, nolookup, Lexeme.readLong, if_neg (other '"' (by decide)), if_neg (other '#' (by decide)),
    if_neg (other '\x60' (by decide)), if_neg (other '$' (by decide)), if_pos hc, Number.measure_digits hdigits hs]

/-- What a number says about comments is what another number says. -/
private theorem fronts_of_isDigit {c d : Char} (hc : Trivia.isSpace c = false) (hd : Text.Decimal.isDigit d = true)
    (u v : List Char) : Comment.Fronts (c :: u) (d :: v) := by
  obtain ⟨-, slash, star, -⟩ := digit_facts hd
  refine ⟨fun h => absurd (Option.some.inj h) slash, fun h => absurd (Option.some.inj h) star, fun h => ?_⟩
  have hbreak : Comment.isBreak c = true := by simpa using h
  rcases Bool.or_eq_true_iff.1 hbreak with hc' | hc' <;> (rw [of_decide_eq_true hc'] at hc; cases hc)

/-- A number before a parenthesis can be exchanged for another, and the colon before it does not notice. -/
theorem next_withDigits {colon number close : Token} {u digits : List Char}
    (hcolon : next (colon.source ++ (number.source ++ (close.source ++ u)))
      = (colon, number.source ++ (close.source ++ u)))
    (hnumber : next (number.source ++ (close.source ++ u)) = (number, close.source ++ u))
    (hclose : next (close.source ++ u) = (close, u))
    (colonKind : Lexeme.isMarkKind colon.kind = true) (numberKind : number.kind = .integer)
    (closeKind : Lexeme.isMarkKind close.kind = true)
    (nonempty : digits ≠ []) (hdigits : digits.all Text.Decimal.isDigit = true) :
    next ({ number with text := digits }.source ++ (close.source ++ u))
        = ({ number with text := digits }, close.source ++ u) ∧
      ∀ v, next (colon.source ++ ({ number with text := digits }.source ++ v))
        = (colon, { number with text := digits }.source ++ v) := by
  have numberNe : number.kind ≠ .endOfText := by rw [numberKind]; decide
  have colonNe := Lexeme.ne_endOfText_of_isMarkKind colonKind
  obtain ⟨d, digits, rfl⟩ := List.exists_cons_of_ne_nil nonempty
  rw [List.all_cons, Bool.and_eq_true] at hdigits
  obtain ⟨hd, hdigits⟩ := hdigits
  obtain ⟨space, slash, -, -⟩ := digit_facts hd
  have front := any_goesOn_eq_false hnumber numberNe hclose closeKind
  obtain ⟨c, w, left_open, unterminated, htext, hleading, hread, htrailing, hunterminated⟩ :=
    (next_eq_iff numberNe).1 hnumber
  obtain ⟨_, _, _, _, -, -, -, hbehind, -⟩ := (next_eq_iff colonNe).1 hcolon
  obtain ⟨before, halts⟩ := Text.passes_of_walk hleading
  have cspace : Trivia.isSpace c = false := by
    cases hc : Trivia.isSpace c with
    | false => rfl
    | true =>
      rw [Text.walk_take (show Trivia.leadingStep left_open c _ = some (0, left_open) by
        rw [Trivia.leadingStep, if_pos hc])] at halts
      simp at halts
  have fronts (x y : List Char) := fronts_of_isDigit cspace hd x y
  have terminated : unterminated = false := by
    cases unterminated with
    | false => rfl
    | true =>
      have := @Lexeme.kind_of_unterminated c (w ++ (number.trailing ++ (close.source ++ u))) (by rw [hread])
      rw [hread, numberKind] at this
      cases this
  constructor
  · refine (@next_eq_iff { number with text := d :: digits } (close.source ++ u) numberNe).2
      ⟨d, digits, left_open, false, rfl, ?_, ?_, htrailing, ?_⟩
    · have passed := Trivia.passes_leadingStep_congr
        (fronts _ (digits ++ (number.trailing ++ (close.source ++ u)))) (by simp) before
      rw [Trivia.leading, passed.walk_eq, Text.walk_halt (Trivia.leadingStep_eq_none space slash _)]
      rfl
    · rw [read_digits hd hdigits front, numberKind]
    · exact hunterminated.trans (by rw [terminated])
  · intro v
    refine next_of_isMarkKind hcolon colonKind ?_
    have whole (x : List Char) : { number with text := d :: digits }.source ++ x
        = number.leading ++ (d :: (digits ++ (number.trailing ++ x))) := by
      simp [source]
    have own : number.source ++ (close.source ++ u)
        = number.leading ++ (c :: (w ++ (number.trailing ++ (close.source ++ u)))) := by
      simp [source, htext]
    obtain ⟨passed, stops⟩ := Text.passes_of_walk (t := ()) (Prod.ext hbehind rfl)
    rw [whole]
    rw [own] at passed stops
    have same := (Trivia.passes_trailingStep_congr
      ((fronts _ (digits ++ (number.trailing ++ v))).append number.leading) passed).walk_eq
    have none : Trivia.trailing (number.leading ++ (d :: (digits ++ (number.trailing ++ v)))) = 0 := by
      refine Trivia.trailing_eq_zero_of_leading (fronts _ _) (by simp) (fun _ => ?_)
        (Nat.le_of_eq (congrArg Prod.fst hleading)) (congrArg Prod.fst stops)
      have blank : d ≠ ' ' ∧ d ≠ '\t' := by
        constructor <;> (rintro rfl; cases space)
      rw [Trivia.trailing, Text.walk_halt (by
        simp [Trivia.trailingStep, Text.isSpaceOrTab, Comment.beginsLine, Comment.beginsBlock, blank, slash])]
    rw [Trivia.trailing, same]
    exact congrArg (colon.trailing.length + ·) none

/-- An integer token has no line break. -/
theorem newline_not_mem_of_kind_eq_integer {token : Token} {rest : List Char}
    (hnext : next (token.source ++ rest) = (token, rest)) (h : token.kind = .integer) : '\n' ∉ token.text := by
  obtain ⟨c, w, left_open, unterminated, htext, -, hread, -⟩ := (next_eq_iff (by rw [h]; decide)).1 hnext
  rw [htext]
  refine Lexeme.newline_not_mem_of_kind_eq_integer (s := token.trailing ++ rest) ?_ ?_
  · rw [hread]
    exact h
  · rw [hread]

end Token

namespace Directive

/-- A directive that has been read somewhere. -/
structure Read (form : Directive) (tokens : List Token) : Prop where
  shape : first? tokens = some form
  size : tokens.length = form.size
  read : ∃ others, others ≠ [] ∧ Token.Lexed (tokens ++ others)

/-- A directive that has been read somewhere and leaves its line open behind it. -/
structure Standalone (form : Directive) (tokens : List Token) : Prop extends Read form tokens where
  free : ∀ close, tokens.getLast? = some close → Trivia.LeavesOpen close.trailing

/-- The tokens of a directive that announces another line. -/
def renumber (line : Nat) (tokens : List Token) : List Token :=
  tokens.modify lineToken fun token => { token with text := Text.Decimal.write line }

/-- No literal in a directive is left open. -/
theorem terminated_of_first? {form : Directive} {tokens : List Token} (h : first? tokens = some form)
    (size : tokens.length = form.size) :
    ∀ token ∈ tokens, token.kind = .string → token.unterminated = false := by
  obtain ⟨head, paren, arguments, rfl, hbegins, hparen, ⟨rfl, close, rest, rfl, hclose⟩ | ⟨rfl, hlocates⟩⟩ :=
    first?_cases h
  · have hpound : head.kind = .pound := kind_of_begins hbegins
    obtain rfl : rest = [] := List.length_eq_zero_iff.1 (by simpa [Directive.size] using size)
    simp [hpound, hparen, hclose]
  · have hpound : head.kind = .pound := kind_of_begins hbegins
    obtain ⟨file, fileColon, path, comma, line, lineColon, number, close, rest, rfl,
      hfile, hfileColon, -, hpath, hcomma, hline, hlineColon, hnumber, hclose⟩ := locates_cases hlocates
    obtain rfl : rest = [] := List.length_eq_zero_iff.1 (by simpa [Directive.size] using size)
    have hfile : file.kind = .identifier := of_decide_eq_true (Bool.and_eq_true_iff.1 hfile).1
    have hline : line.kind = .identifier := of_decide_eq_true (Bool.and_eq_true_iff.1 hline).1
    simp [hpound, hparen, hfile, hfileColon, hpath, hcomma, hline, hlineColon, hnumber, hclose]

theorem first?_prepend (kept : List Char) (tokens : List Token) :
    first? (Token.prepend kept tokens) = first? tokens := by
  refine first?_congr ?_
  cases tokens with
  | nil => exact .nil
  | cons head rest => exact .cons ⟨rfl, rfl, fun _ => rfl⟩ (List.forall₂_same.2 fun token _ => .refl token)

theorem first?_withLeading (head : Token) (leading : List Char) (rest : List Token) :
    first? ({ head with leading := leading } :: rest) = first? (head :: rest) := by
  cases rest <;> rfl

/-- The name of a directive is no trivia. -/
theorem leading_name (s : List Char) : Trivia.leading (name ++ s) = (0, false) := by
  rw [show name = '#' :: "sourceLocation".toList from rfl, List.cons_append]
  exact Text.walk_halt (Trivia.leadingStep_eq_none (by decide) (by decide) _)

theorem exists_number_renumber {tokens : List Token} (h : lineToken < tokens.length) (line : Nat) :
    ∃ number : Token, (renumber line tokens)[lineToken]? = some { number with text := Text.Decimal.write line } := by
  refine ⟨tokens[lineToken], ?_⟩
  rw [renumber, List.getElem?_modify_eq, List.getElem?_eq_getElem h]
  rfl

/-- A directive whose number is a written one announces that, if it is below the bound. -/
theorem announced?_of_number {tokens : List Token} {number : Token} {line : Nat} (shape : first? tokens = some .located)
    (place : tokens[lineToken]? = some number) (text : number.text = Text.Decimal.write line) :
    announced? tokens = (some line).filter (· < lineBound) := by
  rw [announced?, if_pos shape, place]
  dsimp only
  rw [text, Text.filter_write, Text.Decimal.read?_write]

namespace Read
variable {form : Directive} {tokens : List Token}

/-- A directive ends with a parenthesis, and none of its tokens is affected by what follows. -/
theorem exists_close (h : Read form tokens) : ∃ front close others, tokens = front ++ [close] ∧
    Lexeme.isMarkKind close.kind = true ∧ others ≠ [] ∧ Token.Lexed (front ++ close :: others) ∧
    ∀ token ∈ tokens, token.Ends := by
  obtain ⟨close, hclose, hparen⟩ := Directive.exists_close h.shape
  obtain ⟨others, hothers, hlexed⟩ := h.read
  rw [← h.size, ← List.getLast?_eq_getElem?] at hclose
  obtain ⟨front, rfl⟩ := List.getLast?_eq_some_iff.1 hclose
  exact ⟨front, close, others, rfl, by rw [hparen]; rfl, hothers, by simpa using hlexed,
    hlexed.ends hothers fun _ => terminated_of_first? h.shape h.size⟩

/-- A directive is read before every text. Its parenthesis takes the trivia that follows it there. -/
theorem exists_ofText_append (h : Read form tokens) (text : List Char) : ∃ front close taken left,
    tokens = front ++ [close] ∧ close.trailing ++ text = taken ++ left ∧
    taken.length = Trivia.trailing (close.trailing ++ text) ∧
    Token.ofText (Token.render tokens ++ text) = front ++ { close with trailing := taken } :: Token.ofText left := by
  obtain ⟨front, close, others, rfl, hkind, hothers, hlexed, ends⟩ := h.exists_close
  obtain ⟨taken, left, split, length, -⟩ := Trivia.passes_trailing (close.trailing ++ text)
  refine ⟨front, close, taken, left, rfl, split, length, ?_⟩
  have hclose := hlexed.of_append (by simp)
  have hnext := @Token.next_withTrailing close _ left taken hclose.next_eq hkind (by rw [← split, length])
  have whole := hlexed.ofText_append (by simp) (fun token hmem => ends token (List.mem_append_left _ hmem))
    (Token.resembles_of_isMarkKind hclose.next_eq hkind text)
  rw [show close.source ++ text = { close with trailing := taken }.source ++ left by simp [Token.source, split],
    Token.ofText_of_next hnext (hclose.kind_ne hothers)] at whole
  rw [← whole]
  simp [Token.source, split]

/-- A directive stays one when it announces another line. -/
theorem renumber (h : Read .located tokens) (line : Nat) : Read .located (renumber line tokens) := by
  obtain ⟨head, paren, arguments, rfl, hbegins, hparen, ⟨hform, -⟩ | ⟨-, hlocates⟩⟩ := first?_cases h.shape
  · cases hform
  obtain ⟨file, fileColon, path, comma, label, colon, number, close, rest, rfl,
    hfile, hfileColon, hpath, hpath', hcomma, hlabel, hcolon, hnumber, hclose⟩ := locates_cases hlocates
  obtain rfl : rest = [] := List.length_eq_zero_iff.1 (by simpa [Directive.size] using h.size)
  obtain ⟨others, hothers, hlexed⟩ := h.read
  have ends := hlexed.ends hothers fun _ => terminated_of_first? h.shape h.size
  -- The parenthesis, the number before it and the colon before that.
  have atColon := @Token.Lexed.of_append [head, paren, file, fileColon, path, comma, label]
    (colon :: number :: close :: others) hlexed (by simp)
  have atNumber := atColon.tail (by simp)
  have atClose := atNumber.tail (by simp)
  have colonKind : Lexeme.isMarkKind colon.kind = true := by rw [hcolon]; rfl
  have closeKind : Lexeme.isMarkKind close.kind = true := by rw [hclose]; rfl
  obtain ⟨hnext, further⟩ := Token.next_withDigits atColon.next_eq atNumber.next_eq atClose.next_eq colonKind hnumber
    closeKind (Text.Decimal.write_ne_nil line) (Text.Decimal.all_isDigit_write line)
  have numbered := (atClose.cons (by rw [hnumber]; decide) hnext).cons (by rw [hcolon]; decide) (further _)
  refine ⟨by simpa [Directive.renumber, lineToken, first?, locates, hparen, hclose, hbegins] using h.shape,
    by simpa [Directive.renumber] using h.size, others, hothers, ?_⟩
  have whole := @Token.Lexed.append_resembles [head, paren, file, fileColon, path, comma, label]
    (colon :: number :: close :: others) _ hlexed (by simp)
    (fun token hmem => ends token (List.mem_append_left [colon, number, close] hmem)) numbered
    (Token.resembles_of_isMarkKind atColon.next_eq colonKind _)
  simpa [Directive.renumber, lineToken] using whole

/-- A directive stays one on a line of its own, behind a line break and what stood before it on its line. -/
theorem withLeading {head : Token} {rest : List Token} (h : Read form (head :: rest)) {leading : List Char}
    (fresh : leading = [] ∨ leading = ['\n'] ∨ ∃ before indent,
      head.leading = before ++ '\n' :: indent ∧ Trivia.Whole before ∧ leading = '\n' :: indent) :
    Read form ({ head with leading := leading } :: rest) := by
  obtain ⟨others, hothers, hlexed⟩ := h.read
  obtain ⟨_, _, hcons, hbegins⟩ := begins_of_first? h.shape
  obtain ⟨rfl, rfl⟩ := List.cons.inj hcons
  have hkind : head.kind = .pound := kind_of_begins hbegins
  have hname : head.text = name := text_of_begins hbegins
  have hne : head.kind ≠ .endOfText := by rw [hkind]; decide
  have hrest := List.append_ne_nil_of_right_ne_nil rest hothers
  have named (s : List Char) : Trivia.leading (head.text ++ s) = (0, false) := hname ▸ leading_name s
  have hread : Trivia.leading (leading ++ (head.text ++ (head.trailing ++ Token.render (rest ++ others))))
      = (leading.length, false) := by
    rcases fresh with rfl | rfl | ⟨before, indent, hleading, whole, rfl⟩
    · exact named _
    · rw [List.singleton_append, Trivia.leading,
        Text.walk_take (show Trivia.leadingStep false '\n' _ = some (0, false) from rfl)]
      rw [List.drop_zero, show Text.walk Trivia.leadingStep false _ = (0, false) from named _]
      rfl
    · obtain ⟨c, w, left_open, -, htext, hbefore, -⟩ := (Token.next_eq_iff hne).1 hlexed.next_eq
      have closed := Trivia.eq_of_passes_leading (Text.passes_of_walk hbefore).1 (by simp)
      rw [hleading, closed, List.append_assoc, List.cons_append, whole.leading_append (Text.breaks_newline _),
        List.length_append] at hbefore
      obtain ⟨hlength, hopen⟩ := Prod.mk.inj hbefore
      rw [htext]
      exact Prod.ext (by simpa using Nat.add_left_cancel hlength) (by simpa using hopen)
  exact ⟨(first?_withLeading head leading rest).trans h.shape, h.size, others, hothers,
    (hlexed.tail hrest).cons hne (Token.next_withLeading hlexed.next_eq hne hread)⟩

/-- What begins with the text of a directive that announces a line is that directive, if it is one at all. -/
theorem announced?_of_text_eq {head token : Token} {rest others : List Token} (h : Read .located (head :: rest))
    {line : Nat} {text : List Char} (lexed : Token.Lexed (token :: others))
    (shape : first? (token :: others) = some .located)
    (same : token.text ++ (token.trailing ++ Token.render others)
      = Token.render (Directive.renumber line ({ head with leading := [] } :: rest)) ++ text) :
    announced? (token :: others) = (some line).filter (· < lineBound) := by
  have own : Read .located (Directive.renumber line ({ head with leading := [] } :: rest)) :=
    (h.withLeading (.inl rfl)).renumber line
  obtain ⟨front, close, taken, left, hfront, -, -, whole⟩ := own.exists_ofText_append text
  obtain ⟨_, _, hcons, hbegins⟩ := begins_of_first? shape
  obtain ⟨rfl, rfl⟩ := List.cons.inj hcons
  have hkind : token.kind ≠ .endOfText := by
    rw [kind_of_begins hbegins]
    decide
  have hname : token.text = name := text_of_begins hbegins
  have hothers : others ≠ [] := by
    rintro rfl
    exact hkind lexed.kind_of_singleton
  have bare : Token.Lexed ({ token with leading := [] } :: others) :=
    (lexed.tail hothers).cons hkind (Token.next_withLeading lexed.next_eq hkind (hname ▸ leading_name _))
  have tokens : { token with leading := [] } :: others = front ++ { close with trailing := taken } :: Token.ofText left := by
    rw [← whole, ← same]
    simpa [Token.source] using bare.symm
  have inside : lineToken < front.length := by
    have size := own.size
    rw [hfront, List.length_append, Directive.size] at size
    exact Nat.lt_of_lt_of_eq (by decide) (Nat.add_right_cancel size).symm
  obtain ⟨number, written⟩ := @exists_number_renumber ({ head with leading := [] } :: rest)
    (h.size ▸ (by decide : lineToken < Directive.size .located)) line
  rw [hfront, List.getElem?_append_left inside] at written
  refine @announced?_of_number _ { number with text := Text.Decimal.write line } line shape ?_ rfl
  have place := congrArg (fun tokens => tokens[lineToken]?) tokens
  rw [List.getElem?_append_left inside, written] at place
  exact place

end Read

namespace Standalone
variable {form : Directive} {tokens : List Token}

/-- A directive that leaves its line open is read before every text, and takes the trivia at its start. -/
theorem exists_ofText_append (h : Standalone form tokens) (text : List Char) : ∃ front close taken left,
    tokens = front ++ [close] ∧ text = taken ++ left ∧ taken.length = Trivia.trailing text ∧
    Token.ofText text = Token.prepend taken (Token.ofText left) ∧
    Token.ofText (Token.render tokens ++ text)
      = front ++ { close with trailing := close.trailing ++ taken } :: Token.ofText left := by
  obtain ⟨taken, left, rfl, length, passed⟩ := Trivia.passes_trailing text
  obtain ⟨front, close, own, behind, rfl, split, hown, whole⟩ := h.toRead.exists_ofText_append (taken ++ left)
  rw [(h.free close (by simp)).trailing_append, ← length, ← List.length_append] at hown
  rw [← List.append_assoc] at split
  obtain ⟨rfl, rfl⟩ := List.append_inj split.symm hown
  refine ⟨front, close, taken, behind, rfl, rfl, length, Token.ofText_append_of_leading ?_, whole⟩
  rw [Trivia.leading, (Trivia.passes_leadingStep_of_trailingStep passed false).walk_eq]
  rfl

/-- A directive that leaves its line open is read before every text that begins with no trivia of its line. -/
theorem ofText_append (h : Standalone form tokens) {text : List Char} (htext : Trivia.trailing text = 0) :
    Token.ofText (Token.render tokens ++ text) = tokens ++ Token.ofText text := by
  obtain ⟨front, close, taken, left, rfl, rfl, length, -, whole⟩ := h.exists_ofText_append text
  obtain rfl : taken = [] := List.length_eq_zero_iff.1 (length.trans htext)
  rw [List.nil_append] at whole ⊢
  simpa using whole

theorem renumber (h : Standalone .located tokens) (line : Nat) : Standalone .located (renumber line tokens) := by
  refine ⟨h.toRead.renumber line, fun close hclose => h.free close ?_⟩
  rw [List.getLast?_eq_getElem?, Directive.renumber, List.length_modify, h.size,
    List.getElem?_modify_ne _ _ (by decide), ← h.size] at hclose
  rw [List.getLast?_eq_getElem?, hclose]

/-- A directive with a new number announces it, wherever it stands, if it is below the bound. -/
theorem announced?_renumber (h : Standalone .located tokens) (line : Nat) (kept : List Char) (others : List Token) :
    announced? (Token.prepend kept (Directive.renumber line tokens) ++ others)
      = (some line).filter (· < lineBound) := by
  have shape : first? (Token.prepend kept (Directive.renumber line tokens) ++ others) = some .located :=
    first?_append ((first?_prepend kept _).trans (h.renumber line).shape) others
  have inside : lineToken < tokens.length := h.size ▸ (by decide : lineToken < Directive.size .located)
  obtain ⟨number, written⟩ := exists_number_renumber inside line
  refine @announced?_of_number _ { number with text := Text.Decimal.write line } line shape ?_ rfl
  rw [List.getElem?_append_left (by simpa [Token.prepend, Directive.renumber] using inside), Token.prepend,
    List.getElem?_modifyHead]
  exact written

/-- The line that a directive announces is written on one line. -/
theorem newlines_renumber (h : Standalone .located tokens) (line : Nat) :
    Text.newlines (Token.render (Directive.renumber line tokens)) = Text.newlines (Token.render tokens) := by
  obtain ⟨head, paren, arguments, rfl, -, -, ⟨hform, -⟩ | ⟨-, hlocates⟩⟩ := first?_cases h.shape
  · cases hform
  obtain ⟨file, fileColon, path, comma, label, colon, number, close, rest, rfl, -, -, -, -, -, -, -, hnumber, -⟩ :=
    locates_cases hlocates
  obtain ⟨others, hothers, hlexed⟩ := h.read
  have atNumber := @Token.Lexed.of_append [head, paren, file, fileColon, path, comma, label, colon]
    (number :: close :: (rest ++ others)) (by simpa using hlexed) (by simp)
  have old : Text.newlines number.text = 0 :=
    List.count_eq_zero.2 (Token.newline_not_mem_of_kind_eq_integer atNumber.next_eq hnumber)
  simp only [Directive.renumber, lineToken, List.modify_succ_cons, List.modify_zero_cons, Token.render_cons,
    Token.source, Text.newlines_append, old, Text.newlines_write]

theorem free_withLeading {head : Token} {rest : List Token} (h : Standalone form (head :: rest))
    (leading : List Char) : ∀ close, ({ head with leading := leading } :: rest).getLast? = some close →
      Trivia.LeavesOpen close.trailing := by
  intro close hclose
  cases rest with
  | nil =>
    obtain rfl := Option.some.inj hclose
    exact h.free head rfl
  | cons paren arguments => exact h.free close hclose

theorem withLeading {head : Token} {rest : List Token} (h : Standalone form (head :: rest)) {leading : List Char}
    (fresh : leading = [] ∨ leading = ['\n'] ∨ ∃ before indent,
      head.leading = before ++ '\n' :: indent ∧ Trivia.Whole before ∧ leading = '\n' :: indent) :
    Standalone form ({ head with leading := leading } :: rest) :=
  ⟨h.toRead.withLeading fresh, h.free_withLeading leading⟩

end Standalone

end Directive

end SwiftTemplate.Swift
