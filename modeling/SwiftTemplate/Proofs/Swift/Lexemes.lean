import SwiftTemplate.Proofs.Swift.Scanning

/-!
# Lexemes before other texts

A token that ends before some text ends there before every text that begins alike, and is of the
same kind.
-/
namespace SwiftTemplate.Swift

open Text (Breaks Alike isMark Passes walk run)

namespace Word

theorem isInside_newline : isInside '\n' = false := by decide +kernel

theorem isInside_of_isStart {c : Char} (h : isStart c = true) : isInside c = true := by
  rw [isInside, Bool.or_eq_true]
  exact .inl h

end Word

namespace Number

theorem digitAhead_of_alike {u v : List Char} (h : Alike u v) (hv : digitAhead v = true) : digitAhead u = true := by
  cases hu : digitAhead u with
  | true => rfl
  | false =>
    rw [digitAhead, h.any_head?_eq_false (by decide) hu] at hv
    cases hv

theorem run_pos_of_digitAhead {s : List Char} (h : digitAhead s = true) : 0 < run isDigitOrGap s := by
  cases s with
  | nil => cases h
  | cons c s =>
    have digit : Text.Decimal.isDigit c = true := h
    simp [Text.run_cons, isDigitOrGap, digit]

theorem digitAhead_append {u v w : List Char} (hw : w ≠ []) : digitAhead (w ++ v) = digitAhead (w ++ u) := by
  obtain ⟨c, w, rfl⟩ := List.exists_cons_of_ne_nil hw
  rfl

theorem fraction_eq_zero_of_alike {u v : List Char} (h : Alike u v) (hu : fraction u = 0) : fraction v = 0 := by
  cases v with
  | nil => rfl
  | cons c v =>
    rw [fraction]
    split
    · next both =>
      simp only [Bool.and_eq_true, decide_eq_true_eq] at both
      obtain ⟨rfl, digit⟩ := both
      obtain ⟨u, rfl, further⟩ := h.exists_cons (by decide)
      simp [fraction, digitAhead_of_alike further digit] at hu
    · rfl

theorem fraction_append_alike {u v w : List Char} (h : Alike u v) (hle : fraction (w ++ u) ≤ w.length) :
    fraction (w ++ v) = fraction (w ++ u) := by
  rcases Nat.eq_zero_or_pos (fraction (w ++ u)) with none | positive
  · rw [none, fraction_eq_zero_of_alike (h.append w) none]
  cases w with
  | nil => exact absurd hle (Nat.not_le.2 positive)
  | cons c w =>
    simp only [List.cons_append, fraction, List.length_cons] at hle positive ⊢
    split at positive
    · next both =>
      rw [if_pos both] at hle
      rw [if_pos both]
      have digit := run_pos_of_digitAhead (Bool.and_eq_true_iff.1 both).2
      have hw : w ≠ [] := by
        rintro rfl
        simp only [List.nil_append, List.length_nil] at hle digit
        omega
      rw [if_pos (by rw [digitAhead_append (u := u) hw]; exact both),
        Text.run_append_alike (by decide) h w (by omega)]
    · omega

/-- Whether a text begins with a sign. -/
def signAhead (s : List Char) : Bool := s.head? = some '+' || s.head? = some '-'

theorem exponent_cons (c : Char) (rest : List Char) : exponent (c :: rest) =
    if c = 'e' || c = 'E' then
      if digitAhead (rest.drop (signAhead rest).toNat) then
        1 + (signAhead rest).toNat + run isDigitOrGap (rest.drop (signAhead rest).toNat)
      else 0
    else 0 := by
  have sign : (if rest.head? = some '+' || rest.head? = some '-' then 1 else 0) = (signAhead rest).toNat := by
    unfold signAhead
    cases (decide (rest.head? = some '+') || decide (rest.head? = some '-')) <;> rfl
  simp only [exponent, sign]

theorem signAhead_append {u v w : List Char} (hw : w ≠ []) : signAhead (w ++ v) = signAhead (w ++ u) := by
  obtain ⟨c, w, rfl⟩ := List.exists_cons_of_ne_nil hw
  rfl

theorem exponent_eq_zero_of_alike {u v : List Char} (h : Alike u v) (hu : exponent u = 0) : exponent v = 0 := by
  cases v with
  | nil => rfl
  | cons c v =>
    rw [exponent_cons]
    split
    · next letter =>
      obtain ⟨u, rfl, further⟩ := h.exists_cons (by
        rcases Bool.or_eq_true_iff.1 letter with hc | hc <;> (rw [of_decide_eq_true hc]; decide))
      rw [exponent_cons, if_pos letter] at hu
      split at hu
      · omega
      next undigited =>
      rw [if_neg]
      intro digit
      apply undigited
      cases sign : signAhead v with
      | true =>
        obtain ⟨d, v, rfl⟩ : ∃ d v', v = d :: v' := by
          cases v with
          | nil => cases sign
          | cons d v => exact ⟨d, v, rfl⟩
        obtain ⟨u, rfl, behind⟩ := further.exists_cons (by
          rcases Bool.or_eq_true_iff.1 sign with hd | hd <;>
            (rw [Option.some.inj (of_decide_eq_true hd)]; decide))
        rw [show signAhead (d :: u) = true from sign]
        rw [sign] at digit
        exact digitAhead_of_alike behind digit
      | false =>
        rw [sign] at digit
        have ahead := digitAhead_of_alike further digit
        have unsigned : signAhead u = false := by
          cases u with
          | nil => rfl
          | cons d u =>
            have isDigit : Text.Decimal.isDigit d = true := ahead
            cases hs : signAhead (d :: u) with
            | false => rfl
            | true =>
              rcases Bool.or_eq_true_iff.1 hs with hd | hd <;>
                (rw [Option.some.inj (of_decide_eq_true hd)] at isDigit; revert isDigit; decide)
        rw [unsigned]
        exact ahead
    · rfl

theorem exponent_append_alike {u v w : List Char} (h : Alike u v) (hle : exponent (w ++ u) ≤ w.length) :
    exponent (w ++ v) = exponent (w ++ u) := by
  rcases Nat.eq_zero_or_pos (exponent (w ++ u)) with none | positive
  · rw [none, exponent_eq_zero_of_alike (h.append w) none]
  cases w with
  | nil => exact absurd hle (Nat.not_le.2 positive)
  | cons c w =>
    simp only [List.cons_append, exponent_cons, List.length_cons] at hle positive ⊢
    split at positive
    · next letter =>
      rw [if_pos letter] at hle
      rw [if_pos letter, if_pos letter]
      split at positive
      · next digit =>
        rw [if_pos digit] at hle
        have run_pos := run_pos_of_digitAhead digit
        have hw : w ≠ [] := by
          rintro rfl
          simp only [List.nil_append, List.length_nil] at hle run_pos
          omega
        rw [signAhead_append (u := u) (v := v) hw, if_pos digit]
        have short : (signAhead (w ++ u)).toNat ≤ w.length := by omega
        rw [List.drop_append_of_le_length short] at hle digit run_pos ⊢
        rw [List.drop_append_of_le_length short]
        have hdrop : w.drop (signAhead (w ++ u)).toNat ≠ [] := by
          intro hnil
          have := congrArg List.length hnil
          rw [hnil] at hle run_pos
          simp only [List.nil_append, List.length_nil, List.length_drop] at hle run_pos this
          omega
        rw [if_pos (by rw [digitAhead_append (u := u) hdrop]; exact digit),
          Text.run_append_alike (by decide) h _ (by simp only [List.length_drop]; omega)]
      · omega
    · omega

theorem beginsRadix_append_alike {u v w : List Char} (h : Alike u v) (c : Char)
    (hinside : beginsRadix c (w ++ u) = true → w ≠ []) : beginsRadix c (w ++ v) = beginsRadix c (w ++ u) := by
  cases w with
  | cons d w => rfl
  | nil =>
    simp only [List.nil_append] at hinside ⊢
    cases hu : beginsRadix c u with
    | true => exact absurd rfl (hinside hu)
    | false =>
      cases hv : beginsRadix c v with
      | false => rfl
      | true =>
        simp only [beginsRadix, Bool.and_eq_true, Bool.or_eq_true, decide_eq_true_eq] at hv
        obtain ⟨rfl, (hx | hx) | hx⟩ := hv <;>
          simp [beginsRadix, h.head?_eq_some (by decide) hx] at hu

theorem measure_append_alike {u v w : List Char} (h : Alike u v) {c : Char}
    (hle : (measure c (w ++ u)).2 = w.length) : measure c (w ++ v) = measure c (w ++ u) := by
  unfold measure at hle ⊢
  by_cases radix : beginsRadix c (w ++ u) = true
  · rw [if_pos radix] at hle
    dsimp only at hle
    have hw : w ≠ [] := by
      rintro rfl
      simp only [List.length_nil] at hle
      omega
    rw [if_pos radix, if_pos (by rw [beginsRadix_append_alike h c fun _ => hw]; exact radix)]
    obtain ⟨d, w, rfl⟩ := List.exists_cons_of_ne_nil hw
    simp only [List.cons_append, List.drop_succ_cons, List.drop_zero, List.length_cons] at hle ⊢
    rw [Text.run_append_alike (by decide) h w (by omega)]
  · rw [if_neg radix] at hle
    rw [if_neg radix, if_neg (by rw [beginsRadix_append_alike h c fun hu => absurd hu radix]; exact radix)]
    dsimp only at hle ⊢
    have whole := Text.run_append_alike (p := isDigitOrGap) (by decide) h w (by omega)
    rw [whole]
    generalize run isDigitOrGap (w ++ u) = digits at *
    rw [@List.drop_append_of_le_length _ w _ digits (by omega)] at hle ⊢
    rw [@List.drop_append_of_le_length _ w _ digits (by omega)]
    rw [fraction_append_alike h (by simp only [List.length_drop]; omega)]
    generalize fraction (w.drop digits ++ u) = part at *
    rw [@List.drop_append_of_le_length _ w _ (digits + part) (by omega)] at hle ⊢
    rw [@List.drop_append_of_le_length _ w _ (digits + part) (by omega)]
    rw [exponent_append_alike h (by simp only [List.length_drop]; omega)]
    generalize exponent (w.drop (digits + part) ++ u) = power at *
    rw [@List.drop_append_of_le_length _ w _ (digits + part + power) (by omega)] at hle ⊢
    rw [@List.drop_append_of_le_length _ w _ (digits + part + power) (by omega)]
    rw [Text.run_append_alike Word.isInside_newline h _ (by simp only [List.length_drop]; omega)]

theorem fraction_le (s : List Char) : fraction s ≤ s.length := by
  cases s with
  | nil => exact Nat.le_refl _
  | cons c s =>
    have := Text.run_le_length isDigitOrGap s
    rw [fraction, List.length_cons]
    split <;> omega

theorem exponent_le (s : List Char) : exponent s ≤ s.length := by
  cases s with
  | nil => exact Nat.le_refl _
  | cons c s =>
    have digits := Text.run_le_length isDigitOrGap (s.drop (signAhead s).toNat)
    rw [List.length_drop] at digits
    rw [exponent_cons, List.length_cons]
    split
    · split
      · next digit =>
        have := run_pos_of_digitAhead digit
        omega
      · exact Nat.zero_le _
    · exact Nat.zero_le _

theorem measure_le (c : Char) (rest : List Char) : (measure c rest).2 ≤ rest.length := by
  unfold measure
  dsimp only
  split
  · next radix =>
    have := Text.run_le_length isRadixDigitOrGap (rest.drop 1)
    have : rest ≠ [] := by
      rintro rfl
      simp [beginsRadix] at radix
    have := List.length_pos_iff.2 this
    simp only [List.length_drop] at *
    omega
  · have whole := Text.run_le_length isDigitOrGap rest
    have part := fraction_le (rest.drop (run isDigitOrGap rest))
    have power := exponent_le (rest.drop (run isDigitOrGap rest + fraction (rest.drop (run isDigitOrGap rest))))
    have suffix := Text.run_le_length Word.isInside (rest.drop (run isDigitOrGap rest
      + fraction (rest.drop (run isDigitOrGap rest))
      + exponent (rest.drop (run isDigitOrGap rest + fraction (rest.drop (run isDigitOrGap rest))))))
    simp only [List.length_drop] at part power suffix
    dsimp only
    omega

theorem newline_not_mem_take_fraction (s : List Char) : '\n' ∉ s.take (fraction s) := by
  cases s with
  | nil => simp
  | cons c s =>
    have digits : '\n' ∉ s.take (run isDigitOrGap s) := Text.newline_not_mem_take_run (by decide) s
    rw [fraction]
    split
    · next both =>
      have point : c = '.' := of_decide_eq_true (Bool.and_eq_true_iff.1 both).1
      rw [Nat.add_comm, List.take_succ_cons, List.mem_cons, not_or, point]
      exact ⟨by decide, digits⟩
    · simp

theorem newline_not_mem_take_sign (s : List Char) : '\n' ∉ s.take (signAhead s).toNat := by
  cases s with
  | nil => simp
  | cons d s =>
    cases ahead : signAhead (d :: s) with
    | false => simp
    | true =>
      simp only [signAhead, List.head?_cons, Option.some.injEq, Bool.or_eq_true, decide_eq_true_eq] at ahead
      rcases ahead with rfl | rfl <;> simp

theorem newline_not_mem_take_exponent (s : List Char) : '\n' ∉ s.take (exponent s) := by
  cases s with
  | nil => simp
  | cons c s =>
    have digits : '\n' ∉ (s.drop (signAhead s).toNat).take (run isDigitOrGap (s.drop (signAhead s).toNat)) :=
      Text.newline_not_mem_take_run (by decide) _
    rw [exponent_cons]
    split
    · next letter =>
      split
      · rw [Nat.add_assoc, Nat.add_comm, List.take_succ_cons, List.mem_cons, not_or]
        refine ⟨?_, Text.not_mem_take_add (newline_not_mem_take_sign s) digits⟩
        rintro rfl
        cases letter
      · simp
    · simp

theorem newline_not_mem_take_letter {c : Char} {rest : List Char} (h : beginsRadix c rest = true) :
    '\n' ∉ rest.take 1 := by
  cases rest with
  | nil => simp
  | cons letter rest =>
    simp only [beginsRadix, Bool.and_eq_true, Bool.or_eq_true, decide_eq_true_eq] at h
    rw [List.take_succ_cons, List.take_zero, List.mem_singleton]
    rintro rfl
    simp at h

/-- A number has no line break. -/
theorem newline_not_mem_take_measure (c : Char) (rest : List Char) : '\n' ∉ rest.take (measure c rest).2 := by
  have runs (p : Char → Bool) (hp : p '\n' = false) (s : List Char) : '\n' ∉ s.take (run p s) :=
    Text.newline_not_mem_take_run hp s
  unfold measure
  by_cases radix : beginsRadix c rest = true
  · rw [if_pos radix]
    exact Text.not_mem_take_add (newline_not_mem_take_letter radix) (runs isRadixDigitOrGap (by decide) _)
  · rw [if_neg radix]
    refine Text.not_mem_take_add (Text.not_mem_take_add (Text.not_mem_take_add ?_ ?_) ?_) ?_
    · exact runs isDigitOrGap (by decide) rest
    · exact newline_not_mem_take_fraction _
    · exact newline_not_mem_take_exponent _
    · exact runs Word.isInside Word.isInside_newline _

end Number

/-! ## Lexemes -/

namespace Lexeme

theorem operatorExtent_eq_zero_of_alike {u v : List Char} (h : Alike u v)
    (hcomment : Comment.begins u = true → Comment.begins v = true ∨ Breaks v) (hu : operatorExtent u = 0) :
    operatorExtent v = 0 := by
  have broken (breaks : Breaks v) : operatorExtent v = 0 := by
    rcases breaks.cases with rfl | ⟨rest, rfl⟩
    · rfl
    · simp [operatorExtent, isOperatorChar]
  have commented (begins : Comment.begins v = true) : operatorExtent v = 0 := by
    cases v with
    | nil => rfl
    | cons c v =>
      rw [Comment.begins, Bool.or_eq_true] at begins
      simp [operatorExtent, begins, or_assoc]
  rcases h.head?_cases with breaks | same
  · exact broken breaks
  cases u with
  | nil => rw [List.head?_eq_none_iff.1 same]; rfl
  | cons c u =>
    obtain ⟨v, rfl⟩ := List.head?_eq_some_iff.1 same
    rw [operatorExtent] at hu
    split at hu
    · next stops =>
      rw [Bool.or_assoc, Bool.or_eq_true] at stops
      rcases stops with other | begins
      · simp [operatorExtent, other]
      · exact (hcomment begins).elim commented broken
    · omega

theorem operatorExtent_append_alike {u v w : List Char} (h : Alike u v)
    (hcomment : Comment.begins u = true → Comment.begins v = true ∨ Breaks v)
    (hle : operatorExtent (w ++ u) = w.length) : operatorExtent (w ++ v) = w.length := by
  induction w with
  | nil => exact operatorExtent_eq_zero_of_alike h hcomment hle
  | cons c w ih =>
    simp only [List.cons_append, operatorExtent, List.length_cons] at hle ⊢
    split at hle
    · omega
    · next goes =>
      rw [Bool.or_eq_true, Bool.or_eq_true, not_or, not_or] at goes
      rw [if_neg, ih (by omega)]
      · omega
      · rw [Comment.beginsLine_append_eq (Comment.fronts_of_alike h) c w fun hu => absurd hu goes.1.2,
          Comment.beginsBlock_append_eq (Comment.fronts_of_alike h) c w fun hu => absurd hu goes.2]
        simpa [and_assoc] using goes

theorem quotedExtent_append_alike {u v w : List Char} (h : Alike u v) (hle : quotedExtent (w ++ u) = w.length) :
    quotedExtent (w ++ v) = quotedExtent (w ++ u) := by
  unfold quotedExtent at hle ⊢
  dsimp only at hle ⊢
  have name := Text.run_append_alike (p := fun c => decide (c ≠ '\x60') && decide (c ≠ '\n')) (by decide) h w
    (by split at hle <;> omega)
  rw [name]
  generalize run (fun c => decide (c ≠ '\x60') && decide (c ≠ '\n')) (w ++ u) = n at *
  rw [@List.drop_append_of_le_length _ w _ n (by split at hle <;> omega)] at hle ⊢
  rw [@List.drop_append_of_le_length _ w _ n (by split at hle <;> omega)]
  have same := head?_append_eq (h.head?_eq_some (c := '\x60') (by decide)) (w.drop n) fun hu hnil => by
    rw [if_pos hu] at hle
    have := congrArg List.length hnil
    simp only [List.length_drop, List.length_nil] at this
    omega
  simp only [same]

/-- Whether hashes, or none, are followed by a quote. -/
def quotes (s : List Char) : Bool := (s.drop (run (fun c => decide (c = '#')) s)).head? = some '"'

theorem quotes_cons (c : Char) (s : List Char) : quotes (c :: s) = if c = '#' then quotes s else decide (c = '"') := by
  by_cases hash : c = '#'
  · simp [quotes, Text.run_cons, hash]
  · simp [quotes, Text.run_cons, hash]

theorem quotes_of_alike {u v : List Char} (h : Alike u v) (hv : quotes v = true) : quotes u = true := by
  induction v generalizing u with
  | nil => cases hv
  | cons c v ih =>
    rw [quotes_cons] at hv
    split at hv
    · next hash =>
      obtain ⟨u, rfl, further⟩ := h.exists_cons (by rw [hash]; decide)
      rw [quotes_cons, if_pos hash, ih further hv]
    · next hash =>
      obtain ⟨u, rfl, -⟩ := h.exists_cons (by rw [of_decide_eq_true hv]; decide)
      rw [quotes_cons, if_neg hash, hv]

theorem pound_of_not_quotes {rest : List Char} (h : quotes rest = false) :
    pound rest
      = if rest.head?.any Word.isStart then ⟨.pound, run Word.isInside rest, false⟩ else ⟨.unknown, 0, false⟩ := by
  have unquoted : (rest.drop (run (fun c => decide (c = '#')) rest)).head? ≠ some '"' := by simpa [quotes] using h
  unfold pound
  dsimp only
  split
  · next heq => simp [heq] at unquoted
  · cases rest with
    | nil => simp
    | cons c rest =>
      by_cases hash : c = '#'
      · have : Word.isStart '#' = false := by decide +kernel
        simp [Text.run_cons, hash, this]
      · simp [Text.run_cons, hash]

theorem pound_of_drop_eq {rest behind : List Char}
    (h : rest.drop (run (fun c => decide (c = '#')) rest) = '"' :: behind) :
    pound rest = ⟨.string, run (fun c => decide (c = '#')) rest + 1
        + (Literal.measure (run (fun c => decide (c = '#')) rest + 1) behind).extent,
      !(Literal.measure (run (fun c => decide (c = '#')) rest + 1) behind).closed⟩ := by
  unfold pound
  simp only [h]

theorem pound_append_of_quotes {u v w : List Char} (h : Literal.Stops u v) (quoted : quotes (w ++ u) = true)
    (hle : (pound (w ++ u)).extent = w.length) (ends : (pound (w ++ u)).unterminated = true → u ≠ []) :
    pound (w ++ v) = pound (w ++ u) := by
  obtain ⟨behind, hbehind⟩ := List.head?_eq_some_iff.1 (of_decide_eq_true quoted)
  rw [pound_of_drop_eq hbehind] at hle ends ⊢
  have long : run (fun c => decide (c = '#')) (w ++ u) < w.length := by
    dsimp only at hle
    omega
  have hashes := Text.run_append_eq (p := fun c => decide (c = '#')) (h.fronts.any_head?_eq_false rfl) w
    (Nat.le_of_lt long)
  generalize run (fun c => decide (c = '#')) (w ++ u) = more at *
  rw [List.drop_append_of_le_length (Nat.le_of_lt long)] at hbehind
  obtain ⟨d, inside, hinside⟩ : ∃ d inside, w.drop more = d :: inside :=
    List.exists_cons_of_ne_nil fun hnil => by
      have := congrArg List.length hnil
      simp only [List.length_drop, List.length_nil] at this
      omega
  have room := congrArg List.length hinside
  rw [hinside] at hbehind
  obtain ⟨rfl, rfl⟩ := List.cons.inj hbehind
  have again : (w ++ v).drop (run (fun c => decide (c = '#')) (w ++ v)) = '"' :: (inside ++ v) := by
    rw [hashes, List.drop_append_of_le_length (Nat.le_of_lt long), hinside]
    rfl
  rw [pound_of_drop_eq again, hashes]
  simp only [List.length_drop, List.length_cons, Bool.not_eq_true', List.append_eq] at hle ends room ⊢
  rw [Literal.measure_append_eq h (by omega) ends]

theorem pound_append_alike {u v w : List Char} (h : Alike u v) (hle : (pound (w ++ u)).extent = w.length)
    (ends : (pound (w ++ u)).unterminated = true → u ≠ []) : pound (w ++ v) = pound (w ++ u) := by
  cases hu : quotes (w ++ u) with
  | true => exact pound_append_of_quotes (Literal.stops_of_alike h) hu hle ends
  | false =>
    have hv : quotes (w ++ v) = false := by
      cases hv : quotes (w ++ v) with
      | false => rfl
      | true => rw [quotes_of_alike (h.append w) hv] at hu; cases hu
    rw [pound_of_not_quotes hu] at hle
    rw [pound_of_not_quotes hu, pound_of_not_quotes hv]
    cases hw : w with
    | nil =>
      have nameless : u.head?.any Word.isStart = false := by
        cases hstart : u.head?.any Word.isStart with
        | false => rfl
        | true =>
          rw [hw, List.nil_append, hstart, if_pos rfl] at hle
          have unread := Text.any_head?_of_run_eq_zero hle
          cases u with
          | nil => cases hstart
          | cons c u => simp [Word.isInside_of_isStart hstart] at unread
      simp only [List.nil_append, nameless, h.any_head?_eq_false (p := Word.isStart) (by decide +kernel) nameless]
      rfl
    | cons d w =>
      simp only [hw, List.cons_append, List.head?_cons, Option.any_some, List.length_cons] at hle ⊢
      by_cases start : Word.isStart d = true
      · simp only [if_pos start, Text.run_cons, Word.isInside_of_isStart start, if_true] at hle ⊢
        rw [Text.run_append_alike Word.isInside_newline h w (by omega)]
      · rw [if_neg start] at hle
        cases hle

/-! ## Bounds -/

theorem operatorExtent_le (s : List Char) : operatorExtent s ≤ s.length := by
  induction s with
  | nil => exact Nat.le_refl _
  | cons c s ih =>
    rw [operatorExtent, List.length_cons]
    split <;> omega

theorem quotedExtent_le (rest : List Char) : quotedExtent rest ≤ rest.length := by
  unfold quotedExtent
  dsimp only
  split
  · next closes =>
    exact Text.lt_length_of_head?_drop closes
  · exact Text.run_le_length _ rest

theorem extent_pound_le (rest : List Char) : (pound rest).extent ≤ rest.length := by
  cases h : quotes rest with
  | true =>
    obtain ⟨behind, hbehind⟩ := List.head?_eq_some_iff.1 (of_decide_eq_true h)
    have room := congrArg List.length hbehind
    simp only [List.length_drop, List.length_cons] at room
    have := Literal.extent_measure_le (run (fun c => decide (c = '#')) rest + 1) behind
    rw [pound_of_drop_eq hbehind]
    dsimp only
    omega
  | false =>
    rw [pound_of_not_quotes h]
    split
    · exact Text.run_le_length _ rest
    · exact Nat.zero_le _

theorem extent_readLong_le (c : Char) (rest : List Char) : (readLong c rest).extent ≤ rest.length := by
  unfold readLong
  dsimp only
  split
  · exact Literal.extent_measure_le 0 rest
  split
  · exact extent_pound_le rest
  split
  · exact quotedExtent_le rest
  split
  · exact Text.run_le_length _ rest
  split
  · exact Number.measure_le c rest
  split
  · split
    · exact Text.run_le_length _ rest
    · exact Nat.zero_le _
  split
  · exact operatorExtent_le rest
  split
  · exact Text.run_le_length _ rest
  · exact Nat.zero_le _

/-- No token reaches beyond the text. -/
theorem extent_read_le (c : Char) (rest : List Char) : (read c rest).extent ≤ rest.length := by
  unfold read
  split
  · exact Nat.zero_le _
  · exact extent_readLong_le c rest

/-! ## Tokens before other texts -/

theorem readLong_append_alike {u v w : List Char} (h : Alike u v)
    (hcomment : Comment.begins u = true → Comment.begins v = true ∨ Breaks v) {c : Char}
    (hle : (readLong c (w ++ u)).extent = w.length)
    (ends : (readLong c (w ++ u)).unterminated = true → u ≠ []) :
    readLong c (w ++ v) = readLong c (w ++ u) := by
  by_cases quote : c = '"'
  · simp only [readLong, if_pos quote, Bool.not_eq_true'] at hle ends ⊢
    rw [Literal.measure_append_eq (Literal.stops_of_alike h) hle ends]
  by_cases hash : c = '#'
  · simp only [readLong, if_neg quote, if_pos hash] at hle ends ⊢
    exact pound_append_alike h hle ends
  by_cases tick : c = '\x60'
  · simp only [readLong, if_neg quote, if_neg hash, if_pos tick] at hle ⊢
    rw [quotedExtent_append_alike h hle]
  by_cases dollar : c = '$'
  · simp only [readLong, if_neg quote, if_neg hash, if_neg tick, if_pos dollar] at hle ⊢
    rw [Text.run_append_alike Word.isInside_newline h w (Nat.le_of_eq hle)]
  by_cases digit : Text.Decimal.isDigit c = true
  · simp only [readLong, if_neg quote, if_neg hash, if_neg tick, if_neg dollar, if_pos digit] at hle ⊢
    rw [Number.measure_append_alike h hle]
  by_cases point : c = '.'
  · simp only [readLong, if_neg quote, if_neg hash, if_neg tick, if_neg dollar, if_neg digit, if_pos point] at hle ⊢
    have nonempty (points : (w ++ u).head? = some '.') : w ≠ [] := by
      rintro rfl
      obtain ⟨rest, rfl⟩ := List.head?_eq_some_iff.1 points
      simp [Text.run_cons] at hle
    simp only [head?_append_eq (h.head?_eq_some (by decide)) w nonempty]
    by_cases points : (w ++ u).head? = some '.'
    · simp only [if_pos points] at hle ⊢
      rw [Text.run_append_alike (by decide) h w (Nat.le_of_eq hle)]
    · simp only [if_neg points]
  by_cases operator : isOperatorChar c = true
  · simp only [readLong, if_neg quote, if_neg hash, if_neg tick, if_neg dollar, if_neg digit, if_neg point,
      if_pos operator] at hle ⊢
    rw [operatorExtent_append_alike h hcomment hle, hle, List.take_left, List.take_left]
  by_cases word : Word.isStart c = true
  · simp only [readLong, if_neg quote, if_neg hash, if_neg tick, if_neg dollar, if_neg digit, if_neg point,
      if_neg operator, if_pos word] at hle ⊢
    rw [Text.run_append_alike Word.isInside_newline h w (Nat.le_of_eq hle), hle, List.take_left, List.take_left]
  · simp only [readLong, if_neg quote, if_neg hash, if_neg tick, if_neg dollar, if_neg digit, if_neg point,
      if_neg operator, if_neg word]

/-! ## Punctuation -/

/-- Whether a kind is that of a mark of punctuation. -/
def isPunctuation (kind : Kind) : Bool := punctuation.any (·.2 = kind)

private theorem isPunctuation_pound (rest : List Char) : isPunctuation (pound rest).kind = false := by
  unfold pound
  dsimp only
  repeat' split
  all_goals rfl

private theorem isPunctuation_readLong (c : Char) (rest : List Char) : isPunctuation (readLong c rest).kind = false := by
  unfold readLong Number.measure operatorKind wordKind
  dsimp only
  repeat' split
  all_goals first
    | rfl
    | exact isPunctuation_pound rest

/-- Only a mark of punctuation is read as one. -/
theorem lookup_of_isPunctuation {c : Char} {rest : List Char} (h : isPunctuation (read c rest).kind = true) :
    punctuation.lookup c = some (read c rest).kind := by
  unfold read at h ⊢
  cases hlookup : punctuation.lookup c with
  | none =>
    simp only [hlookup] at h
    rw [isPunctuation_readLong] at h
    cases h
  | some kind => rfl

theorem read_of_lookup {c : Char} {kind : Kind} (h : punctuation.lookup c = some kind) (rest : List Char) :
    read c rest = ⟨kind, 0, false⟩ := by
  simp only [read, h]

/-- The kind of a mark of punctuation tells the mark. -/
theorem eq_of_mem_punctuation {mark c : Char} {rest : List Char} {kind : Kind} (listed : (mark, kind) ∈ punctuation)
    (h : (read c rest).kind = kind) : c = mark ∧ (read c rest).extent = 0 := by
  have single : ∀ entry ∈ punctuation, ∀ other ∈ punctuation, entry.2 = other.2 → entry.1 = other.1 := by decide
  have found : punctuation.lookup c = some kind := by
    rw [← h]
    refine lookup_of_isPunctuation ?_
    rw [h]
    exact List.any_eq_true.2 ⟨(mark, kind), listed, decide_eq_true rfl⟩
  obtain ⟨before, behind, split, -⟩ := List.lookup_eq_some_iff.1 found
  refine ⟨single (c, kind) (by simp [split]) (mark, kind) listed rfl, ?_⟩
  rw [read_of_lookup found]

/-! ## Exchanging what follows -/

/-- A token that ends before `u` is read there before `v`. -/
theorem read_append_alike {u v w : List Char} (h : Alike u v)
    (hcomment : Comment.begins u = true → Comment.begins v = true ∨ Breaks v) {c : Char}
    (hle : (read c (w ++ u)).extent = w.length) (ends : (read c (w ++ u)).unterminated = true → u ≠ []) :
    read c (w ++ v) = read c (w ++ u) := by
  unfold read at hle ends ⊢
  split
  · rfl
  · next none =>
    rw [none] at hle ends
    exact readLong_append_alike h hcomment hle ends

private theorem kind_pound_of_unterminated {rest : List Char} (h : (pound rest).unterminated = true) :
    (pound rest).kind = .string := by
  unfold pound at h ⊢
  dsimp only at h ⊢
  split at h
  · rfl
  · split at h <;> cases h

private theorem kind_readLong_of_unterminated {c : Char} {rest : List Char}
    (h : (readLong c rest).unterminated = true) : (readLong c rest).kind = .string := by
  by_cases quote : c = '"'
  · simp only [readLong, if_pos quote]
  by_cases hash : c = '#'
  · simp only [readLong, if_neg quote, if_pos hash] at h ⊢
    exact kind_pound_of_unterminated h
  · simp only [readLong, if_neg quote, if_neg hash] at h
    repeat' split at h
    all_goals cases h

/-- Only string literals are left unterminated. -/
theorem kind_of_unterminated {c : Char} {rest : List Char} (h : (read c rest).unterminated = true) :
    (read c rest).kind = .string := by
  unfold read at h ⊢
  cases hlookup : punctuation.lookup c with
  | none =>
    simp only [hlookup] at h
    exact kind_readLong_of_unterminated h
  | some kind =>
    simp only [hlookup] at h
    cases h

private theorem kind_pound_ne_integer (rest : List Char) : (pound rest).kind ≠ .integer := by
  unfold pound
  dsimp only
  repeat' split
  all_goals simp

/-- An integer has no line break. -/
theorem newline_not_mem_of_kind_eq_integer {c : Char} {w s : List Char} (h : (read c (w ++ s)).kind = .integer)
    (hextent : (read c (w ++ s)).extent = w.length) : '\n' ∉ c :: w := by
  unfold read at h hextent
  cases hlookup : punctuation.lookup c with
  | some kind =>
    have listed : ∀ entry ∈ punctuation, entry.2 ≠ .integer := by decide
    obtain ⟨before, behind, split, -⟩ := List.lookup_eq_some_iff.1 hlookup
    rw [hlookup] at h
    exact absurd h (listed (c, kind) (by simp [split]))
  | none =>
    rw [hlookup] at h hextent
    dsimp only at h hextent
    by_cases digit : Text.Decimal.isDigit c = true
    · have other : ∀ d, Text.Decimal.isDigit d = false → c ≠ d := by
        rintro d hd rfl
        exact absurd (digit.symm.trans hd) (by decide)
      simp only [readLong, if_neg (other '"' (by decide)), if_neg (other '#' (by decide)),
        if_neg (other '\x60' (by decide)), if_neg (other '$' (by decide)), if_pos digit] at h hextent
      have measured := Number.newline_not_mem_take_measure c (w ++ s)
      rw [hextent, List.take_left] at measured
      simp [measured, (other '\n' (by decide)).symm]
    · exfalso
      unfold readLong operatorKind wordKind at h
      dsimp only at h
      repeat' split at h
      all_goals simp_all [kind_pound_ne_integer]

end Lexeme

end SwiftTemplate.Swift
