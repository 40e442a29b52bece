import SwiftTemplate.Swift.Token
import SwiftTemplate.Proofs.Swift.Lexemes

/-!
# Reading before other texts

A token with the trivia around it is read the same when the text behind it is exchanged for one
that resembles it: that ends a line at the place up to which both are the same, or has the same
mark there.
-/
namespace SwiftTemplate.Swift

open Text (Breaks Alike isMark Passes walk run)

/-- The text `v` is `u` up to a place where a line ends in `v`, unless that place cuts the first two
characters of a comment apart, or up to a mark that is not inside the trivia at their start. -/
inductive Resembles : List Char → List Char → Prop
  | breaks {q y z : List Char} (h : Breaks z) (apart : Comment.begins (q ++ y) = true → q.length ≠ 1) :
      Resembles (q ++ y) (q ++ z)
  | mark {q y z : List Char} {c : Char} (h : isMark c = true)
      (ahead : (Trivia.leading (q ++ c :: y)).1 ≤ q.length) : Resembles (q ++ c :: y) (q ++ c :: z)

theorem Resembles.alike {u v : List Char} (h : Resembles u v) : Alike u v := by
  cases h with
  | breaks h => exact (Alike.breaks h).append _
  | mark h => exact (Alike.mark h).append _

theorem Resembles.refl (u : List Char) : Resembles u u := by
  have := @Resembles.breaks u [] [] Text.breaks_nil fun begins hone => by
    obtain ⟨c, rfl⟩ := List.length_eq_one_iff.1 hone
    simp [Comment.begins, Comment.beginsLine, Comment.beginsBlock] at begins
  simpa using this

/-- The end of a line resembles every text. -/
theorem Resembles.of_breaks (u : List Char) {v : List Char} (h : Breaks v) : Resembles u v := by
  have apart : Comment.begins ([] ++ u) = true → ([] : List Char).length ≠ 1 := by simp
  exact .breaks h apart

/-- No comment of `u` comes to begin nowhere in `v`. -/
theorem Resembles.begins {u v : List Char} (h : Resembles u v) (hu : Comment.begins u = true) :
    Comment.begins v = true ∨ Breaks v := by
  cases h with
  | @breaks q y z h apart =>
    match q with
    | [] => exact .inr h
    | [c] => exact absurd rfl (apart hu)
    | c :: d :: q => exact .inl hu
  | @mark q y z c h =>
    match q with
    | [] =>
      have : c ≠ '/' := by rintro rfl; cases h
      simp [Comment.begins, Comment.beginsLine, Comment.beginsBlock, this] at hu
    | [d] =>
      have slash : c ≠ '/' := by rintro rfl; cases h
      have star : c ≠ '*' := by rintro rfl; cases h
      simp [Comment.begins, Comment.beginsLine, Comment.beginsBlock, slash, star] at hu
    | d :: e :: q => exact .inl hu

namespace Trivia

/-! ## Steps through trivia -/

/-- Whether the block comment before `rest` ends on its line. -/
def stays (rest : List Char) : Bool :=
  (Comment.block rest).closed && !(rest.take (Comment.block rest).extent).contains '\n'

/-- What is passed before a token is a blank, a line comment or a block comment, which may be left open. -/
theorem leadingStep_cases {left_open after : Bool} {c : Char} {rest : List Char} {k : Nat}
    (h : leadingStep left_open c rest = some (k, after)) :
    isSpace c = true ∧ k = 0 ∧ after = left_open ∨
      Comment.beginsLine c rest = true ∧ k = Comment.lineExtent rest ∧ after = left_open ∨
      Comment.beginsLine c rest = false ∧ Comment.beginsBlock c rest = true ∧ k = (Comment.block rest).extent ∧
        after = (left_open || !(Comment.block rest).closed) := by
  unfold leadingStep at h
  split at h
  · next blank =>
    cases h
    exact .inl ⟨blank, rfl, rfl⟩
  split at h
  · next line =>
    cases h
    exact .inr (.inl ⟨line, rfl, rfl⟩)
  next line =>
  split at h
  · next block =>
    cases h
    exact .inr (.inr ⟨Bool.eq_false_iff.2 line, block, rfl, rfl⟩)
  · cases h

/-- What is passed behind a token is a blank, a line comment, or a block comment that ends on its line. -/
theorem trailingStep_cases {c : Char} {rest : List Char} {k : Nat} (h : trailingStep () c rest = some (k, ())) :
    Text.isSpaceOrTab c = true ∧ k = 0 ∨ Comment.beginsLine c rest = true ∧ k = Comment.lineExtent rest ∨
      Comment.beginsLine c rest = false ∧ Comment.beginsBlock c rest = true ∧ stays rest = true ∧
        k = (Comment.block rest).extent := by
  unfold trailingStep at h
  split at h
  · next blank =>
    cases h
    exact .inl ⟨blank, rfl⟩
  split at h
  · next line =>
    cases h
    exact .inr (.inl ⟨line, rfl⟩)
  next line =>
  split at h
  · next block =>
    dsimp only at h
    split at h
    · next hstays =>
      cases h
      exact .inr (.inr ⟨Bool.eq_false_iff.2 line, block, hstays, rfl⟩)
    · cases h
  · cases h

theorem extent_le_of_beginsBlock {c : Char} {rest : List Char} (h : Comment.beginsBlock c rest = true) :
    (Comment.block rest).extent ≤ rest.length := by
  refine Comment.extent_le_length ?_
  rintro rfl
  simp [Comment.beginsBlock] at h

/-! ## Trivia behind a token -/

theorem trailingStep_append_eq {u v : List Char} (h : Comment.Fronts u v) {c : Char} {w : List Char} {k : Nat}
    (taken : trailingStep () c (w ++ u) = some (k, ())) (inside : k ≤ w.length) :
    trailingStep () c (w ++ v) = some (k, ()) := by
  unfold trailingStep at taken ⊢
  by_cases blank : Text.isSpaceOrTab c = true
  · rw [if_pos blank] at taken ⊢
    exact taken
  rw [if_neg blank] at taken
  rw [if_neg blank]
  by_cases line : Comment.beginsLine c (w ++ u) = true
  · rw [if_pos line] at taken
    obtain ⟨rfl, -⟩ := Prod.mk.inj (Option.some.inj taken)
    have hw := List.ne_nil_of_length_pos (Nat.lt_of_lt_of_le (Comment.lineExtent_pos line) inside)
    rw [if_pos (by rw [Comment.beginsLine_append_eq h c w fun _ => hw]; exact line),
      Comment.lineExtent_append_eq h w inside]
  rw [if_neg line] at taken
  rw [if_neg (by rw [Comment.beginsLine_append_eq h c w fun hu => absurd hu line]; exact line)]
  by_cases block : Comment.beginsBlock c (w ++ u) = true
  · rw [if_pos block] at taken
    dsimp only at taken ⊢
    split at taken
    · next stays =>
      obtain ⟨rfl, -⟩ := Prod.mk.inj (Option.some.inj taken)
      have hw := List.ne_nil_of_length_pos (Nat.lt_of_lt_of_le (Comment.extent_pos _) inside)
      rw [if_pos (by rw [Comment.beginsBlock_append_eq h c w fun _ => hw]; exact block)]
      rw [Comment.block_append_of_closed hw (Bool.and_eq_true_iff.1 stays).1 inside v]
      rw [List.take_append_of_le_length inside] at stays ⊢
      rw [if_pos stays]
    · cases taken
  · rw [if_neg block] at taken
    cases taken

theorem passes_trailingStep_congr {u v w : List Char} (h : Comment.Fronts u v)
    (passed : Passes trailingStep u () w ()) :
    Passes trailingStep v () w () :=
  passed.congr fun _ _ _ _ _ taken inside _ => trailingStep_append_eq h taken inside

theorem trailing_eq_zero_iff {s : List Char} :
    trailing s = 0 ↔ ∀ c rest, s = c :: rest → trailingStep () c rest = none := by
  cases s with
  | nil => simp [trailing]
  | cons c rest =>
    constructor
    · rintro h _ _ ⟨⟩
      exact Text.step_eq_none_of_walk (t := ()) (Prod.ext h rfl)
    · intro h
      rw [trailing, Text.walk_halt (h c rest rfl)]

theorem trailing_of_breaks {s : List Char} (h : Breaks s) : trailing s = 0 := by
  rcases h.cases with rfl | ⟨rest, rfl⟩
  · simp [trailing]
  · rw [trailing, Text.walk_halt rfl]

theorem extent_le_of_stays {w z : List Char} (hwz : w ++ z ≠ []) (breaks : Breaks z) (h : stays (w ++ z) = true) :
    (Comment.block (w ++ z)).extent ≤ w.length := by
  have le := Comment.extent_le_length hwz
  rcases breaks.cases with rfl | ⟨rest, rfl⟩
  · simpa using le
  · refine Nat.le_of_not_lt fun hlt => ?_
    have inside := (Bool.and_eq_true_iff.1 h).2
    rw [List.take_append, show (Comment.block (w ++ '\n' :: rest)).extent - w.length
      = ((Comment.block (w ++ '\n' :: rest)).extent - w.length - 1) + 1 by omega] at inside
    simp at inside

/-- Nothing that could follow a token on its line comes to follow it if the comments that do so in
front of `z` end before `z`. -/
private theorem trailingStep_eq_none {q y z : List Char} {c : Char} (fronts : Comment.Fronts y z)
    (hy : trailingStep () c (q ++ y) = none)
    (ends : Comment.beginsBlock c (q ++ y) = true → stays (q ++ z) = true →
      (Comment.block (q ++ z)).extent ≤ q.length) :
    trailingStep () c (q ++ z) = none := by
  unfold trailingStep at hy ⊢
  split at hy
  · cases hy
  next blank =>
  rw [if_neg blank]
  split at hy
  · cases hy
  next line =>
  rw [if_neg fun hz => line ((fronts.append q).beginsLine hz)]
  by_cases block : Comment.beginsBlock c (q ++ z) = true
  · have block' := (fronts.append q).beginsBlock block
    rw [if_pos block'] at hy
    rw [if_pos block]
    dsimp only at hy ⊢
    by_cases hstays : stays (q ++ z) = true
    · have inside := ends block' hstays
      have hq : q ≠ [] := by
        rintro rfl
        exact absurd (Comment.extent_pos ([] ++ z)) (Nat.not_lt.2 inside)
      rw [Comment.block_append_of_closed hq (Bool.and_eq_true_iff.1 hstays).1 inside y] at hy
      rw [stays, List.take_append_of_le_length inside] at hstays
      rw [List.take_append_of_le_length inside, if_pos hstays] at hy
      cases hy
    · exact if_neg hstays
  · rw [if_neg block]

theorem leading_cons_of_beginsBlock {c : Char} {rest : List Char} (h : Comment.beginsBlock c rest = true) :
    (Comment.block rest).extent + 1 ≤ (leading (c :: rest)).1 := by
  obtain ⟨slash, star⟩ := Bool.and_eq_true_iff.1 h
  have slash := of_decide_eq_true slash
  have line : Comment.beginsLine c rest = false := by simp [Comment.beginsLine, of_decide_eq_true star]
  have step : leadingStep false c rest
      = some ((Comment.block rest).extent, false || !(Comment.block rest).closed) := by
    rw [leadingStep, if_neg (by subst slash; decide), if_neg (by simp [line]), if_pos h]
  rw [leading, Text.walk_take step]
  exact Nat.le_add_right _ _

/-- Where no trivia stands behind a token, none comes to stand there when the text is exchanged
behind the trivia before the next token. -/
theorem trailing_eq_zero_of_leading {q y z : List Char} (fronts : Comment.Fronts y z) (hy : y ≠ [])
    (hz : q = [] → trailing z = 0) (ahead : (leading (q ++ y)).1 ≤ q.length) (hu : trailing (q ++ y) = 0) :
    trailing (q ++ z) = 0 := by
  cases q with
  | nil => exact hz rfl
  | cons d q =>
    rw [trailing_eq_zero_iff] at hu ⊢
    rintro c rest hv
    obtain ⟨rfl, rfl⟩ := List.cons.inj hv
    refine trailingStep_eq_none fronts (hu d _ rfl) fun block _ => ?_
    have inside : (Comment.block (q ++ y)).extent ≤ q.length := by
      simpa using Nat.le_trans (leading_cons_of_beginsBlock block) ahead
    cases closed : (Comment.block (q ++ y)).closed with
    | true =>
      have hq : q ≠ [] := by
        rintro rfl
        exact absurd (Comment.extent_pos ([] ++ y)) (Nat.not_lt.2 inside)
      rw [Comment.block_append_of_closed hq closed inside]
      exact inside
    | false =>
      have whole := Comment.extent_of_not_closed (List.append_ne_nil_of_right_ne_nil q hy) closed
      have := List.length_pos_iff.2 hy
      rw [whole, List.length_append] at inside
      omega

/-- Where no trivia stands behind a token, none stands there in front of a text that resembles it. -/
theorem trailing_eq_zero_of_resembles {u v : List Char} (h : Resembles u v) (hu : trailing u = 0) : trailing v = 0 := by
  cases h with
  | @breaks q y z h =>
    rw [trailing_eq_zero_iff] at hu ⊢
    rintro c rest hv
    cases q with
    | nil =>
      rw [h c (by simp_all)]
      rfl
    | cons d q =>
      obtain ⟨rfl, rfl⟩ := List.cons.inj hv
      refine trailingStep_eq_none (Comment.fronts_of_alike (.breaks h)) (hu d _ rfl) fun block hstays =>
        extent_le_of_stays ?_ h hstays
      intro hnil
      obtain ⟨rfl, rfl⟩ := List.append_eq_nil_iff.1 hnil
      simp [stays, Comment.block] at hstays
  | @mark q y z c h ahead =>
    refine trailing_eq_zero_of_leading (Comment.fronts_of_alike (.mark h)) (by simp) (fun _ => ?_) ahead hu
    have : c ≠ ' ' ∧ c ≠ '\t' ∧ c ≠ '/' := by
      refine ⟨?_, ?_, ?_⟩ <;> (rintro rfl; cases h)
    rw [trailing, Text.walk_halt (by
      simp [trailingStep, Text.isSpaceOrTab, Comment.beginsLine, Comment.beginsBlock, this])]

/-! ## Trivia before a token -/

theorem leadingStep_append_eq {u v : List Char} (h : Comment.Fronts u v) (hu : u ≠ []) {left_open after : Bool}
    {c : Char}
    {w : List Char} {k : Nat} (taken : leadingStep left_open c (w ++ u) = some (k, after)) (inside : k ≤ w.length) :
    leadingStep left_open c (w ++ v) = some (k, after) := by
  unfold leadingStep at taken ⊢
  by_cases blank : isSpace c = true
  · rw [if_pos blank] at taken ⊢
    exact taken
  rw [if_neg blank] at taken
  rw [if_neg blank]
  by_cases line : Comment.beginsLine c (w ++ u) = true
  · rw [if_pos line] at taken
    obtain ⟨rfl, rfl⟩ := Prod.mk.inj (Option.some.inj taken)
    have hw := List.ne_nil_of_length_pos (Nat.lt_of_lt_of_le (Comment.lineExtent_pos line) inside)
    rw [if_pos (by rw [Comment.beginsLine_append_eq h c w fun _ => hw]; exact line),
      Comment.lineExtent_append_eq h w inside]
  rw [if_neg line] at taken
  rw [if_neg (by rw [Comment.beginsLine_append_eq h c w fun hu => absurd hu line]; exact line)]
  by_cases block : Comment.beginsBlock c (w ++ u) = true
  · rw [if_pos block] at taken
    dsimp only at taken ⊢
    obtain ⟨rfl, rfl⟩ := Prod.mk.inj (Option.some.inj taken)
    have hw := List.ne_nil_of_length_pos (Nat.lt_of_lt_of_le (Comment.extent_pos _) inside)
    rw [if_pos (by rw [Comment.beginsBlock_append_eq h c w fun _ => hw]; exact block)]
    cases closed : (Comment.block (w ++ u)).closed with
    | true => rw [Comment.block_append_of_closed hw closed inside v, closed]
    | false =>
      -- A comment left open reaches to the end of the text.
      have whole := Comment.extent_of_not_closed (List.append_ne_nil_of_left_ne_nil hw u) closed
      have := List.length_pos_iff.2 hu
      rw [List.length_append] at whole
      omega
  · rw [if_neg block] at taken
    cases taken

theorem passes_leadingStep_congr {u v w : List Char} (h : Comment.Fronts u v) (hu : u ≠ []) {left_open after : Bool}
    (passed : Passes leadingStep u left_open w after) : Passes leadingStep v left_open w after :=
  passed.congr fun _ _ _ _ _ taken inside _ => leadingStep_append_eq h hu taken inside

/-- The first character of a token is no trivia. -/
theorem leadingStep_eq_none_of_fronts {u v : List Char} (h : Comment.Fronts u v) {left_open : Bool} (other : Bool)
    {c : Char}
    (hu : leadingStep left_open c u = none) : leadingStep other c v = none := by
  unfold leadingStep at hu ⊢
  split at hu
  · cases hu
  next blank =>
  split at hu
  · cases hu
  next line =>
  split at hu
  · cases hu
  next block =>
  rw [if_neg blank, if_neg fun hv => line (h.beginsLine hv),
    if_neg fun hv => block (h.beginsBlock hv)]

theorem trailing_le_length (s : List Char) : trailing s ≤ s.length := by
  refine Text.fst_walk_le_length (fun _ c rest k _ h => ?_) () s
  rcases trailingStep_cases h with ⟨-, rfl⟩ | ⟨-, rfl⟩ | ⟨-, block, -, rfl⟩
  · exact Nat.zero_le _
  · exact Text.run_le_length _ rest
  · exact extent_le_of_beginsBlock block

/-- A comment behind a token is more than its first slash. -/
theorem ne_nil_of_passes_begins {u w : List Char} {c : Char} (passed : Passes trailingStep u () (c :: w) ())
    (begins : Comment.begins (c :: w ++ u) = true) : w ≠ [] := by
  rintro rfl
  cases passed with
  | take taken inside further =>
    obtain rfl := Nat.le_zero.1 inside
    rw [List.nil_append] at taken
    rcases trailingStep_cases taken with ⟨blank, -⟩ | ⟨line, extent⟩ | ⟨-, -, -, extent⟩
    · have slash : c = '/' := by
        rw [List.singleton_append, Comment.begins, Bool.or_eq_true] at begins
        exact begins.elim Comment.slash_of_beginsLine Comment.slash_of_beginsBlock
      subst slash
      cases blank
    · exact absurd extent (Nat.ne_of_lt (Comment.lineExtent_pos line))
    · exact absurd extent (Nat.ne_of_lt (Comment.extent_pos u))

end Trivia

namespace Token

/-- What the token at the front of a text is, taken apart: the trivia before it, its first
character, what is read from there, and the trivia behind it. -/
theorem next_eq_iff {token : Token} {rest : List Char} (hkind : token.kind ≠ .endOfText) :
    next (token.source ++ rest) = (token, rest) ↔ ∃ c w left_open unterminated, token.text = c :: w ∧
      Trivia.leading (token.leading ++ c :: (w ++ (token.trailing ++ rest))) = (token.leading.length, left_open) ∧
      Lexeme.read c (w ++ (token.trailing ++ rest)) = ⟨token.kind, w.length, unterminated⟩ ∧
      Trivia.trailing (token.trailing ++ rest) = token.trailing.length ∧
      token.unterminated = (unterminated || left_open) := by
  constructor
  · intro h
    generalize hs : token.source ++ rest = s at h
    have inside : (Trivia.leading s).1 ≤ s.length ∨ s.drop (Trivia.leading s).1 = [] :=
      (Nat.lt_or_ge s.length (Trivia.leading s).1).symm.imp_right fun h => List.drop_eq_nil_iff.2 (Nat.le_of_lt h)
    unfold next at h
    dsimp only at h
    split at h
    · exact absurd (congrArg (·.1.kind) h).symm hkind
    next c r hdrop =>
    replace inside := inside.resolve_right (by simp [hdrop])
    have long := Lexeme.extent_read_le c r
    have short := Trivia.trailing_le_length (r.drop (Lexeme.read c r).extent)
    have parts : s = s.take (Trivia.leading s).1 ++ c :: r := by rw [← hdrop, List.take_append_drop]
    have leads := List.length_take_of_le inside
    obtain ⟨htoken, hrest⟩ := Prod.mk.inj h
    subst htoken
    subst hrest
    refine ⟨c, r.take (Lexeme.read c r).extent, (Trivia.leading s).2, (Lexeme.read c r).unterminated, rfl, ?_⟩
    simp only [List.take_append_drop, List.length_take_of_le long, List.length_take_of_le short, ← parts, leads,
      true_and]
  · rintro ⟨c, w, left_open, unterminated, htext, hleading, hread, htrailing, hunterminated⟩
    have hs : token.source ++ rest = token.leading ++ c :: (w ++ (token.trailing ++ rest)) := by
      simp [source, htext]
    unfold next
    dsimp only
    rw [hs, hleading, List.drop_left, List.take_left]
    dsimp only [beginning]
    rw [hread, List.drop_left, List.take_left, htrailing, List.drop_left, List.take_left, ← htext, ← hunterminated]

/-- A token ends with its line: it is the same in front of a line break. -/
def Ends (token : Token) : Prop := (next (token.text ++ ['\n'])).1.text = token.text

instance (token : Token) : Decidable token.Ends := inferInstanceAs (Decidable (_ = _))

theorem extent_of_ends {token : Token} (h : token.Ends) {c : Char} {w : List Char} (htext : token.text = c :: w)
    (begins : Trivia.leadingStep false c (w ++ ['\n']) = none) : (Lexeme.read c (w ++ ['\n'])).extent = w.length := by
  have bound := Lexeme.extent_read_le c (w ++ ['\n'])
  have halts : Trivia.leading (c :: (w ++ ['\n'])) = (0, false) := Text.walk_halt begins
  rw [Ends, htext] at h
  unfold next at h
  simp only [List.cons_append, halts, List.drop_zero, List.take_zero, beginning, List.cons.injEq, true_and] at h
  have := congrArg List.length h
  rw [List.length_take_of_le bound] at this
  exact this

/-- A token that ends with its line is read the same before texts that begin alike. -/
theorem read_append_of_ends {u v w : List Char} {c : Char} (ends : (Lexeme.read c (w ++ ['\n'])).extent = w.length)
    (hle : (Lexeme.read c (w ++ u)).extent = w.length) (h : Alike u v)
    (hcomment : Comment.begins u = true → Comment.begins v = true ∨ Breaks v) :
    Lexeme.read c (w ++ v) = Lexeme.read c (w ++ u) := by
  by_cases hu : u = []
  · have line {s : List Char} (breaks : Breaks s) : Lexeme.read c (w ++ s) = Lexeme.read c (w ++ ['\n']) :=
      Lexeme.read_append_alike (.breaks breaks) (fun _ => .inr breaks) ends (fun _ => by simp)
    subst hu
    have breaks : Breaks v := by
      cases h with
      | breaks h => exact h
    rw [line breaks, line Text.breaks_nil]
  · exact Lexeme.read_append_alike h hcomment hle fun _ => hu

/-- A token before `u` is the token before `v` if it is read the same there, and no trivia comes to follow it. -/
theorem next_congr {token : Token} {u v : List Char} (h : next (token.source ++ u) = (token, u))
    (hkind : token.kind ≠ .endOfText) (fronts : Comment.Fronts u v)
    (same : ∀ c w, token.text = c :: w → (Lexeme.read c (w ++ (token.trailing ++ u))).extent = w.length →
      Lexeme.read c (w ++ (token.trailing ++ v)) = Lexeme.read c (w ++ (token.trailing ++ u)))
    (quiet : Trivia.trailing u = 0 → Trivia.trailing v = 0) : next (token.source ++ v) = (token, v) := by
  obtain ⟨c, w, left_open, unterminated, htext, hleading, hread, htrailing, hunterminated⟩ := (next_eq_iff hkind).1 h
  obtain ⟨before, halts⟩ := Text.passes_of_walk hleading
  obtain ⟨behind, stops⟩ := Text.passes_of_walk (t := ()) (Prod.ext htrailing rfl)
  have further := (fronts.append token.trailing).append w
  refine (next_eq_iff hkind).2 ⟨c, w, left_open, unterminated, htext, ?_, ?_, ?_, hunterminated⟩
  · have first := Trivia.leadingStep_eq_none_of_fronts further left_open (Text.step_eq_none_of_walk halts)
    have passed := (Trivia.passes_leadingStep_congr (further.append [c]) (by simp) before).walk_eq
    rwa [List.singleton_append, Text.walk_halt first] at passed
  · rw [same c w htext (by rw [hread]), hread]
  · have passed := (Trivia.passes_trailingStep_congr fronts behind).walk_eq
    rw [Trivia.trailing, passed]
    exact congrArg (token.trailing.length + ·) (quiet (congrArg Prod.fst stops))

/-- A token before `u` is the token before every text that resembles `u`. -/
theorem next_append_resembles {token : Token} {u v : List Char} (h : next (token.source ++ u) = (token, u))
    (hkind : token.kind ≠ .endOfText) (ends : token.Ends) (like : Resembles u v) :
    next (token.source ++ v) = (token, v) := by
  refine next_congr h hkind (Comment.fronts_of_alike like.alike) (fun c w htext extent => ?_)
    (Trivia.trailing_eq_zero_of_resembles like)
  obtain ⟨_, _, left_open, -, hcons, hleading, -, htrailing, -⟩ := (next_eq_iff hkind).1 h
  obtain ⟨rfl, rfl⟩ := List.cons.inj (htext.symm.trans hcons)
  have behind := (Text.passes_of_walk (t := ()) (Prod.ext htrailing rfl)).1
  have commented (hu : Comment.begins (token.trailing ++ u) = true) :
      Comment.begins (token.trailing ++ v) = true ∨ Breaks (token.trailing ++ v) := by
    cases htrivia : token.trailing with
    | nil => rw [htrivia] at hu; exact like.begins hu
    | cons d more =>
      rw [htrivia] at hu behind
      obtain ⟨e, more, rfl⟩ := List.exists_cons_of_ne_nil (Trivia.ne_nil_of_passes_begins behind hu)
      exact .inl hu
  have line := extent_of_ends ends htext
    (Trivia.leadingStep_eq_none_of_fronts
      (Comment.fronts_of_alike ((Alike.breaks (Text.breaks_newline [])).append w)) false
      (Text.step_eq_none_of_walk (Text.passes_of_walk hleading).2))
  exact read_append_of_ends line extent (like.alike.append token.trailing) commented

/-- Every token but a string literal left open at the end of the text ends with its line. -/
theorem ends_of_next {token : Token} {u : List Char} (h : next (token.source ++ u) = (token, u))
    (hkind : token.kind ≠ .endOfText) (closed : u = [] → token.kind = .string → token.unterminated = false) :
    token.Ends := by
  obtain ⟨c, w, left_open, unterminated, htext, hleading, hread, -, hunterminated⟩ := (next_eq_iff hkind).1 h
  have alike : Alike (token.trailing ++ u) ['\n'] := .breaks (Text.breaks_newline [])
  have ends : (Lexeme.read c (w ++ (token.trailing ++ u))).unterminated = true → token.trailing ++ u ≠ [] := by
    intro open_end final
    have kind := Lexeme.kind_of_unterminated open_end
    rw [hread] at open_end kind
    have := closed (List.append_eq_nil_iff.1 final).2 kind
    rw [hunterminated, show unterminated = true from open_end] at this
    cases this
  have same := Lexeme.read_append_alike alike (fun _ => .inr (Text.breaks_newline [])) (by rw [hread]) ends
  have first : Trivia.leadingStep false c (w ++ ['\n']) = none := by
    refine @Trivia.leadingStep_eq_none_of_fronts _ _ (Comment.fronts_of_alike (alike.append w)) left_open false _ ?_
    exact Text.step_eq_none_of_walk (Text.passes_of_walk hleading).2
  have halts : Trivia.leading (c :: (w ++ ['\n'])) = (0, false) := Text.walk_halt first
  rw [Ends, htext]
  unfold next
  simp only [List.cons_append, halts, List.drop_zero, beginning, same, hread, List.take_left]

end Token

end SwiftTemplate.Swift
