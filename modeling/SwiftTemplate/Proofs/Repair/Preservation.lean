import SwiftTemplate.Proofs.Repair.FirstPlace

/-!
# What repair preserves

Every move and every removal exchanges directives for trivia and trivia for directives, and leaves
the tokens of the program what they are.
-/
namespace SwiftTemplate.Repair

open Swift
open Swift.Token (render Lexed prepend)

/-! ## Putting a directive in -/

/-- A directive that is put in behind the start of a program begins a line of its own. -/
theorem unitAt_of_ne_zero {index : Nat} (hindex : index ≠ 0) (head : Token) (rest : List Token) :
    unitAt index (cutOut head rest) = onOwnLine head rest := by
  rcases Text.cutAtLastNewline_cases head.leading with ⟨-, hcut⟩ | ⟨before, indent, -, -, hcut⟩
  · simp [unitAt, cutOut, onOwnLine, freshLeading, hcut, hindex]
  · simp [unitAt, cutOut, onOwnLine, freshLeading, hcut, hindex]

theorem pend_append (trivia : List Char) (part : Part) (parts others : List Part) :
    pend trivia (part :: parts ++ others) = pend trivia (part :: parts) ++ others := by
  cases part <;> rfl

theorem piecesOf_pend (trivia : List Char) {parts : List Part} (h : Sound parts) :
    piecesOf (pend trivia parts) = (piecesOf parts).modifyHead (Piece.prepend trivia) := by
  cases parts with
  | nil => rfl
  | cons part parts =>
    cases part with
    | plain token => rfl
    | fixed form tokens =>
      obtain ⟨head, rest, rfl⟩ := List.exists_cons_of_ne_nil (standalone_ne_nil h.1.standalone)
      rfl
    | moved form kept tokens =>
      obtain ⟨head, rest, rfl⟩ := List.exists_cons_of_ne_nil (standalone_ne_nil h.1.standalone)
      simp [pend, piecesOf, Part.pieces, prepend, headed, Piece.prepend, Piece.ofToken]

theorem exists_token_of_mem_piecesOf {parts : List Part} {piece : Piece} (h : piece ∈ piecesOf parts) :
    ∃ token ∈ tokensOf parts, piece.trailing = token.trailing := by
  have of_headed {form : Directive} {tokens : List Token} (h : piece ∈ headed form tokens) :
      ∃ token ∈ tokens, piece.trailing = token.trailing := by
    cases tokens with
    | nil => cases h
    | cons head rest =>
      rcases List.mem_cons.1 h with rfl | hmem
      · exact ⟨head, List.mem_cons_self, rfl⟩
      · obtain ⟨token, htoken, rfl⟩ := List.mem_map.1 hmem
        exact ⟨token, List.mem_cons_of_mem _ htoken, rfl⟩
  obtain ⟨part, hpart, hpiece⟩ := List.mem_flatMap.1 h
  have own : ∃ token ∈ part.tokens, piece.trailing = token.trailing := by
    cases part with
    | plain token => exact ⟨token, by simp [Part.tokens], by rw [List.mem_singleton.1 hpiece]; rfl⟩
    | fixed form tokens => exact of_headed hpiece
    | moved form kept tokens => exact of_headed hpiece
  obtain ⟨token, htoken, heq⟩ := own
  exact ⟨token, List.mem_flatMap.2 ⟨part, hpart, htoken⟩, heq⟩

/-- No line break is left at the end of a line. -/
theorem newline_not_mem_trailing_of_mem_piecesOf {parts : List Part} (lexed : Lexed (tokensOf parts)) {piece : Piece}
    (h : piece ∈ piecesOf parts) : '\n' ∉ piece.trailing := by
  obtain ⟨token, htoken, heq⟩ := exists_token_of_mem_piecesOf h
  rw [heq]
  exact lexed.newline_not_mem_trailing token htoken

/-- A token in front of which a line begins has the line break in its own trivia. -/
theorem beginLine_of_startsLine {front : List Piece} {token : Token} {behind : List Part}
    (h : (⟨front ++ piecesOf (.plain token :: behind)⟩ : Draft).startsLine front.length = true) (hfront : front ≠ [])
    (quiet : ∀ piece, front.getLast? = some piece → '\n' ∉ piece.trailing)
    (lexed : Lexed (tokensOf (.plain token :: behind))) : token.kind = .endOfText ∨ '\n' ∈ token.leading := by
  have hlength := List.length_pos_iff.2 hfront
  have pieces : piecesOf (.plain token :: behind) = .ofToken token none :: piecesOf behind := rfl
  rw [Draft.startsLine, pieces] at h
  simp only [Bool.or_eq_true, decide_eq_true_eq] at h
  rcases h with ((zero | ends) | own) | before
  · exact absurd zero (Nat.ne_of_gt hlength)
  · left
    have none : (tokensOf behind).length = 0 := by
      rw [← length_piecesOf]
      simp only [List.length_append, List.length_cons] at ends
      omega
    have hbehind := List.length_eq_zero_iff.1 none
    rw [tokensOf_cons, hbehind] at lexed
    exact lexed.kind_of_singleton
  · right
    simpa [Piece.ofToken] using own
  · exfalso
    rw [List.getElem?_append_left (by omega), ← List.getLast?_eq_getElem?] at before
    cases hlast : front.getLast? with
    | none => simp [hlast] at before
    | some piece =>
      rw [hlast, Option.any_some, decide_eq_true_eq] at before
      exact quiet piece hlast (List.mem_of_getLast? before)

/-- A directive can be put in wherever a line begins. -/
theorem Holds.insert {text : List Char} {before behind : List Part} {token : Token} {form : Directive}
    {unit : List Token}
    (h : Holds text (before ++ .plain token :: behind)) (hbefore : before ≠ [])
    (line : token.kind = .endOfText ∨ '\n' ∈ token.leading) (standalone : form.Standalone unit) (fresh : Fresh unit) :
    Holds (render (tokensOf (before ++ .moved form [] unit :: .plain token :: behind)))
        (before ++ .moved form [] unit :: .plain token :: behind) ∧
      SameTokens (before ++ .moved form [] unit :: .plain token :: behind) (before ++ .plain token :: behind) := by
  refine h.replace (by simp) (by simp) (replaces_insert h.sound.of_append (by simp)
    (lexed_baseOf_of_append h.sound (by simp) h.lexed) ⟨standalone, fresh, ?_, token, rfl, line⟩) rfl
  exact quiet_of_append hbefore (by simp) h.sound h.lexed

theorem fresh_announce (line : Nat) (head : Token) (rest : List Token) :
    Fresh (announce line (onOwnLine head rest)) := by
  obtain ⟨rest', hrest'⟩ := exists_announce line { head with leading := freshLeading head.leading } rest
  obtain ⟨indent, hleading, hindent⟩ := exists_freshLeading head.leading
  exact ⟨_, indent, by rw [onOwnLine, hrest']; rfl, hleading, hindent⟩

/-! ## Moving a directive -/

/-- Behind some parts only the first of which has more trivia in front, the others are as they were. -/
theorem exists_of_pend_eq_append {trivia : List Char} {parts before behind : List Part} (hbefore : before ≠ [])
    (h : pend trivia parts = before ++ behind) : ∃ gap, gap ≠ [] ∧ parts = gap ++ behind ∧ pend trivia gap = before := by
  obtain ⟨first, before, rfl⟩ := List.exists_cons_of_ne_nil hbefore
  cases parts with
  | nil => cases h
  | cons part parts =>
    obtain ⟨other, hother⟩ : ∃ other, ∀ others, pend trivia (part :: others) = other :: others := by
      cases part <;> exact ⟨_, fun _ => rfl⟩
    rw [hother, List.cons_append, List.cons.injEq] at h
    obtain ⟨rfl, rfl⟩ := h
    exact ⟨part :: before, List.cons_ne_nil _ _, rfl, hother before⟩

/-- More trivia in front makes no more tokens. -/
theorem length_tokensOf_pend (trivia : List Char) {parts others : List Part} (h : Sound (parts ++ others)) :
    (tokensOf (pend trivia parts)).length = (tokensOf parts).length := by
  cases parts with
  | nil => rfl
  | cons part parts =>
    have whole := congrArg List.length (tokensOf_pend trivia h)
    rw [List.cons_append, ← List.cons_append, pend_append, tokensOf_append, tokensOf_append] at whole
    simp only [List.length_append, prepend, List.length_modifyHead] at whole
    omega

theorem getElem?_headed (front behind : List Piece) (form : Directive) (head : Token) (rest : List Token) :
    (front ++ (headed form (head :: rest) ++ behind))[front.length]? = some (.ofToken head (some form)) := by
  rw [List.getElem?_append_right (Nat.le_refl _), Nat.sub_self, headed, List.cons_append, List.getElem?_cons_zero]

/-- The line of a directive in a draft. -/
theorem lineOf_headed (front behind : List Piece) (form : Directive) (head : Token) (rest : List Token) :
    (⟨front ++ (headed form (head :: rest) ++ behind)⟩ : Draft).lineOf front.length
      = 1 + Text.newlines (renderPieces front ++ head.leading) := by
  rw [Draft.lineOf_eq (getElem?_headed front behind form head rest), List.take_left]
  rfl

theorem startOf_headed (front behind : List Piece) (form : Directive) (head : Token) (rest : List Token) :
    (⟨front ++ (headed form (head :: rest) ++ behind)⟩ : Draft).startOf front.length
      = Text.byteSize (renderPieces front ++ head.leading) := by
  rw [Draft.startOf_eq (getElem?_headed front behind form head rest), List.take_left]
  rfl

/-- Where a directive has gone that was in front of the parts `behind`: it comes to be in front of a
token on the line `line`, announces the line below it, and is not at fault there. -/
structure Landing (moved : List Char) (front behind : List Part) (form : Directive) (head : Token) (rest : List Token)
    (gap : List Part) (token : Token) (beyond : List Part) (line : Nat) : Prop where
  behind_eq : behind = gap ++ .plain token :: beyond
  holds : Holds moved (front ++ pend (leftBehind head)
    (gap ++ .moved form [] (announce line (onOwnLine head rest)) :: .plain token :: beyond))
  placed_eq : placed ⟨remainder (leftBehind head) (piecesOf front) (piecesOf behind)⟩ (headed form (cutOut head rest))
    (tokensOf (front ++ gap)).length = (moved, line)
  line_eq : (Source.ofText moved).lineOf (tokensOf (front ++ gap)).length = line
  start_eq : (Source.ofText moved).starts.getD (tokensOf (front ++ gap)).length 0
    = (Draft.insert (tokensOf (front ++ gap)).length (headed form (cutOut head rest))
        ⟨remainder (leftBehind head) (piecesOf front) (piecesOf behind)⟩).startOf (tokensOf (front ++ gap)).length
  free : isFlagged moved line = false

namespace At
variable {text moved : List Char} {front behind : List Part} {part : Part} {form : Directive} {head : Token}
    {rest : List Token}
  (h : At text front part behind form head rest)
include h

/-- A directive that is put in behind where it was has landed there. -/
theorem exists_landing_of_found {pieces : List Piece} {gap beyond : List Part} {token : Token}
    (hbehind : behind = gap ++ .plain token :: beyond) (hgap : gap ≠ [])
    (hremainder : remainder (leftBehind head) (piecesOf front) (piecesOf behind)
      = pieces ++ piecesOf (.plain token :: beyond))
    (hlength : pieces.length = (tokensOf (front ++ gap)).length)
    (hrender : renderPieces pieces = render (tokensOf (front ++ pend (leftBehind head) gap))) (hpieces : pieces ≠ [])
    (quiet : ∀ piece, pieces.getLast? = some piece → '\n' ∉ piece.trailing)
    (found : Found ⟨pieces ++ piecesOf (.plain token :: beyond)⟩ (headed form (cutOut head rest)) pieces.length
      moved) :
    ∃ line, Landing moved front behind form head rest gap token beyond line := by
  have apart : ∀ parts, pend (leftBehind head) (gap ++ parts) = pend (leftBehind head) gap ++ parts := by
    obtain ⟨first, gap, rfl⟩ := List.exists_cons_of_ne_nil hgap
    exact pend_append _ _ _
  have filled : front ++ pend (leftBehind head) gap ≠ [] := by
    obtain ⟨first, gap, rfl⟩ := List.exists_cons_of_ne_nil hgap
    cases first <;> simp [pend]
  obtain ⟨holds, -⟩ := h.removed
  rw [hbehind, apart, ← List.append_assoc] at holds
  have lexed := (lexed_tokensOf holds.sound holds.nonempty holds.lexed)
  rw [tokensOf_append] at lexed
  have line := beginLine_of_startsLine found.starts hpieces quiet
    (lexed.of_append (by simp [tokensOf_cons, Part.tokens]))
  obtain ⟨announced, hline, hplaced⟩ := placed_append pieces (piecesOf (.plain token :: beyond)) form (cutOut head rest)
  have fresh := unitAt_of_ne_zero (Nat.ne_of_gt (List.length_pos_iff.2 hpieces)) head rest
  rw [fresh] at hplaced hline
  obtain ⟨holds', -⟩ := holds.insert filled line (standalone_announce h.loose.unit announced)
    (fresh_announce announced head rest)
  have text_eq : moved = render (tokensOf (front ++ pend (leftBehind head) gap
      ++ .moved form [] (announce announced (onOwnLine head rest)) :: .plain token :: beyond)) := by
    rw [found.text_eq, hplaced, hrender, renderPieces_piecesOf]
    simp [tokensOf_append, tokensOf_cons, Part.tokens]
  rw [← text_eq] at holds'
  have size : (tokensOf (front ++ pend (leftBehind head) gap)).length = (tokensOf (front ++ gap)).length := by
    rw [tokensOf_append, tokensOf_append, List.length_append, List.length_append,
      length_tokensOf_pend _ ((hbehind ▸ h.loose.sound : Sound (gap ++ _)))]
  obtain ⟨rest', hrest'⟩ := exists_announce announced { head with leading := freshLeading head.leading } rest
  have split : Token.ofText moved = tokensOf (front ++ pend (leftBehind head) gap)
      ++ { head with leading := freshLeading head.leading } :: (rest' ++ tokensOf (.plain token :: beyond)) := by
    rw [holds'.tokens, tokensOf_append, tokensOf_cons, Part.tokens, Token.prepend_nil, onOwnLine, hrest']
    rfl
  refine ⟨announced, hbehind, ?_, ?_, ?_, ?_, ?_⟩
  · rw [apart, ← List.append_assoc]
    exact holds'
  · rw [hremainder, ← hlength]
    refine Prod.ext found.text_eq.symm ?_
    rw [hplaced]
  · rw [← size, Source.lineOf_eq split, hline, onOwnLine, lineOf_headed, hrender]
  · rw [hremainder, ← hlength, insert_append, fresh, onOwnLine, startOf_headed, hlength, ← size,
      Source.getD_starts split, hrender]
  · have free := found.free
    rwa [hplaced] at free

/-- A directive that stays where it was has landed behind what it left behind. -/
theorem exists_landing_of_reinserted {pieces : List Piece} {token : Token} {beyond : List Part}
    (hbehind : behind = .plain token :: beyond)
    (hremainder : remainder (leftBehind head) (piecesOf front) (piecesOf behind) = pieces ++ piecesOf behind)
    (hlength : pieces.length = (tokensOf front).length)
    (hrender : renderPieces pieces = render (tokensOf front) ++ leftBehind head) (hpieces : pieces ≠ [])
    (found : Found ⟨pieces ++ piecesOf behind⟩ (headed form (cutOut head rest)) pieces.length moved) :
    ∃ line, Landing moved front behind form head rest [] token beyond line := by
  obtain ⟨announced, hline, hplaced⟩ := placed_append pieces (piecesOf behind) form (cutOut head rest)
  have fresh := unitAt_of_ne_zero (Nat.ne_of_gt (List.length_pos_iff.2 hpieces)) head rest
  rw [fresh] at hplaced hline
  have standalone := standalone_announce h.loose.unit announced
  have replaces := replaces_reinsert h.sound h.lexed h.form h.tokens
    ⟨standalone, fresh_announce announced head rest, h.loose.quiet, h.loose.line⟩
  obtain ⟨holds, -⟩ := h.holds.replace (by simp) (by simp) replaces (by rw [SameTokens, h.plainsOf_eq]; rfl)
  have text_eq : moved = render (tokensOf (front ++ .moved form (leftBehind head)
      (announce announced (onOwnLine head rest)) :: behind)) := by
    rw [found.text_eq, hplaced, hrender, renderPieces_piecesOf]
    simp [tokensOf_append, tokensOf_cons, Part.tokens, Token.render_prepend _ (standalone_ne_nil standalone)]
  rw [← text_eq] at holds
  obtain ⟨rest', hrest'⟩ := exists_announce announced { head with leading := freshLeading head.leading } rest
  have split : Token.ofText moved = tokensOf front
      ++ { head with leading := leftBehind head ++ freshLeading head.leading } :: (rest' ++ tokensOf behind) := by
    rw [holds.tokens, tokensOf_append, tokensOf_cons, Part.tokens, onOwnLine, hrest']
    rfl
  refine ⟨announced, hbehind, ?_, ?_, ?_, ?_, ?_⟩
  · rw [List.nil_append, pend, List.append_nil, ← hbehind]
    exact holds
  · rw [hremainder, List.append_nil, ← hlength]
    refine Prod.ext found.text_eq.symm ?_
    rw [hplaced]
  · rw [List.append_nil, Source.lineOf_eq split, hline, onOwnLine, lineOf_headed, hrender, List.append_assoc]
  · rw [List.append_nil, hremainder, ← hlength, insert_append, fresh, onOwnLine, startOf_headed, hlength,
      Source.getD_starts split, hrender, List.append_assoc]
  · have free := found.free
    rwa [hplaced] at free

/-- A directive that fits somewhere is found there. -/
theorem exists_landing {problem : Problem} (hproblem : problem ∈ problems text)
    (hfind : directiveOn? (Source.ofText text) problem.line = some ((tokensOf front).length, form))
    (hfit : firstFit? ⟨remainder (leftBehind head) (piecesOf front) (piecesOf behind)⟩
      (headed form (cutOut head rest)) (tokensOf front).length = some moved) :
    ∃ gap token beyond line, Landing moved front behind form head rest gap token beyond line := by
  obtain ⟨holds, -⟩ := h.removed
  have lexed := lexed_tokensOf holds.sound holds.nonempty holds.lexed
  by_cases hfront : front = []
  · subst hfront
    rw [show piecesOf [] = [] from rfl, remainder_nil, ← piecesOf_pend _ h.loose.sound] at hfit
    obtain ⟨before, token, beyond, hparts, found⟩ := @exists_found [] _ holds.sound _ _ hfit
    cases before with
    | nil =>
      have free := found.free
      rw [found.text_eq] at free
      exact absurd ((h.isFlagged_placed hproblem hfind).symm.trans free) (by decide)
    | cons first before =>
      rw [List.nil_append] at lexed hparts
      rw [List.nil_append, List.nil_append, hparts, piecesOf_append, List.length_nil, Nat.zero_add] at found
      obtain ⟨gap, hgap, hbehind, hpend⟩ := exists_of_pend_eq_append (List.cons_ne_nil _ _) hparts
      refine ⟨gap, token, beyond, h.exists_landing_of_found hbehind hgap ?_ ?_ ?_ ?_ (fun piece hlast => ?_) found⟩
      · rw [show piecesOf [] = [] from rfl, remainder_nil, ← piecesOf_pend _ h.loose.sound, hparts, piecesOf_append]
      · rw [length_piecesOf, ← hpend, List.nil_append]
        exact length_tokensOf_pend _ ((hbehind ▸ h.loose.sound : Sound (gap ++ _)))
      · rw [hpend, renderPieces_piecesOf]
        rfl
      · exact List.append_ne_nil_of_left_ne_nil (pieces_ne_nil (hparts ▸ holds.sound)) _
      · refine newline_not_mem_trailing_of_mem_piecesOf lexed ?_
        rw [hparts, piecesOf_append]
        exact List.mem_append_left _ (List.mem_of_getLast? hlast)
  · have frontPieces : piecesOf front ≠ [] := by
      obtain ⟨first, front, rfl⟩ := List.exists_cons_of_ne_nil hfront
      exact List.append_ne_nil_of_left_ne_nil (pieces_ne_nil h.holds.sound) _
    obtain ⟨pieces, hremainder, hlength, hrender⟩ :=
      exists_remainder (leftBehind head) frontPieces (piecesOf behind)
    rw [renderPieces_piecesOf] at hrender
    have hpieces : pieces ≠ [] := List.ne_nil_of_length_pos (hlength ▸ List.length_pos_iff.2 frontPieces)
    rw [hremainder, ← length_piecesOf, ← hlength] at hfit
    obtain ⟨gap, token, beyond, rfl, found⟩ := exists_found h.loose.sound hfit
    cases gap with
    | nil => exact ⟨[], token, beyond, h.exists_landing_of_reinserted rfl hremainder (hlength.trans (length_piecesOf _))
        hrender hpieces found⟩
    | cons first gap =>
      have sound := h.loose.sound
      have own : piecesOf (first :: gap) ≠ [] := List.append_ne_nil_of_left_ne_nil (pieces_ne_nil sound) _
      rw [piecesOf_append, ← List.append_assoc, ← List.length_append] at found
      refine ⟨_, token, beyond, h.exists_landing_of_found rfl (List.cons_ne_nil first gap) ?_ ?_ ?_ (by simp [hpieces])
        (fun piece hlast => ?_) found⟩
      · rw [hremainder, piecesOf_append, List.append_assoc]
      · rw [List.length_append, hlength, length_piecesOf, length_piecesOf, tokensOf_append, List.length_append]
      · have whole := congrArg render (tokensOf_pend (leftBehind head) sound)
        rw [Token.render_prepend _ (tokensOf_ne_nil sound (by simp)), tokensOf_append,
          pend_append, tokensOf_append, Token.render_append, Token.render_append, ← List.append_assoc] at whole
        rw [renderPieces_append, hrender, renderPieces_piecesOf, tokensOf_append, Token.render_append,
          List.append_cancel_right whole, List.append_assoc]
      · rw [List.getLast?_append_of_ne_nil _ own] at hlast
        refine newline_not_mem_trailing_of_mem_piecesOf
          (lexed_tokensOf sound (by simp) h.loose.lexed) ?_
        rw [piecesOf_append]
        exact List.mem_append_left _ (List.mem_of_getLast? hlast)

end At

/-- Where a directive has gone makes no difference to the tokens of a program. -/
theorem Landing.sameTokens {moved : List Char} {front behind : List Part} {form : Directive} {head : Token}
    {rest : List Token} {gap beyond : List Part} {token : Token} {line : Nat}
    (h : Landing moved front behind form head rest gap token beyond line) :
    SameTokens (front ++ pend (leftBehind head)
      (gap ++ .moved form [] (announce line (onOwnLine head rest)) :: .plain token :: beyond)) (front ++ behind) := by
  have pended := bared_plainsOf_pend (leftBehind head)
    (gap ++ .moved form [] (announce line (onOwnLine head rest)) :: .plain token :: beyond)
  rw [SameTokens, plainsOf_append, plainsOf_append, List.map_append, List.map_append, pended, h.behind_eq]
  simp [plainsOf_append, plainsOf]

/-- A round of repair: the directive of a problem has gone to the first place that takes it, or it has
been taken out because no place does. -/
theorem Holds.exists_round {text : List Char} {parts : List Part} (h : Holds text parts) {problem : Problem}
    (hproblem : problem ∈ problems text) : ∃ front part behind form head rest,
      parts = front ++ part :: behind ∧ At text front part behind form head rest ∧
      directiveOn? (Source.ofText text) problem.line = some ((tokensOf front).length, form) ∧
      ((∃ gap token beyond line,
          firstFit? ((Draft.ofTokens (Source.ofText text).tokens).detach (tokensOf front).length form.size).1
            ((Draft.ofTokens (Source.ofText text).tokens).detach (tokensOf front).length form.size).2
            (tokensOf front).length = some (relocate text problem.line) ∧
          Landing (relocate text problem.line) front behind form head rest gap token beyond line) ∨
        (firstFit? ((Draft.ofTokens (Source.ofText text).tokens).detach (tokensOf front).length form.size).1
            ((Draft.ofTokens (Source.ofText text).tokens).detach (tokensOf front).length form.size).2
            (tokensOf front).length = none ∧
          Holds (relocate text problem.line) (front ++ pend (leftBehind head) behind))) := by
  obtain ⟨⟨index, form⟩, hfind⟩ := exists_directiveOn? hproblem
  obtain ⟨front, part, behind, head, rest, rfl, rfl, hat⟩ := h.exists_at (List.mem_of_find?_eq_some hfind)
  refine ⟨front, part, behind, form, head, rest, rfl, hat, hfind, ?_⟩
  unfold Repair.relocate
  simp only [hfind, hat.detach_eq]
  cases hfit : firstFit? ⟨remainder (leftBehind head) (piecesOf front) (piecesOf behind)⟩
      (headed form (cutOut head rest)) (tokensOf front).length with
  | none =>
    right
    refine ⟨rfl, ?_⟩
    have removed := hat.removed.1
    rwa [← hat.render_remainder] at removed
  | some moved =>
    left
    obtain ⟨gap, token, beyond, line, landing⟩ := hat.exists_landing hproblem hfind hfit
    exact ⟨gap, token, beyond, line, rfl, landing⟩

/-- A round leaves the tokens of a program as they are. -/
theorem Holds.relocate {text : List Char} {parts : List Part} (h : Holds text parts) {problem : Problem}
    (hproblem : problem ∈ problems text) :
    ∃ parts', Holds (relocate text problem.line) parts' ∧ SameTokens parts' parts := by
  obtain ⟨front, part, behind, form, head, rest, rfl, hat, -, ⟨gap, token, beyond, line, -, landing⟩ | ⟨-, removed⟩⟩ :=
    h.exists_round hproblem
  · refine ⟨_, landing.holds, landing.sameTokens.trans ?_⟩
    rw [plainsOf_append, plainsOf_append, hat.plainsOf_eq]
  · exact ⟨_, removed, hat.removed.2⟩

theorem Holds.dropFlagged {text : List Char} {parts : List Part} (h : Holds text parts) :
    ∃ parts', Holds (dropFlagged text) parts' ∧ SameTokens parts' parts := by
  fun_induction Repair.dropFlagged text generalizing parts with
  | case1 text hnone => exact ⟨parts, h, rfl⟩
  | case2 text problem others hsome hnone => exact ⟨parts, h, rfl⟩
  | case3 text problem others hsome shorter hremove ih =>
    obtain ⟨left, hleft, same⟩ := h.withoutDirective hremove
    obtain ⟨parts', hparts', same'⟩ := ih hleft
    exact ⟨parts', hparts', same'.trans same⟩

theorem Holds.settle {text : List Char} {parts : List Part} (h : Holds text parts) (rounds : Nat) :
    ∃ parts', Holds (settle rounds text) parts' ∧ SameTokens parts' parts := by
  induction rounds generalizing text parts with
  | zero => exact h.dropFlagged
  | succ rounds ih =>
    rw [Repair.settle]
    split
    · exact ⟨parts, h, rfl⟩
    · next problem others hproblems =>
      have hproblem : problem ∈ problems text := hproblems ▸ List.mem_cons_self
      obtain ⟨moved, hmoved, same⟩ := h.relocate hproblem
      obtain ⟨parts', hparts', same'⟩ := ih hmoved
      exact ⟨parts', hparts', same'.trans same⟩

end SwiftTemplate.Repair
