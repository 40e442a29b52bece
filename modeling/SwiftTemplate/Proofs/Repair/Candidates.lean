import SwiftTemplate.Proofs.Repair.CleanCode
import SwiftTemplate.Proofs.Swift.Heads
import SwiftTemplate.Proofs.Swift.Returns

/-!
# Candidates of a move

What is rendered when a directive is cut out and put in again reads as what was put together: the other
tokens of the program with the directive among them.
-/
namespace SwiftTemplate.Swift

/-- A token without the trivia around it. -/
def Token.stripped (token : Token) : Token := { token with leading := [], trailing := [] }

theorem Token.map_stripped_prepend (trivia : List Char) (tokens : List Token) :
    (prepend trivia tokens).map stripped = tokens.map stripped := by
  cases tokens <;> rfl

end SwiftTemplate.Swift

namespace SwiftTemplate.Repair

open Swift
open Swift.Token (render Lexed prepend stripped)
open Text (LineEnds)

/-! ## The tokens with a directive put in -/

/-- What is known of a directive among the tokens of a program, of the trivia in front of it and of what follows,
if it is alone on its line and no token is left open. -/
structure Lone (front : List Token) (form : Directive) (head : Token) (rest behind : List Token) : Prop where
  lexed : Lexed (front ++ (head :: rest ++ behind))
  ends : ∀ token ∈ front ++ behind, token.Ends
  unit : form.Standalone (onOwnLine head rest)
  own : form.Standalone (cutOut head rest)
  whole : Trivia.Whole (leftBehind head)
  line : ∃ next others, behind = next :: others ∧ next.FollowsLineEnd
  keeps : leftBehind head = [] → ∀ next ∈ behind.head?, next.leading.head? = some '\r' →
    ∀ last ∈ front.getLast?, last.isOpenQuoted = false

namespace Lone
variable {front behind : List Token} {form : Directive} {head : Token} {rest : List Token}

theorem nonempty (h : Lone front form head rest behind) : behind ≠ [] := by
  obtain ⟨next, others, rfl, -⟩ := h.line
  exact List.cons_ne_nil _ _

theorem behind_lexed (h : Lone front form head rest behind) : Lexed behind := by
  have whole := h.lexed
  rw [← List.append_assoc] at whole
  exact whole.of_append h.nonempty

theorem lineEnds (h : Lone front form head rest behind) : LineEnds (render behind) := by
  have lexed := h.behind_lexed
  obtain ⟨next, others, rfl, breaks | ⟨more, hmore⟩⟩ := h.line
  · exact .inl (breaks_render_of_followsBreak lexed breaks)
  · exact .inr ⟨more ++ next.text ++ next.trailing ++ render others, by simp [Token.source, ← hmore]⟩

/-- In front of the directive the text begins with what the directive leaves behind. -/
theorem exists_render (head : Token) (rest behind : List Token) :
    ∃ s, render (head :: rest ++ behind) = leftBehind head ++ s := by
  refine ⟨(Text.cutAtLastNewline head.leading).2 ++ (head.text ++ (head.trailing ++ render (rest ++ behind))), ?_⟩
  rw [leftBehind, ← List.append_assoc, Text.cutAtLastNewline_append]
  simp [Token.source]

/-- What was in front of the directive is read in front of anything that begins a line behind what the directive
leaves there. -/
theorem ofText_front (h : Lone front form head rest behind) {s : List Char} (ends : LineEnds s)
    (keeps : leftBehind head = [] → s.head? = some '\r' → ∀ last ∈ front.getLast?, last.isOpenQuoted = false) :
    Token.ofText (render front ++ (leftBehind head ++ s)) = front ++ Token.ofText (leftBehind head ++ s) := by
  have own : ∀ token ∈ front, token.Ends := fun token hmem => h.ends token (List.mem_append_left _ hmem)
  have hothers : head :: rest ++ behind ≠ [] := List.cons_ne_nil _ _
  obtain ⟨more, hmore⟩ := exists_render head rest behind
  have like {z : List Char} (breaks : Text.Breaks z) :
      Resembles (render (head :: rest ++ behind)) (leftBehind head ++ z) := by
    rw [hmore]
    exact .breaks breaks (h.whole.apart more)
  rcases ends.cases with breaks | ⟨others, rfl⟩
  · exact h.lexed.ofText_append hothers own (like breaks)
  · exact h.lexed.ofText_append_return hothers own (like (Text.breaks_newline [])) (fun hkept => keeps hkept rfl) others

/-- The first token behind the directive begins the same line as before, or else what is put in does. -/
theorem lineEnds_spliced {gap unit beyond : List Token} (h : Lone front form head rest (gap ++ beyond))
    (hbeyond : beyond ≠ []) (breaks : Text.Breaks (render (unit ++ beyond))) :
    LineEnds (render (gap ++ (unit ++ beyond))) ∧ (leftBehind head = [] →
      (render (gap ++ (unit ++ beyond))).head? = some '\r' → ∀ last ∈ front.getLast?, last.isOpenQuoted = false) := by
  cases gap with
  | nil =>
    refine ⟨.inl breaks, fun _ returned => ?_⟩
    exact absurd (breaks _ returned) (by decide)
  | cons next gap =>
    obtain ⟨_, _, hcons, follows⟩ := h.line
    obtain ⟨rfl, -⟩ := List.cons.inj hcons
    have begins (c : Char) (more : List Char) (hleading : next.leading = c :: more) :
        ∃ rest, render (next :: gap ++ (unit ++ beyond)) = c :: (more ++ rest) := by
      refine ⟨next.text ++ next.trailing ++ render (gap ++ (unit ++ beyond)), ?_⟩
      simp [Token.source, hleading]
    rcases follows with (newline | ⟨final, -⟩) | ⟨more, returned⟩
    · obtain ⟨more, hmore⟩ := List.head?_eq_some_iff.1 newline
      obtain ⟨rest, hrest⟩ := begins '\n' more hmore
      rw [hrest]
      exact ⟨.inl (Text.breaks_newline _), fun _ returned => absurd returned (by simp)⟩
    · exact absurd final (h.behind_lexed.kind_ne (List.append_ne_nil_of_right_ne_nil gap hbeyond))
    · obtain ⟨rest, hrest⟩ := begins '\r' ('\n' :: more) returned.symm
      rw [hrest]
      exact ⟨.inr ⟨more ++ rest, rfl⟩, fun hkept _ => h.keeps hkept next rfl (by rw [← returned]; rfl)⟩

/-- The directive can be put in anywhere behind where it was. -/
theorem exists_before {gap beyond : List Token} (h : Lone front form head rest (gap ++ beyond)) (hbeyond : beyond ≠ [])
    {unit : List Token} (standalone : form.Standalone unit) (fresh : Fresh unit) : ∃ before kept,
      Lexed (front ++ before ++ (prepend kept unit ++ beyond)) ∧ before.map stripped = gap.map stripped ∧
      render (front ++ before) ++ kept = render front ++ (leftBehind head ++ render gap) := by
  have behind := h.behind_lexed
  have later := behind.of_append hbeyond
  have quiet : Trivia.trailing (render beyond) = 0 := by
    cases gap with
    | nil => exact Trivia.trailing_of_lineEnds h.lineEnds
    | cons next gap => exact behind.trailing_eq_zero (List.cons_ne_nil _ _) hbeyond
  have placed : Lexed (unit ++ beyond) := by
    rw [Lexed, Token.render_append, standalone.ofText_append quiet, later]
  obtain ⟨others, hothers⟩ := fresh.exists_render
  have breaks : Text.Breaks (render (unit ++ beyond)) := by
    rw [Token.render_append, hothers]
    exact Text.breaks_newline _
  have spliced : Lexed (gap ++ (unit ++ beyond)) := by
    refine behind.append_resembles hbeyond (fun token hmem => ?_) placed (.of_breaks _ breaks)
    exact h.ends token (List.mem_append_right _ (List.mem_append_left _ hmem))
  have line := h.lineEnds_spliced hbeyond breaks
  have all : Lexed (front ++ prepend (leftBehind head) (gap ++ (unit ++ beyond))) := by
    have pended := spliced.prepend_lineEnds h.whole line.1
    have front_eq := h.ofText_front line.1 line.2
    rw [← Token.render_prepend _ spliced.ne_nil, pended] at front_eq
    rwa [Lexed, Token.render_append]
  cases gap with
  | nil =>
    refine ⟨[], leftBehind head, ?_, rfl, by simp⟩
    obtain ⟨first, unit, rfl⟩ := List.exists_cons_of_ne_nil (standalone_ne_nil standalone)
    simpa [prepend] using all
  | cons next gap =>
    refine ⟨prepend (leftBehind head) (next :: gap), [], ?_, Token.map_stripped_prepend _ _, ?_⟩
    · rw [Token.prepend_nil]
      simpa [prepend] using all
    · rw [List.append_nil, Token.render_append, Token.render_prepend _ (List.cons_ne_nil _ _)]

end Lone

/-! ## Directives among the parts -/

theorem piecesOf_ne_nil_of_shaped {parts : List Part} (h : Shaped parts) (hparts : parts ≠ []) :
    piecesOf parts ≠ [] := by
  obtain ⟨part, parts, rfl⟩ := List.exists_cons_of_ne_nil hparts
  refine List.append_ne_nil_of_left_ne_nil (fun hnil => ?_) _
  have none : part.tokens = [] := List.length_eq_zero_iff.1 (by rw [← length_pieces, hnil, List.length_nil])
  cases hform : part.form? with
  | none => cases part <;> simp_all [Part.form?, Part.tokens]
  | some form =>
    have shape := (h part List.mem_cons_self form hform).1
    rw [none] at shape
    cases shape

/-- Where a directive among some parts is, and that its tokens are there. -/
theorem first?_of_mem_placesFrom {parts : List Part} (shaped : Shaped parts) {start index : Nat}
    {form : Directive} (h : (index, form) ∈ placesFrom start parts) :
    start ≤ index ∧ index + form.size ≤ start + (tokensOf parts).length ∧
      Directive.first? ((tokensOf parts).drop (index - start)) = some form := by
  obtain ⟨front, part, behind, rfl, hform, rfl⟩ := exists_of_mem_placesFrom h
  obtain ⟨shape, size⟩ := shaped part (by simp) form hform
  refine ⟨Nat.le_add_right _ _, ?_, ?_⟩
  · rw [tokensOf_append, tokensOf_cons, List.length_append, List.length_append, size]
    omega
  · rw [Nat.add_sub_cancel_left, tokensOf_append, List.drop_left, tokensOf_cons]
    exact Directive.first?_append shape _

/-- A directive in a program that is in parts. -/
structure Sits (text : List Char) (front : List Part) (part : Part) (behind : List Part) (form : Directive)
    (head : Token) (rest : List Token) : Prop where
  tokens : Token.ofText text = tokensOf (front ++ part :: behind)
  shaped : Shaped (front ++ part :: behind)
  directive : part.form? = some form
  own : part.tokens = head :: rest
  detach_eq : (Draft.ofTokens (Token.ofText text)).detach (tokensOf front).length form.size
    = (⟨remainder (leftBehind head) (piecesOf front) (piecesOf behind)⟩, headed form (cutOut head rest))
  lone : Lone (tokensOf front) form head rest (tokensOf behind)

/-- A directive that is alone on its line sits in its program, if no token is left open. -/
theorem exists_sits {text : List Char} (terminated : ∀ token ∈ Token.ofText text, token.unterminated = false)
    {index : Nat} {form : Directive} (hplace : (index, form) ∈ (Source.ofText text).directives)
    (alone : Directive.OnOwnLine (Token.ofText text) index form) :
    ∃ front part behind head rest, Sits text front part behind form head rest ∧ index = (tokensOf front).length ∧
      partsOf (Token.ofText text) = front ++ part :: behind := by
  have lexed := Token.lexed_ofText text
  have shaped := shaped_partsOf (Token.ofText text)
  have tokens := tokensOf_partsOf (Token.ofText text)
  obtain ⟨front, part, behind, head, rest, hparts, hpart, hcons, rfl, read, nonempty, detached⟩ := exists_part hplace
  rw [hparts] at shaped tokens
  refine ⟨front, part, behind, head, rest, ⟨tokens.symm, shaped, hpart, hcons, detached, ?_⟩, rfl, hparts⟩
  have whole : Token.ofText text = tokensOf front ++ (head :: rest ++ tokensOf behind) := by
    rw [← tokens, tokensOf_append, tokensOf_cons, hcons]
  have here : (Token.ofText text).drop (tokensOf front).length = head :: rest ++ tokensOf behind := by
    rw [whole, List.drop_left]
  have ownLexed : Lexed (head :: rest ++ tokensOf behind) := by
    rw [whole] at lexed
    exact lexed.of_append (List.cons_ne_nil _ _)
  have size := read.size
  obtain ⟨standalone, -⟩ := standalone_of_leavesLineOpen here ownLexed (Directive.first?_append read.shape _)
    fun close hclose => Trivia.leavesOpen_of_isSpaceOrTab (alone.behind close hclose)
  rw [← size, List.take_left] at standalone
  have atHead : (Token.ofText text)[(tokensOf front).length]? = some head := by
    rw [← List.head?_drop, here]
    rfl
  have atBehind : (Token.ofText text)[(tokensOf front).length + form.size]? = (tokensOf behind).head? := by
    rw [← List.head?_drop, ← List.drop_drop, here, ← size, List.drop_left]
  have kind : head.kind ≠ .endOfText := by
    obtain ⟨_, _, same, hbegins⟩ := Directive.begins_of_first? read.shape
    obtain ⟨rfl, rfl⟩ := List.cons.inj same
    rw [Directive.kind_of_begins hbegins]
    decide
  have left : Trivia.Whole (leftBehind head) := ownLexed.whole_cutAtLastNewline kind (alone.before head atHead)
  have unit := standalone_onOwnLine standalone left
  refine ⟨whole ▸ lexed, fun token hmem => ?_, unit, standalone_cutOut unit, left, ?_, fun hkept next hnext => ?_⟩
  · have inside : token ∈ Token.ofText text := by
      rw [whole]
      rcases List.mem_append.1 hmem with before | later
      · exact List.mem_append_left _ before
      · exact List.mem_append_right _ (List.mem_append_right _ later)
    exact ends_of_terminated (fun _ => lexed) token inside (terminated token inside)
  · obtain ⟨next, others, hnext⟩ := List.exists_cons_of_ne_nil nonempty
    have follows : (Token.ofText text)[(tokensOf front).length + form.size]? = some next := by rw [atBehind, hnext]; rfl
    exact ⟨next, others, hnext, alone.ends.imp (· next follows) fun ends => ends.1 next follows⟩
  · rcases alone.ends with ends | ⟨-, open_none⟩
    · rcases ends next (atBehind.trans hnext) with newline | ⟨-, final⟩
      · rw [newline]
        exact fun returned => absurd returned (by decide)
      · rw [final]
        exact fun returned => absurd returned (by decide)
    · have keeps := open_none head atHead hkept
      rw [whole, List.take_left] at keeps
      exact fun _ => keeps

namespace Sits
variable {text : List Char} {front behind : List Part} {part : Part} {form : Directive} {head : Token}
  {rest : List Token} (h : Sits text front part behind form head rest)
include h

theorem shape : Directive.first? (head :: rest) = some form ∧ (head :: rest).length = form.size :=
  h.own ▸ h.shaped part (by simp) form h.directive

theorem shaped_behind : Shaped behind := (List.forall_mem_cons.1 h.shaped.of_append.2).2

end Sits

/-! ## The draft without the directive -/

/-- A place that is inside no directive is between two parts. -/
theorem exists_split {front : List Piece} {parts : List Part} (shaped : Shaped parts) {slot : Nat}
    (behind : front.length ≤ slot) (inside : slot < (front ++ piecesOf parts).length)
    (outside : ∀ place other, (⟨front ++ piecesOf parts⟩ : Draft).directiveAt? place = some other →
      ¬ (place < slot ∧ slot < place + other.size)) :
    ∃ gap beyond, parts = gap ++ beyond ∧ beyond ≠ [] ∧ slot = front.length + (tokensOf gap).length := by
  have extend {part : Part} {parts : List Part} {front : List Piece}
      (found : ∃ gap beyond, parts = gap ++ beyond ∧ beyond ≠ [] ∧
        slot = (front ++ part.pieces).length + (tokensOf gap).length) :
      ∃ gap beyond, part :: parts = gap ++ beyond ∧ beyond ≠ [] ∧ slot = front.length + (tokensOf gap).length := by
    obtain ⟨gap, beyond, rfl, hbeyond, hslot⟩ := found
    refine ⟨part :: gap, beyond, rfl, hbeyond, ?_⟩
    rw [hslot, tokensOf_cons, List.length_append, List.length_append, length_pieces, Nat.add_assoc]
  have here {parts : List Part} {front : List Piece} (hparts : parts ≠ []) (hslot : front.length = slot) :
      ∃ gap beyond, parts = gap ++ beyond ∧ beyond ≠ [] ∧ slot = front.length + (tokensOf gap).length :=
    ⟨[], parts, rfl, hparts, hslot.symm⟩
  induction parts using parts_induction generalizing front with
  | nil =>
    rw [piecesOf, List.flatMap_nil, List.append_nil] at inside
    exact absurd inside (Nat.not_lt.2 behind)
  | token token parts ih =>
    replace shaped := List.forall_mem_cons.1 shaped
    rcases Nat.eq_or_lt_of_le behind with hslot | further
    · exact here (List.cons_ne_nil _ _) hslot
    · have whole : front ++ piecesOf (.plain token :: parts) = (front ++ (Part.plain token).pieces) ++ piecesOf parts :=
        (List.append_assoc _ _ _).symm
      rw [whole] at inside outside
      refine extend (ih shaped.2 ?_ inside outside)
      rw [List.length_append]
      exact further
  | directive part form parts hform ih =>
    replace shaped := List.forall_mem_cons.1 shaped
    rcases Nat.eq_or_lt_of_le behind with hslot | further
    · exact here (List.cons_ne_nil _ _) hslot
    · have whole : front ++ piecesOf (part :: parts) = (front ++ part.pieces) ++ piecesOf parts :=
        (List.append_assoc _ _ _).symm
      obtain ⟨hshape, hsize⟩ := shaped.1 form hform
      obtain ⟨head, rest, hcons, -⟩ := Directive.begins_of_first? hshape
      have at_start : (⟨front ++ piecesOf (part :: parts)⟩ : Draft).directiveAt? front.length = some form := by
        rw [Draft.directiveAt?, whole, pieces_of_form hform, hcons, headed]
        simp [Piece.ofToken]
      have beyond := outside front.length form at_start
      rw [whole] at inside outside
      refine extend (ih shaped.2 ?_ inside outside)
      rw [List.length_append, length_pieces, hsize]
      omega

/-- A cut marks no directives. -/
theorem directiveAt?_remainder (kept : List Char) (front behind : List Piece) (place : Nat) :
    (⟨remainder kept front behind⟩ : Draft).directiveAt? place = (⟨front ++ behind⟩ : Draft).directiveAt? place := by
  have marks : (remainder kept front behind).map Piece.directive = (front ++ behind).map Piece.directive := by
    unfold remainder
    split
    · next none =>
      subst none
      cases behind <;> rfl
    · rw [List.map_append, List.map_append]
      refine congrArg (· ++ _) ?_
      rw [← modify_map front Piece.directive id (Piece.append kept) (fun _ => rfl), List.modify_id]
  have same := congrArg (fun marks => marks[place]?.bind id) marks
  rw [List.getElem?_map, List.getElem?_map, Option.bind_map, Option.bind_map] at same
  exact same

/-- What is left of a draft without a directive is split at every place but the start: before it is what was there,
with what the directive left behind where it was. -/
theorem exists_pieces {front gap : List Part} (kept : List Char) (beyond : List Part)
    (shapedFront : Shaped front) (shaped : Shaped gap) (before : front ++ gap ≠ []) : ∃ pieces, pieces ≠ [] ∧
      remainder kept (piecesOf front) (piecesOf (gap ++ beyond)) = pieces ++ piecesOf beyond ∧
      pieces.length = (tokensOf (front ++ gap)).length ∧
      renderPieces pieces = render (tokensOf front) ++ (kept ++ render (tokensOf gap)) := by
  by_cases hfront : front = []
  · subst hfront
    obtain ⟨first, others, hpieces⟩ := List.exists_cons_of_ne_nil (piecesOf_ne_nil_of_shaped shaped before)
    refine ⟨first.prepend kept :: others, List.cons_ne_nil _ _, ?_, ?_, ?_⟩
    · rw [show piecesOf [] = [] from rfl, remainder_nil, piecesOf_append, hpieces]
      rfl
    · rw [List.nil_append, ← length_piecesOf, hpieces, List.length_cons, List.length_cons]
    · rw [← renderPieces_piecesOf gap, hpieces]
      simp [tokensOf, Piece.prepend, Piece.source]
  · have filled := piecesOf_ne_nil_of_shaped shapedFront hfront
    obtain ⟨pieces, hremainder, hlength, hrender⟩ := exists_remainder kept filled (piecesOf (gap ++ beyond))
    refine ⟨pieces ++ piecesOf gap, ?_, ?_, ?_, ?_⟩
    · exact List.append_ne_nil_of_left_ne_nil (List.ne_nil_of_length_pos (hlength ▸ List.length_pos_iff.2 filled)) _
    · rw [hremainder, piecesOf_append, List.append_assoc]
    · rw [List.length_append, hlength, length_piecesOf, length_piecesOf, tokensOf_append, List.length_append]
    · rw [renderPieces_append, hrender, renderPieces_piecesOf, renderPieces_piecesOf, List.append_assoc]

/-- A place that is inside no directive is between the parts behind the one that is cut out. -/
theorem Sits.exists_gap {text : List Char} {front behind : List Part} {part : Part} {form : Directive} {head : Token}
    {rest : List Token} (h : Sits text front part behind form head rest) {slot : Nat}
    (after : (tokensOf front).length ≤ slot)
    (inside : slot < (remainder (leftBehind head) (piecesOf front) (piecesOf behind)).length)
    (outside : ∀ place other,
      (⟨remainder (leftBehind head) (piecesOf front) (piecesOf behind)⟩ : Draft).directiveAt? place = some other →
        ¬ (place < slot ∧ slot < place + other.size)) :
    ∃ gap beyond, behind = gap ++ beyond ∧ beyond ≠ [] ∧ slot = (tokensOf (front ++ gap)).length := by
  obtain ⟨gap, beyond, rfl, hbeyond, hslot⟩ := exists_split h.shaped_behind (by rwa [length_piecesOf])
    (by rwa [List.length_append, ← length_remainder (leftBehind head)])
    fun place other hother => outside place other ((directiveAt?_remainder _ _ _ place).trans hother)
  exact ⟨gap, beyond, rfl, hbeyond, by rw [hslot, length_piecesOf, tokensOf_append, List.length_append]⟩

/-! ## What a candidate reads as -/

theorem map_stripped_announce (line : Nat) {tokens others : List Token}
    (h : tokens.map stripped = others.map stripped) :
    (announce line tokens).map stripped = (announce line others).map stripped := by
  have length : tokens.length = others.length := by simpa using congrArg List.length h
  unfold announce
  rw [length]
  split
  · have renumbered (tokens : List Token) : (Directive.renumber (line + 1) tokens).map stripped
        = (tokens.map stripped).modify Directive.lineToken
            fun token => { token with text := Text.Decimal.write (line + 1) } :=
      (modify_map tokens stripped _ (fun token => { token with text := Text.Decimal.write (line + 1) })
        (fun _ => rfl) Directive.lineToken).symm
    rw [renumbered, renumbered, h]
  · exact h

/-- A program that reads as some tokens with a directive among them, which stands on some line. -/
def Spliced (text : List Char) (line : Nat) (before unit behind : List Token) : Prop :=
  ∃ front head rest others, Token.ofText text = front ++ head :: (rest ++ others) ∧
    front.map stripped = before.map stripped ∧ (head :: rest).map stripped = unit.map stripped ∧
    others.map stripped = behind.map stripped ∧ line = 1 + Text.newlines (render front ++ head.leading)

namespace Sits
variable {text candidate : List Char} {front gap beyond behind : List Part} {part : Part} {form : Directive}
  {head : Token} {rest : List Token} {landed : Nat}

theorem spliced (h : Sits text front part (gap ++ beyond) form head rest) (hbeyond : beyond ≠ [])
    (before : front ++ gap ≠ [])
    (hplaced : placed ⟨remainder (leftBehind head) (piecesOf front) (piecesOf (gap ++ beyond))⟩
      (headed form (cutOut head rest)) (tokensOf (front ++ gap)).length = (candidate, landed)) :
    Spliced candidate landed (tokensOf (front ++ gap)) (announce landed (head :: rest)) (tokensOf beyond) := by
  have lone := h.lone
  rw [tokensOf_append] at lone
  have shaped := h.shaped_behind.of_append
  obtain ⟨pieces, filled, hremainder, hlength, hrender⟩ :=
    exists_pieces (leftBehind head) beyond h.shaped.of_append.1 shaped.1 before
  have further : tokensOf beyond ≠ [] := by
    have := piecesOf_ne_nil_of_shaped shaped.2 hbeyond
    rwa [Ne, ← List.length_eq_zero_iff, length_piecesOf, List.length_eq_zero_iff] at this
  rw [hremainder, ← hlength] at hplaced
  obtain ⟨announced, hline, hcandidate⟩ := placed_append pieces (piecesOf beyond) form (cutOut head rest)
  rw [hplaced] at hcandidate
  obtain ⟨rfl, rfl⟩ := Prod.mk.inj hcandidate
  rw [unitAt_of_ne_zero (Nat.ne_of_gt (List.length_pos_iff.2 filled))] at hline ⊢
  obtain ⟨between, kept, lexed, same, text_eq⟩ := lone.exists_before further (standalone_announce lone.unit landed)
    (fresh_announce landed head rest)
  obtain ⟨rest', hrest'⟩ := exists_announce landed { head with leading := freshLeading head.leading } rest
  have unit : announce landed (onOwnLine head rest) = { head with leading := freshLeading head.leading } :: rest' :=
    hrest'
  have own : (announce landed (onOwnLine head rest)).map stripped = (announce landed (head :: rest)).map stripped :=
    map_stripped_announce landed rfl
  rw [unit] at lexed own ⊢
  refine ⟨tokensOf front ++ between, { head with leading := kept ++ freshLeading head.leading }, rest',
    tokensOf beyond, ?_, ?_, own, rfl, ?_⟩
  · refine Eq.trans (congrArg Token.ofText ?_) (lexed.trans ?_)
    · rw [hrender, ← text_eq, renderPieces_piecesOf]
      simp [prepend, Token.source]
    · simp [prepend]
  · rw [tokensOf_append, List.map_append, List.map_append, same]
  · rw [hline, onOwnLine, lineOf_headed, hrender, ← text_eq]
    simp

/-- At the start of a program the directive is put in before what it left behind. -/
theorem spliced_start (h : Sits text [] part behind form head rest)
    (hplaced : placed ⟨remainder (leftBehind head) [] (piecesOf behind)⟩ (headed form (cutOut head rest)) 0
      = (candidate, landed)) :
    Spliced candidate landed [] (announce landed (head :: rest)) (tokensOf behind) := by
  have lone := h.lone
  have lexed := lone.behind_lexed.prepend_lineEnds lone.whole lone.lineEnds
  have remaining : renderPieces ((piecesOf behind).modifyHead (Piece.prepend (leftBehind head)))
      = render (prepend (leftBehind head) (tokensOf behind)) := by
    have filled : piecesOf behind ≠ [] := by
      rw [Ne, ← List.length_eq_zero_iff, length_piecesOf, List.length_eq_zero_iff]
      exact lone.nonempty
    have whole := @render_remainder (leftBehind head) [] _ filled
    rwa [remainder_nil, renderPieces_piecesOf, ← Token.render_prepend _ lone.nonempty] at whole
  rw [remainder_nil] at hplaced
  obtain ⟨announced, hline, hcandidate⟩ :=
    placed_append [] ((piecesOf behind).modifyHead (Piece.prepend (leftBehind head))) form (cutOut head rest)
  rw [List.nil_append, List.length_nil, hplaced, remaining] at hcandidate
  obtain ⟨rfl, rfl⟩ := Prod.mk.inj hcandidate
  have standalone := standalone_announce lone.own landed
  obtain ⟨front, close, taken, left, hunit, -, -, hleft, hwhole⟩ :=
    standalone.exists_ofText_append (render (prepend (leftBehind head) (tokensOf behind)))
  have left_same : (Token.ofText left).map stripped = (tokensOf behind).map stripped := by
    rw [← Token.map_stripped_prepend taken, ← hleft, lexed, Token.map_stripped_prepend]
  obtain ⟨rest', hrest'⟩ := exists_announce landed { head with leading := (Text.cutAtLastNewline head.leading).2 } rest
  rw [cutOut] at hunit hwhole hline standalone ⊢
  cases front with
  | nil =>
    have := standalone.size
    rw [hunit] at this
    cases form <;> cases this
  | cons first front =>
    have own := (map_stripped_announce landed rfl :
      (announce landed ({ head with leading := (Text.cutAtLastNewline head.leading).2 } :: rest)).map stripped
        = (announce landed (head :: rest)).map stripped)
    obtain ⟨rfl, -⟩ := List.cons.inj (hunit.symm.trans hrest')
    rw [hunit, List.map_append] at own
    refine ⟨[], { head with leading := (Text.cutAtLastNewline head.leading).2 },
      front ++ [{ close with trailing := close.trailing ++ taken }], Token.ofText left, ?_, rfl, ?_, left_same, ?_⟩
    · refine (show Token.ofText _ = _ from hwhole).trans ?_
      simp
    · rw [← own]
      simp [stripped]
    · rw [hline]
      exact lineOf_headed [] _ form _ rest

end Sits

theorem similar_of_map_stripped {tokens others : List Token} (h : tokens.map stripped = others.map stripped) :
    List.Forall₂ Token.Similar tokens others := by
  refine similar_of_map (fun token other same => ?_) h
  obtain ⟨hkind, -, htext, -, hunterminated⟩ := Token.mk.inj same
  exact ⟨hkind, hunterminated, fun _ => htext⟩

theorem announced?_congr {tokens others : List Token} (h : tokens.map stripped = others.map stripped) :
    Directive.announced? tokens = Directive.announced? others := by
  have number := congrArg (fun tokens => tokens[Directive.lineToken]?.map Token.text) h
  simp only [List.getElem?_map, Option.map_map] at number
  unfold Directive.announced?
  rw [Directive.first?_congr (similar_of_map_stripped h)]
  split
  · cases htoken : tokens[Directive.lineToken]? with
    | none => cases hother : others[Directive.lineToken]? <;> simp_all
    | some token => cases hother : others[Directive.lineToken]? <;> simp_all [Token.stripped]
  · rfl

namespace Spliced
variable {text : List Char} {line : Nat} {before unit behind : List Token}
  (h : Spliced text line before unit behind)
include h

theorem map_stripped : (Token.ofText text).map stripped = (before ++ unit ++ behind).map stripped := by
  obtain ⟨front, head, rest, others, htokens, hfront, hunit, hothers, -⟩ := h
  rw [htokens, ← List.cons_append, ← List.append_assoc]
  simp only [List.map_append, hfront, hunit, hothers]

theorem lineOf_eq : (Source.ofText text).lineOf before.length = line := by
  obtain ⟨front, head, rest, others, htokens, hfront, -, -, rfl⟩ := h
  have length : front.length = before.length := by simpa using congrArg List.length hfront
  rw [← length, Source.lineOf_eq htokens]

theorem mem_directives {place : Nat} {form : Directive}
    (hform : Directive.first? ((before ++ unit ++ behind).drop place) = some form) :
    (place, form) ∈ (Source.ofText text).directives := by
  have same := congrArg (List.drop place) h.map_stripped
  rw [← List.map_drop, ← List.map_drop] at same
  have := Directive.mem_places_of_first? ((Directive.first?_congr (similar_of_map_stripped same)).trans hform) 0
  rwa [Nat.zero_add] at this

end Spliced

/-- Where a token comes to be, when `size` tokens move from the place `index` to the place `slot` behind it: those
between the two places take the room that is left. -/
def placeBehind (index size slot place : Nat) : Nat :=
  if index ≤ place ∧ place - size < slot then place - size else place

theorem length_announce (line : Nat) (tokens : List Token) : (announce line tokens).length = tokens.length := by
  unfold announce
  split <;> simp [Directive.renumber]

/-- The other directives of a program are whole in a candidate. -/
theorem Sits.mem_directives {text candidate : List Char} {front gap beyond : List Part} {part : Part} {form : Directive}
    {head : Token} {rest : List Token} (h : Sits text front part (gap ++ beyond) form head rest)
    (split : partsOf (Token.ofText text) = front ++ part :: (gap ++ beyond)) {landed : Nat}
    (spliced : Spliced candidate landed (tokensOf (front ++ gap)) (announce landed (head :: rest)) (tokensOf beyond))
    {place : Nat} {other : Directive} (hplace : (place, other) ∈ (Source.ofText text).directives)
    (apart : place ≠ (tokensOf front).length) :
    (placeBehind (tokensOf front).length form.size (tokensOf (front ++ gap)).length place, other)
      ∈ (Source.ofText candidate).directives := by
  have size : (tokensOf [part]).length = form.size := by
    rw [tokensOf_cons, h.own]
    simpa [tokensOf] using h.shape.2
  have room : (announce landed (head :: rest)).length = form.size := by rw [length_announce, h.shape.2]
  have positive := Directive.size_pos other
  have hplace : (place, other) ∈ placesFrom 0 (front ++ ([part] ++ (gap ++ beyond))) := by
    rw [List.singleton_append, ← split, placesFrom_partsOf]
    exact hplace
  rw [placesFrom_append, placesFrom_append, placesFrom_append, Nat.zero_add, size] at hplace
  obtain ⟨shapedGap, shapedBeyond⟩ := h.shaped_behind.of_append
  refine spliced.mem_directives ?_
  rw [tokensOf_append, List.length_append, placeBehind, List.append_assoc, List.append_assoc]
  rcases List.mem_append.1 hplace with earlier | hplace
  · obtain ⟨-, within, shape⟩ := first?_of_mem_placesFrom h.shaped.of_append.1 earlier
    rw [if_neg (by omega), List.drop_append_of_le_length (by omega)]
    exact Directive.first?_append shape _
  rcases List.mem_append.1 hplace with own | hplace
  · have own : form = other ∧ (tokensOf front).length = place := by
      simpa [placesFrom, h.directive, and_comm, eq_comm] using own
    exact absurd own.2.symm apart
  rcases List.mem_append.1 hplace with passed | later
  · obtain ⟨after, within, shape⟩ := first?_of_mem_placesFrom shapedGap passed
    rw [if_pos (by omega), show place - form.size = (tokensOf front).length + (place - ((tokensOf front).length + form.size))
      by omega, ← List.drop_drop, List.drop_left, List.drop_append_of_le_length (by omega)]
    exact Directive.first?_append shape _
  · obtain ⟨after, within, shape⟩ := first?_of_mem_placesFrom shapedBeyond later
    rw [if_neg (by omega), show place = (tokensOf front).length + ((tokensOf gap).length
        + ((announce landed (head :: rest)).length
          + (place - ((tokensOf front).length + form.size + (tokensOf gap).length)))) by omega,
      ← List.drop_drop, List.drop_left, ← List.drop_drop, List.drop_left, ← List.drop_drop, List.drop_left]
    exact shape

/-- A directive with a line announces in a candidate the line below its own. -/
theorem Lone.announced? {candidate : List Char} {front behind : List Token} {head : Token} {rest : List Token}
    (h : Lone front .located head rest behind) {landed : Nat} {before beyond : List Token}
    (spliced : Spliced candidate landed before (announce landed (head :: rest)) beyond) :
    Directive.announced? ((Token.ofText candidate).drop before.length)
      = (some (landed + 1)).filter (· < Directive.lineBound) := by
  have located : (onOwnLine head rest).length = Directive.located.size := h.unit.size
  rw [← h.unit.announced?_renumber (landed + 1) [] beyond]
  refine announced?_congr ?_
  rw [List.map_drop, spliced.map_stripped, ← List.map_drop, List.append_assoc, List.drop_left, List.map_append,
    List.map_append, Token.prepend_nil, map_stripped_announce landed (show (head :: rest).map stripped
      = (onOwnLine head rest).map stripped from rfl), announce, if_pos located]

/-- What a move tries reads as what was put together. In a program no token of which is left open, a directive
that is alone on its line is cut out and put in again, at any place from its own on that is inside no other
directive, be it the start of a line or not: the text that is rendered has the other tokens, in their order, with
the directive in front of the one at that place. All other directives are whole there, and the directive itself
is one, stands on the line that was told, and announces the line below it, if it announces any. Spaces and tabs
may stand beside the directive, and a `\r` at the end of its line, if there is no open identifier in front to take
that `\r` along. -/
theorem ofText_placed {text : List Char} (terminated : ∀ token ∈ Token.ofText text, token.unterminated = false)
    {index : Nat} {form : Directive} (hplace : (index, form) ∈ (Source.ofText text).directives)
    (alone : Directive.OnOwnLine (Token.ofText text) index form) {draft : Draft} {unit : List Piece}
    (cut : (Draft.ofTokens (Token.ofText text)).detach index form.size = (draft, unit)) {slot : Nat}
    (after : index ≤ slot) (inside : slot < draft.pieces.length)
    (outside : ∀ place other, draft.directiveAt? place = some other → ¬ (place < slot ∧ slot < place + other.size))
    {candidate : List Char} {landed : Nat} (tried : placed draft unit slot = (candidate, landed)) :
    let own := ((Token.ofText text).drop index).take form.size
    let others := (Token.ofText text).take index ++ (Token.ofText text).drop (index + form.size)
    (Token.ofText candidate).map stripped
        = (others.take slot ++ announce landed own ++ others.drop slot).map stripped ∧
      (∀ place other, (place, other) ∈ (Source.ofText text).directives → place ≠ index →
        (placeBehind index form.size slot place, other) ∈ (Source.ofText candidate).directives) ∧
      (slot, form) ∈ (Source.ofText candidate).directives ∧
      (Source.ofText candidate).lineOf slot = landed ∧
      (form = .located → Directive.announced? ((Token.ofText candidate).drop slot)
        = (some (landed + 1)).filter (· < Directive.lineBound)) := by
  intro own others
  obtain ⟨front, part, behind, head, rest, sits, rfl, split⟩ := exists_sits terminated hplace alone
  rw [sits.detach_eq] at cut
  obtain ⟨rfl, rfl⟩ := Prod.mk.inj cut
  obtain ⟨gap, beyond, rfl, hbeyond, rfl⟩ := sits.exists_gap after inside outside
  have size := sits.shape.2
  have spliced : Spliced candidate landed (tokensOf (front ++ gap)) (announce landed (head :: rest)) (tokensOf beyond) := by
    by_cases start : front ++ gap = []
    · obtain ⟨rfl, rfl⟩ := List.append_eq_nil_iff.1 start
      exact sits.spliced_start tried
    · exact sits.spliced hbeyond start tried
  have tokens : Token.ofText text = tokensOf front ++ (head :: rest ++ tokensOf (gap ++ beyond)) := by
    rw [sits.tokens, tokensOf_append, tokensOf_cons, sits.own]
  have unit : own = head :: rest := by
    rw [show own = ((Token.ofText text).drop (tokensOf front).length).take form.size from rfl, tokens, List.drop_left,
      ← size, List.take_left]
  have remaining : others = tokensOf (front ++ gap) ++ tokensOf beyond := by
    rw [show others = (Token.ofText text).take (tokensOf front).length
      ++ (Token.ofText text).drop ((tokensOf front).length + form.size) from rfl, tokens, List.take_left,
      ← List.drop_drop, List.drop_left, ← size, List.drop_left, tokensOf_append, tokensOf_append, List.append_assoc]
  rw [unit, remaining, List.take_left, List.drop_left]
  refine ⟨spliced.map_stripped, fun place other hplace apart => sits.mem_directives split spliced hplace apart,
    spliced.mem_directives ?_, spliced.lineOf_eq, ?_⟩
  · have announced := (standalone_announce sits.lone.unit landed).shape
    have same : (announce landed (onOwnLine head rest)).map stripped = (announce landed (head :: rest)).map stripped :=
      map_stripped_announce landed rfl
    rw [Directive.first?_congr (similar_of_map_stripped same)] at announced
    rw [List.append_assoc, List.drop_left]
    exact Directive.first?_append announced _
  · rintro rfl
    exact sits.lone.announced? spliced

/-- The directive at the start of a program, behind a comment, is tried behind the other directive. All lines end
with `\r` and a line break. -/
theorem ofText_placed_behind :
    let text :=
      "/* a\r\n*/ // b\r\n #sourceLocation(file: \"t\", line: 9) \r\nf(\r\n\t#sourceLocation()\r\n\r\n1)".toList
    let draft := ((Draft.ofTokens (Token.ofText text)).detach 0 10).1
    let unit := ((Draft.ofTokens (Token.ofText text)).detach 0 10).2
    let candidate :=
      "/* a\r\n*/ // b\r\r\nf(\r\n\t#sourceLocation()\n #sourceLocation(file: \"t\", line: 6) \r\n\r\n1)".toList
    (∀ token ∈ Token.ofText text, token.unterminated = false) ∧
      (0, Directive.located) ∈ (Source.ofText text).directives ∧
      Directive.OnOwnLine (Token.ofText text) 0 .located ∧
      (5 < draft.pieces.length ∧ draft.startsLine 5 = true ∧ placed draft unit 5 = (candidate, 5)) ∧
      ((Token.ofText candidate).map stripped
          = (((Token.ofText text).take 0 ++ (Token.ofText text).drop 10).take 5
              ++ announce 5 (((Token.ofText text).drop 0).take 10)
              ++ ((Token.ofText text).take 0 ++ (Token.ofText text).drop 10).drop 5).map stripped ∧
        (Source.ofText candidate).lineOf 5 = 5) := by
  intro text draft unit candidate
  have terminated : ∀ token ∈ Token.ofText text, token.unterminated = false := by decide +kernel
  have first : (0, Directive.located) ∈ (Source.ofText text).directives := by decide +kernel
  have alone : Directive.OnOwnLine (Token.ofText text) 0 .located := by decide +kernel
  have slot : 5 < draft.pieces.length ∧ draft.startsLine 5 = true ∧ placed draft unit 5 = (candidate, 5) := by
    decide +kernel
  have marks : ∀ place < 5, ∀ other ∈ draft.directiveAt? place, place + other.size ≤ 5 := by decide +kernel
  have outside (place : Nat) (other : Directive) (h : draft.directiveAt? place = some other) :
      ¬ (place < 5 ∧ 5 < place + other.size) := fun ⟨before, within⟩ => by
    have := marks place before other h
    omega
  obtain ⟨tokens, -, -, stands, -⟩ := ofText_placed terminated first alone rfl (Nat.zero_le 5) slot.1 outside slot.2.2
  exact ⟨terminated, first, alone, slot, tokens, stands⟩

end SwiftTemplate.Repair
