import SwiftTemplate.Repair.Relocation
import SwiftTemplate.Proofs.Repair.Parts

/-!
# Drafts in parts

The draft of a program in parts falls into the pieces of the parts, and cutting a directive out or
putting one in exchanges parts.
-/
namespace SwiftTemplate.Repair

open Swift
open Swift.Token (render prepend)

/-! ## Directives among the parts -/

/-- A part that is a directive is one by its own tokens. -/
theorem shape_of_sound {part : Part} {parts : List Part} {form : Directive} (h : Sound (part :: parts))
    (hform : part.form? = some form) :
    Directive.first? part.tokens = some form ∧ part.tokens.length = form.size := by
  cases part with
  | plain token => cases hform
  | fixed form' tokens =>
    obtain rfl := Option.some.inj hform
    exact ⟨h.1.standalone.shape, h.1.standalone.size⟩
  | moved form' kept tokens =>
    obtain rfl := Option.some.inj hform
    refine ⟨(Directive.first?_prepend kept tokens).trans h.1.standalone.shape, ?_⟩
    simpa [Part.tokens, prepend] using h.1.standalone.size

/-- The tokens up to the first directive are the same with and without the directives. -/
private theorem exists_front {parts : List Part} (h : Sound parts) : ∃ front others more,
    tokensOf parts = front ++ others ∧ plainsOf parts = front ++ more ∧
      ∀ other, others.head? = some other → other.kind = .pound := by
  induction parts using parts_induction with
  | nil => exact ⟨[], [], [], rfl, rfl, by simp⟩
  | token token parts ih =>
    obtain ⟨front, others, more, htokens, hplains, hothers⟩ := ih h.2
    exact ⟨token :: front, others, more, by rw [tokensOf_cons, htokens]; rfl,
      by rw [plainsOf, hplains]; rfl, hothers⟩
  | directive part form parts hform ih =>
    refine ⟨[], tokensOf (part :: parts), plainsOf (part :: parts), rfl, rfl, ?_⟩
    intro other hother
    obtain ⟨head, rest, hcons, hbegins⟩ := Directive.begins_of_first? (shape_of_sound h hform).1
    rw [tokensOf_cons, hcons] at hother
    obtain rfl := Option.some.inj hother
    exact Directive.kind_of_begins hbegins

theorem first?_tokensOf {token : Token} {parts : List Part} (h : Sound parts)
    (bare : Directive.first? (token :: plainsOf parts) = none) :
    Directive.first? (token :: tokensOf parts) = none := by
  obtain ⟨front, others, more, htokens, hplains, hothers⟩ := exists_front h
  cases hform : Directive.first? (token :: tokensOf parts) with
  | none => rfl
  | some form =>
    rw [htokens] at hform
    have := Directive.first?_append_of_pound hform hothers more
    rw [← hplains, bare] at this
    cases this

/-- A directive among the parts is the first thing that is read where it begins, and the parts behind it
are read on. -/
theorem exists_head_of_sound {part : Part} {parts : List Part} {form : Directive} (h : Sound (part :: parts))
    (hform : part.form? = some form) : ∃ head rest, part.tokens = head :: rest ∧
      tokensOf (part :: parts) = head :: (rest ++ tokensOf parts) ∧
      Directive.first? (head :: (rest ++ tokensOf parts)) = some form ∧ rest.length = form.size - 1 := by
  obtain ⟨hshape, hsize⟩ := shape_of_sound h hform
  obtain ⟨head, rest, hcons, -⟩ := Directive.begins_of_first? hshape
  rw [hcons] at hshape hsize
  refine ⟨head, rest, hcons, ?_, ?_, ?_⟩
  · rw [tokensOf_cons, hcons]
    rfl
  · rw [← List.cons_append]
    exact Directive.first?_append hshape _
  · rw [← hsize, List.length_cons, Nat.add_sub_cancel]

/-- The places and forms of the directives among some parts, where the first token has the place `start`. -/
def placesFrom (start : Nat) : List Part → List (Nat × Directive)
  | [] => []
  | part :: parts => (part.form?.map (start, ·)).toList ++ placesFrom (start + part.tokens.length) parts

theorem placesFrom_append (start : Nat) (front parts : List Part) :
    placesFrom start (front ++ parts)
      = placesFrom start front ++ placesFrom (start + (tokensOf front).length) parts := by
  induction front generalizing start with
  | nil => rfl
  | cons part front ih =>
    rw [List.cons_append, placesFrom, placesFrom, ih, tokensOf_cons, List.length_append, List.append_assoc,
      Nat.add_assoc]

/-- The place of a token outside directives, by the number of such tokens before it, where the first
token has the place `start`. -/
def plainPlacesFrom (start : Nat) : List Part → List Nat
  | [] => []
  | .plain _ :: parts => start :: plainPlacesFrom (start + 1) parts
  | part :: parts => plainPlacesFrom (start + part.tokens.length) parts

theorem plainPlacesFrom_cons_of_form {part : Part} {form : Directive} (h : part.form? = some form) (start : Nat)
    (parts : List Part) :
    plainPlacesFrom start (part :: parts) = plainPlacesFrom (start + part.tokens.length) parts := by
  cases part with
  | plain token => cases h
  | fixed form' tokens => rfl
  | moved form' kept tokens => rfl

section
variable {parts : List Part} (h : Sound parts) (bare : Directive.Bare (plainsOf parts))
include h bare

theorem outside_tokensOf : Directive.outside (tokensOf parts) = plainsOf parts := by
  induction parts using parts_induction with
  | nil => rw [tokensOf, List.flatMap_nil, Directive.outside]; rfl
  | token token parts ih =>
    rw [tokensOf_cons, Part.tokens, List.singleton_append, Directive.outside, first?_tokensOf h.2 bare.1]
    exact congrArg (token :: ·) (ih h.2 bare.2)
  | directive part form parts hform ih =>
    obtain ⟨head, rest, -, htokens, hshape, hsize⟩ := exists_head_of_sound h hform
    rw [plainsOf_cons_of_form hform] at bare ⊢
    rw [htokens, Directive.outside, hshape]
    dsimp only
    rw [← hsize, List.drop_left]
    exact ih h.tail bare

/-- The directives of the program are those among its parts. -/
theorem places_tokensOf (start : Nat) : Directive.places start (tokensOf parts) = placesFrom start parts := by
  induction parts using parts_induction generalizing start with
  | nil => rw [tokensOf, List.flatMap_nil, Directive.places]; rfl
  | token token parts ih =>
    rw [tokensOf_cons, Part.tokens, List.singleton_append, Directive.places, first?_tokensOf h.2 bare.1]
    exact ih h.2 bare.2 _
  | directive part form parts hform ih =>
    obtain ⟨head, rest, -, htokens, hshape, hsize⟩ := exists_head_of_sound h hform
    rw [plainsOf_cons_of_form hform] at bare
    rw [htokens, Directive.places, hshape, placesFrom, hform, (shape_of_sound h hform).2]
    dsimp only
    rw [← hsize, List.drop_left]
    exact congrArg ((start, form) :: ·) (ih h.tail bare _)

/-- The places of the tokens outside directives are those of the plain parts. -/
theorem outsidePlaces_tokensOf (start : Nat) :
    Directive.outsidePlaces start (tokensOf parts) = plainPlacesFrom start parts := by
  induction parts using parts_induction generalizing start with
  | nil => rw [tokensOf, List.flatMap_nil, Directive.outsidePlaces]; rfl
  | token token parts ih =>
    rw [tokensOf_cons, Part.tokens, List.singleton_append, Directive.outsidePlaces, first?_tokensOf h.2 bare.1]
    exact congrArg (start :: ·) (ih h.2 bare.2 _)
  | directive part form parts hform ih =>
    obtain ⟨head, rest, -, htokens, hshape, hsize⟩ := exists_head_of_sound h hform
    rw [plainsOf_cons_of_form hform] at bare
    rw [htokens, Directive.outsidePlaces, hshape, plainPlacesFrom_cons_of_form hform, (shape_of_sound h hform).2]
    dsimp only
    rw [← hsize, List.drop_left]
    exact ih h.tail bare _

end

theorem exists_of_mem_placesFrom {parts : List Part} {start index : Nat} {form : Directive}
    (hmem : (index, form) ∈ placesFrom start parts) : ∃ front part behind,
      parts = front ++ part :: behind ∧ part.form? = some form ∧ index = start + (tokensOf front).length := by
  induction parts generalizing start with
  | nil => cases hmem
  | cons part parts ih =>
    rcases List.mem_append.1 hmem with own | later
    · obtain ⟨own, hform, heq⟩ := Option.map_eq_some_iff.1 (Option.mem_toList.1 own)
      obtain ⟨rfl, rfl⟩ := Prod.mk.inj heq
      exact ⟨[], part, parts, rfl, hform, rfl⟩
    · obtain ⟨front, part', behind, rfl, hform, hindex⟩ := ih later
      refine ⟨part :: front, part', behind, rfl, hform, ?_⟩
      rw [tokensOf_cons, List.length_append, ← Nat.add_assoc]
      exact hindex

/-! ## Pieces -/

/-- The pieces of a directive. -/
def headed (form : Directive) : List Token → List Piece
  | [] => []
  | head :: rest => .ofToken head (some form) :: rest.map (Piece.ofToken · none)

/-- The pieces of a part. -/
def Part.pieces : Part → List Piece
  | plain token => [.ofToken token none]
  | fixed form tokens => headed form tokens
  | moved form kept tokens => headed form (prepend kept tokens)

/-- The pieces of some parts. -/
def piecesOf (parts : List Part) : List Piece := parts.flatMap Part.pieces

/-- The text of some pieces. -/
def renderPieces (pieces : List Piece) : List Char := pieces.flatMap Piece.source

@[simp] theorem renderPieces_append (pieces others : List Piece) :
    renderPieces (pieces ++ others) = renderPieces pieces ++ renderPieces others := List.flatMap_append

@[simp] theorem renderPieces_cons (piece : Piece) (pieces : List Piece) :
    renderPieces (piece :: pieces) = piece.source ++ renderPieces pieces := rfl

theorem newlines_renderPieces (pieces : List Piece) :
    Text.newlines (renderPieces pieces) = pieces.foldr (fun piece n => piece.newlines + n) 0 := by
  induction pieces with
  | nil => rfl
  | cons piece pieces ih =>
    rw [List.foldr_cons, ← ih, renderPieces_cons, Text.newlines_append, Piece.source, Text.newlines_append,
      Text.newlines_append]
    rfl

/-- The line of a piece is one more than the line breaks in front of its text. -/
theorem Draft.lineOf_eq {draft : Draft} {index : Nat} {piece : Piece} (h : draft.pieces[index]? = some piece) :
    draft.lineOf index = 1 + Text.newlines (renderPieces (draft.pieces.take index) ++ piece.leading) := by
  rw [Draft.lineOf, h, Text.newlines_append, newlines_renderPieces, ← Nat.add_assoc]
  rfl

/-- The byte position at which the text of a piece begins. -/
def Draft.startOf (draft : Draft) (index : Nat) : Nat :=
  Text.byteSize (renderPieces (draft.pieces.take index))
    + draft.pieces[index]?.elim 0 fun piece => Text.byteSize piece.leading

theorem Draft.startOf_eq {draft : Draft} {index : Nat} {piece : Piece} (h : draft.pieces[index]? = some piece) :
    draft.startOf index = Text.byteSize (renderPieces (draft.pieces.take index) ++ piece.leading) := by
  rw [Draft.startOf, h, Text.byteSize_append]
  rfl

theorem render_headed (form : Directive) (tokens : List Token) : renderPieces (headed form tokens) = render tokens := by
  cases tokens with
  | nil => rfl
  | cons head rest =>
    rw [headed, renderPieces_cons, renderPieces, List.flatMap_map]
    rfl

theorem length_headed (form : Directive) (tokens : List Token) : (headed form tokens).length = tokens.length := by
  cases tokens <;> simp [headed]

theorem render_pieces (part : Part) : renderPieces part.pieces = render part.tokens := by
  cases part with
  | plain token => simp [Part.pieces, Part.tokens, renderPieces, Piece.ofToken, Piece.source, render, Token.source]
  | fixed form tokens => exact render_headed form tokens
  | moved form kept tokens => exact render_headed form _

theorem length_pieces (part : Part) : part.pieces.length = part.tokens.length := by
  cases part with
  | plain token => rfl
  | fixed form tokens => exact length_headed form tokens
  | moved form kept tokens => exact length_headed form _

theorem renderPieces_piecesOf (parts : List Part) : renderPieces (piecesOf parts) = render (tokensOf parts) := by
  induction parts with
  | nil => rfl
  | cons part parts ih =>
    rw [tokensOf_cons, Token.render_append, ← render_pieces, ← ih, ← renderPieces_append]
    rfl

theorem length_piecesOf (parts : List Part) : (piecesOf parts).length = (tokensOf parts).length := by
  induction parts with
  | nil => rfl
  | cons part parts ih =>
    rw [tokensOf_cons, List.length_append, ← length_pieces, ← ih, ← List.length_append]
    rfl

theorem piecesOf_append (parts others : List Part) : piecesOf (parts ++ others) = piecesOf parts ++ piecesOf others :=
  List.flatMap_append

theorem pieces_of_form {part : Part} {form : Directive} (h : part.form? = some form) :
    part.pieces = headed form part.tokens := by
  cases part with
  | plain token => cases h
  | fixed form' tokens =>
    obtain rfl := Option.some.inj h
    rfl
  | moved form' kept tokens =>
    obtain rfl := Option.some.inj h
    rfl

/-- The pieces of a program are those of its parts. -/
theorem piecesOf_tokensOf {parts : List Part} (h : Sound parts) (bare : Directive.Bare (plainsOf parts)) :
    Draft.piecesOf (tokensOf parts) = piecesOf parts := by
  induction parts using parts_induction with
  | nil => rw [tokensOf, List.flatMap_nil, Draft.piecesOf]; rfl
  | token token parts ih =>
    rw [tokensOf_cons, Part.tokens, List.singleton_append, Draft.piecesOf, first?_tokensOf h.2 bare.1]
    exact congrArg (Piece.ofToken token none :: ·) (ih h.2 bare.2)
  | directive part form parts hform ih =>
    obtain ⟨head, rest, hcons, htokens, hshape, hsize⟩ := exists_head_of_sound h hform
    rw [plainsOf_cons_of_form hform] at bare
    rw [htokens, Draft.piecesOf, hshape, piecesOf, List.flatMap_cons, pieces_of_form hform, hcons, headed]
    dsimp only
    rw [← hsize, List.drop_left, List.take_left, ih h.tail bare]
    rfl

/-! ## Cutting a directive out -/

theorem tokens_ne_nil {part : Part} {parts : List Part} (h : Sound (part :: parts)) : part.tokens ≠ [] := by
  cases part with
  | plain token => simp [Part.tokens]
  | fixed form tokens => exact standalone_ne_nil h.1.standalone
  | moved form kept tokens => exact Token.prepend_ne_nil (standalone_ne_nil h.1.standalone)

theorem tokensOf_ne_nil {parts : List Part} (h : Sound parts) (hparts : parts ≠ []) : tokensOf parts ≠ [] := by
  obtain ⟨part, parts, rfl⟩ := List.exists_cons_of_ne_nil hparts
  exact List.append_ne_nil_of_left_ne_nil (tokens_ne_nil h) _

theorem pieces_ne_nil {part : Part} {parts : List Part} (h : Sound (part :: parts)) : part.pieces ≠ [] := by
  intro hnil
  have := congrArg List.length hnil
  rw [length_pieces] at this
  exact tokens_ne_nil h (List.length_eq_zero_iff.1 this)

theorem piecesOf_ne_nil {parts : List Part} (h : Sound parts) (hparts : parts ≠ []) : piecesOf parts ≠ [] := by
  obtain ⟨part, parts, rfl⟩ := List.exists_cons_of_ne_nil hparts
  exact List.append_ne_nil_of_left_ne_nil (pieces_ne_nil h) _

private theorem modify_concat {α : Type} (before : List α) (last : α) (f : α → α) :
    (before ++ [last]).modify ((before ++ [last]).length - 1) f = before ++ [f last] := by
  rw [List.length_append, List.length_singleton, Nat.add_sub_cancel]
  induction before with
  | nil => rfl
  | cons first before ih => rw [List.cons_append, List.length_cons, List.modify_succ_cons, ih]; rfl

/-- What is left when the pieces of a directive are cut out. -/
def remainder (kept : List Char) (front behind : List Piece) : List Piece :=
  if front = [] then behind.modifyHead (Piece.prepend kept)
  else front.modify (front.length - 1) (Piece.append kept) ++ behind

/-- Pieces are cut out with the line break in front of them. -/
private theorem detach_eq {front behind others : List Piece} {first : Piece}
    (hlines : ∀ piece ∈ first :: others, '\n' ∉ piece.trailing) :
    (⟨front ++ (first :: others ++ behind)⟩ : Draft).detach front.length (first :: others).length =
      (⟨remainder (Text.cutAtLastNewline first.leading).1 front behind⟩,
        { first with leading := (Text.cutAtLastNewline first.leading).2 } :: others) := by
  have unit : ((front ++ (first :: others ++ behind)).drop front.length).take (first :: others).length
      = first :: others := by rw [List.drop_left, List.take_left]
  have rest : (front ++ (first :: others ++ behind)).drop (front.length + (first :: others).length) = behind := by
    rw [← List.drop_drop, List.drop_left, List.drop_left]
  have opened : ∀ piece ∈ { first with leading := (Text.cutAtLastNewline first.leading).2 } :: others,
      Text.cutAtFirstNewline piece.trailing = (piece.trailing, []) := by
    intro piece hmem
    rcases List.mem_cons.1 hmem with rfl | hmem
    · exact Text.cutAtFirstNewline_of_not_mem (hlines first List.mem_cons_self)
    · exact Text.cutAtFirstNewline_of_not_mem (hlines piece (List.mem_cons_of_mem _ hmem))
  unfold Draft.detach
  dsimp only
  rw [unit, rest, List.take_left]
  dsimp only
  rw [opened _ (List.getLast_mem (by simp))]
  refine Prod.ext ?_ (List.dropLast_concat_getLast (by simp))
  have none : ∀ pieces : List Piece, pieces.modifyHead (Piece.prepend []) = pieces := by
    rintro (_ | ⟨piece, pieces⟩) <;> rfl
  simp only [List.nil_append, none, remainder, List.length_eq_zero_iff]

/-- A directive is cut out with the line break in front of it. -/
theorem detach_append {front behind : List Piece} {form : Directive} {head : Token} {rest : List Token}
    (hsize : (head :: rest).length = form.size) (hlines : ∀ token ∈ head :: rest, '\n' ∉ token.trailing) :
    (⟨front ++ (headed form (head :: rest) ++ behind)⟩ : Draft).detach front.length form.size =
      (⟨remainder (leftBehind head) front behind⟩, headed form (cutOut head rest)) := by
  rw [← hsize, ← length_headed form]
  refine detach_eq ?_
  simpa [Piece.ofToken] using hlines

/-- A directive is cut out from among the parts of a program. -/
theorem detach_parts {front behind : List Part} {part : Part} {form : Directive} {head : Token} {rest : List Token}
    (hform : part.form? = some form) (htokens : part.tokens = head :: rest)
    (hsize : (head :: rest).length = form.size) (hlines : ∀ token ∈ head :: rest, '\n' ∉ token.trailing) :
    (⟨piecesOf (front ++ part :: behind)⟩ : Draft).detach (tokensOf front).length form.size =
      (⟨remainder (leftBehind head) (piecesOf front) (piecesOf behind)⟩, headed form (cutOut head rest)) := by
  have pieces : piecesOf (part :: behind) = headed form (head :: rest) ++ piecesOf behind := by
    rw [← htokens, ← pieces_of_form hform]
    rfl
  rw [← length_piecesOf, piecesOf_append, pieces]
  exact detach_append hsize hlines

theorem remainder_nil (kept : List Char) (behind : List Piece) :
    remainder kept [] behind = behind.modifyHead (Piece.prepend kept) := if_pos rfl

theorem length_remainder (kept : List Char) (front behind : List Piece) :
    (remainder kept front behind).length = front.length + behind.length := by
  unfold remainder
  split
  · next none => rw [none, List.length_modifyHead, List.length_nil, Nat.zero_add]
  · rw [List.length_append, List.length_modify]

/-- What a cut leaves in front of the place goes to the end of the piece before it. -/
theorem exists_remainder (kept : List Char) {front : List Piece} (hfront : front ≠ []) (behind : List Piece) :
    ∃ pieces, remainder kept front behind = pieces ++ behind ∧ pieces.length = front.length ∧
      renderPieces pieces = renderPieces front ++ kept := by
  refine ⟨front.modify (front.length - 1) (Piece.append kept), if_neg hfront, List.length_modify .., ?_⟩
  obtain ⟨before, last, rfl⟩ := (List.eq_nil_or_concat' front).resolve_left hfront
  rw [modify_concat]
  simp [renderPieces, Piece.append, Piece.source]

theorem render_remainder {kept : List Char} {front behind : List Piece} (h : behind ≠ []) :
    renderPieces (remainder kept front behind) = renderPieces front ++ (kept ++ renderPieces behind) := by
  by_cases hfront : front = []
  · obtain ⟨piece, behind, rfl⟩ := List.exists_cons_of_ne_nil h
    subst hfront
    rw [remainder_nil]
    simp [renderPieces, Piece.prepend, Piece.source]
  · obtain ⟨pieces, hremainder, -, hrender⟩ := exists_remainder kept hfront behind
    rw [hremainder, renderPieces_append, hrender, List.append_assoc]

/-! ## Putting a directive in -/

/-- The tokens of a directive that is put in at some place, where it begins a line. -/
def unitAt (index : Nat) (tokens : List Token) : List Token :=
  tokens.modifyHead fun token =>
    if index = 0 || token.leading.contains '\n' then token else { token with leading := '\n' :: token.leading }

/-- The tokens of a directive on some line, which announces the next one if it announces any. -/
def announce (line : Nat) (tokens : List Token) : List Token :=
  if tokens.length = Directive.located.size then Directive.renumber (line + 1) tokens else tokens

private theorem modify_append_right {α : Type} (front behind : List α) (index : Nat) (f : α → α) :
    (front ++ behind).modify (front.length + index) f = front ++ behind.modify index f := by
  induction front with
  | nil => simp
  | cons first front ih =>
    rw [List.cons_append, List.length_cons, Nat.add_right_comm, List.modify_succ_cons, ih]
    rfl

private theorem modify_append_left {α : Type} {front : List α} {index : Nat} (h : index < front.length)
    (behind : List α) (f : α → α) : (front ++ behind).modify index f = front.modify index f ++ behind := by
  induction front generalizing index with
  | nil => cases h
  | cons first front ih =>
    cases index with
    | zero => simp
    | succ index =>
      rw [List.cons_append, List.modify_succ_cons, List.modify_succ_cons, ih (Nat.lt_of_succ_lt_succ h)]
      rfl

theorem modify_map {α β : Type} (l : List α) (g : α → β) (f : β → β) (f' : α → α)
    (h : ∀ a, f (g a) = g (f' a))
    (index : Nat) : (l.map g).modify index f = (l.modify index f').map g := by
  induction l generalizing index with
  | nil => simp
  | cons first l ih => cases index <;> simp [h, ih]

theorem headed_unitAt (form : Directive) (index : Nat) (tokens : List Token) :
    (headed form tokens).modifyHead (fun first =>
        if index = 0 || first.leading.contains '\n' then first else first.prepend ['\n'])
      = headed form (unitAt index tokens) := by
  cases tokens with
  | nil => rfl
  | cons head rest =>
    simp only [headed, unitAt, List.modifyHead_cons, Piece.ofToken]
    split <;> rfl

theorem headed_renumber (form : Directive) (line : Nat) (tokens : List Token) :
    (headed form tokens).modify Directive.lineToken (fun piece => { piece with text := Text.Decimal.write line })
      = headed form (Directive.renumber line tokens) := by
  cases tokens with
  | nil => simp [headed, Directive.renumber]
  | cons head rest =>
    rw [headed, Directive.renumber, Directive.lineToken, List.modify_succ_cons, List.modify_succ_cons, headed]
    refine congrArg (Piece.ofToken head (some form) :: ·) ?_
    exact modify_map rest (Piece.ofToken · none) (fun piece => { piece with text := Text.Decimal.write line })
      (fun token => { token with text := Text.Decimal.write line }) (fun _ => rfl) 7

theorem insert_append (front behind : List Piece) (form : Directive) (tokens : List Token) :
    (⟨front ++ behind⟩ : Draft).insert front.length (headed form tokens)
      = ⟨front ++ (headed form (unitAt front.length tokens) ++ behind)⟩ := by
  unfold Draft.insert
  rw [headed_unitAt, List.take_left, List.drop_left]
  dsimp only
  rw [List.append_assoc]

/-- The text with a directive put in, and the line of the directive. -/
theorem placed_append (front behind : List Piece) (form : Directive) (tokens : List Token) :
    ∃ line, line = (⟨front ++ (headed form (unitAt front.length tokens) ++ behind)⟩ : Draft).lineOf front.length ∧
      placed ⟨front ++ behind⟩ (headed form tokens) front.length =
        (renderPieces front ++ (render (announce line (unitAt front.length tokens)) ++ renderPieces behind), line) := by
  refine ⟨_, rfl, ?_⟩
  have size : (headed form tokens).length = (unitAt front.length tokens).length := by
    rw [length_headed, unitAt, List.length_modifyHead]
  unfold placed
  dsimp only
  rw [insert_append, size]
  refine Prod.ext ?_ rfl
  unfold announce
  dsimp only
  split
  · next located =>
    have inside : Directive.lineToken < (headed form (unitAt front.length tokens)).length := by
      rw [length_headed, located]
      decide
    rw [Draft.setText, Draft.render, modify_append_right, modify_append_left inside, headed_renumber]
    exact (renderPieces_append _ _).trans (by rw [renderPieces_append, render_headed])
  · rw [Draft.render]
    exact (renderPieces_append _ _).trans (by rw [renderPieces_append, render_headed])

/-- What a search for a place has found: a token of the program before which a line begins, and where
the directive is not at fault. -/
structure Found (draft : Draft) (unit : List Piece) (index : Nat) (text : List Char) : Prop where
  starts : draft.startsLine index = true
  text_eq : text = (placed draft unit index).1
  free : isFlagged text (placed draft unit index).2 = false

/-- The search looks at every token that belongs to no directive. -/
theorem exists_found {front : List Piece} {parts : List Part} (h : Sound parts) {unit : List Piece} {text : List Char}
    (hfit : firstFit? ⟨front ++ piecesOf parts⟩ unit front.length = some text) :
    ∃ before token behind, parts = before ++ .plain token :: behind ∧
      Found ⟨front ++ piecesOf parts⟩ unit (front.length + (piecesOf before).length) text := by
  have extend {part : Part} {parts : List Part} {front : List Piece}
      (found : ∃ before token behind, parts = before ++ .plain token :: behind ∧
        Found ⟨front ++ part.pieces ++ piecesOf parts⟩ unit
          ((front ++ part.pieces).length + (piecesOf before).length) text) :
      ∃ before token behind, part :: parts = before ++ .plain token :: behind ∧
        Found ⟨front ++ piecesOf (part :: parts)⟩ unit (front.length + (piecesOf before).length) text := by
    obtain ⟨before, token, behind, rfl, found⟩ := found
    refine ⟨part :: before, token, behind, rfl, ?_⟩
    rw [List.append_assoc, List.length_append, Nat.add_assoc, ← List.length_append] at found
    exact found
  induction parts using parts_induction generalizing front with
  | nil =>
    rw [firstFit?, if_neg (by simp [piecesOf])] at hfit
    cases hfit
  | token token parts ih =>
    have further
        (hfit : firstFit? ⟨front ++ piecesOf (.plain token :: parts)⟩ unit (front.length + 1) = some text) :=
      @extend (.plain token) parts front (@ih (front ++ [.ofToken token none]) h.2 (by
        rw [List.append_assoc, List.length_append, List.length_singleton]
        exact hfit))
    have at_start : (⟨front ++ piecesOf (.plain token :: parts)⟩ : Draft).directiveAt? front.length = none := by
      rw [Draft.directiveAt?, piecesOf, List.flatMap_cons, Part.pieces]
      simp [Piece.ofToken]
    rw [firstFit?, if_pos (by simp [piecesOf, Part.pieces]), at_start] at hfit
    dsimp only at hfit
    split at hfit
    · next starts =>
      split at hfit
      · exact further hfit
      · next free =>
        exact ⟨[], token, parts, rfl, starts, (Option.some.inj hfit).symm,
          Option.some.inj hfit ▸ Bool.eq_false_iff.2 free⟩
    · exact further hfit
  | directive part form parts hform ih =>
    obtain ⟨head, rest, hcons, -⟩ := exists_head_of_sound h hform
    have hpieces : part.pieces = .ofToken head (some form) :: rest.map (Piece.ofToken · none) := by
      rw [pieces_of_form hform, hcons]
      rfl
    have at_start : (⟨front ++ piecesOf (part :: parts)⟩ : Draft).directiveAt? front.length = some form := by
      rw [Draft.directiveAt?, piecesOf, List.flatMap_cons, hpieces]
      simp [Piece.ofToken]
    have inside : front.length < (front ++ piecesOf (part :: parts)).length := by
      rw [piecesOf, List.flatMap_cons, hpieces]
      simp
    rw [firstFit?, if_pos inside, at_start] at hfit
    refine extend (ih h.tail ?_)
    rw [List.append_assoc, List.length_append, length_pieces, (shape_of_sound h hform).2]
    exact hfit

end SwiftTemplate.Repair
