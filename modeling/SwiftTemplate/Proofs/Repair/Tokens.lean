import SwiftTemplate.Proofs.Repair.Preservation
import SwiftTemplate.Proofs.Swift.Alone

/-!
# The tokens of a repaired program

Repair keeps the tokens outside directives, if nothing in the program reaches over the places where
it is cut.
-/
namespace SwiftTemplate.Repair

open Swift
open Swift.Token (render Lexed)
open Text (Breaks)

/-! ## The parts of a program before repair -/

/-- The parts of a program in which no directive has been moved. -/
def partsOf : List Token → List Part
  | [] => []
  | token :: tokens =>
    match Directive.first? (token :: tokens) with
    | none => .plain token :: partsOf tokens
    | some form => .fixed form (token :: tokens.take (form.size - 1)) :: partsOf (tokens.drop (form.size - 1))
termination_by tokens => tokens.length
decreasing_by all_goals (simp only [List.length_drop, List.length_cons]; omega)

theorem tokensOf_partsOf (tokens : List Token) : tokensOf (partsOf tokens) = tokens := by
  fun_induction partsOf tokens with
  | case1 => rfl
  | case2 token tokens hnone ih => rw [tokensOf_cons, ih]; rfl
  | case3 token tokens form hsome ih =>
    rw [tokensOf_cons, ih, Part.tokens, List.cons_append, List.take_append_drop]

theorem baseOf_partsOf (tokens : List Token) : baseOf (partsOf tokens) = tokens := by
  fun_induction partsOf tokens with
  | case1 => rfl
  | case2 token tokens hnone ih => rw [baseOf, ih]
  | case3 token tokens form hsome ih => rw [baseOf, ih, List.cons_append, List.take_append_drop]

theorem plainsOf_partsOf (tokens : List Token) : plainsOf (partsOf tokens) = Directive.outside tokens := by
  fun_induction partsOf tokens with
  | case1 => rw [Directive.outside]; rfl
  | case2 token tokens hnone ih => rw [plainsOf, ih, Directive.outside, hnone]
  | case3 token tokens form hsome ih => rw [plainsOf, ih, Directive.outside, hsome]

theorem piecesOf_partsOf (tokens : List Token) : piecesOf (partsOf tokens) = Draft.piecesOf tokens := by
  fun_induction partsOf tokens with
  | case1 => rw [Draft.piecesOf]; rfl
  | case2 token tokens hnone ih =>
    rw [Draft.piecesOf, hnone]
    exact congrArg (Piece.ofToken token none :: ·) ih
  | case3 token tokens form hsome ih =>
    rw [Draft.piecesOf, hsome]
    exact congrArg (headed form (token :: tokens.take (form.size - 1)) ++ ·) ih

/-- Parts whose directives are directives by their own tokens. -/
def Shaped (parts : List Part) : Prop :=
  ∀ part ∈ parts, ∀ form, part.form? = some form →
    Directive.first? part.tokens = some form ∧ part.tokens.length = form.size

theorem Shaped.of_append {front parts : List Part} (h : Shaped (front ++ parts)) : Shaped front ∧ Shaped parts :=
  List.forall_mem_append.1 h

theorem first?_unit {token : Token} {tokens : List Token} {form : Directive}
    (h : Directive.first? (token :: tokens) = some form) :
    Directive.first? (token :: tokens.take (form.size - 1)) = some form ∧
      (token :: tokens.take (form.size - 1)).length = form.size := by
  obtain ⟨close, hclose, -⟩ := Directive.exists_close h
  have within := (List.getElem?_eq_some_iff.1 hclose).1
  obtain ⟨n, hn⟩ := Nat.exists_eq_succ_of_ne_zero (Directive.size_pos form).ne'
  have shape := Directive.first?_take_append h []
  rw [hn, List.take_succ_cons, List.append_nil] at shape
  refine ⟨by rwa [hn], ?_⟩
  rw [List.length_cons] at within ⊢
  rw [List.length_take_of_le (by omega), hn]
  rfl

theorem shaped_partsOf (tokens : List Token) : Shaped (partsOf tokens) := by
  fun_induction partsOf tokens with
  | case1 => exact List.forall_mem_nil _
  | case2 token tokens hnone ih =>
    exact List.forall_mem_cons.2 ⟨fun _ hform => absurd hform (Option.some_ne_none _).symm, ih⟩
  | case3 token tokens form hsome ih =>
    refine List.forall_mem_cons.2 ⟨fun own hform => ?_, ih⟩
    obtain rfl := Option.some.inj hform
    exact first?_unit hsome

theorem placesFrom_partsOf (start : Nat) (tokens : List Token) :
    placesFrom start (partsOf tokens) = Directive.places start tokens := by
  fun_induction partsOf tokens generalizing start with
  | case1 => rw [Directive.places]; rfl
  | case2 token tokens hnone ih =>
    rw [Directive.places, hnone]
    exact ih (start + 1)
  | case3 token tokens form hsome ih =>
    rw [Directive.places, hsome, placesFrom, Part.form?, Part.tokens, (first?_unit hsome).2, ih]
    rfl

/-- A program that can be taken apart: none of its tokens outside directives changes when something
else follows its line, all of its directives can be cut out, and none comes to be in what is left. -/
structure Tidy (tokens : List Token) : Prop where
  bare : Directive.Bare (Directive.outside tokens)
  ends : ∀ token ∈ Directive.outside tokens, token.Ends
  detachable : ∀ place ∈ Directive.places 0 tokens, Directive.Detachable tokens place.1 place.2

instance (tokens : List Token) : Decidable (Tidy tokens) :=
  decidable_of_iff (_ ∧ _ ∧ _) ⟨fun ⟨bare, ends, detachable⟩ => ⟨bare, ends, detachable⟩,
    fun h => ⟨h.bare, h.ends, h.detachable⟩⟩

theorem breaks_render_of_followsBreak {next : Token} {others : List Token} (lexed : Lexed (next :: others))
    (h : next.FollowsBreak) : Breaks (render (next :: others)) := by
  rcases h with hline | ⟨hkind, hleading⟩
  · obtain ⟨more, hmore⟩ := List.head?_eq_some_iff.1 hline
    rw [Token.render_cons, Token.source, hmore]
    exact Text.breaks_newline _
  · obtain rfl : others = [] := by
      by_cases hothers : others = []
      · exact hothers
      · exact absurd hkind (lexed.kind_ne hothers)
    obtain ⟨htext, htrailing⟩ := lexed.nil_of_endOfText hkind
    simp [Token.source, hleading, htext, htrailing, Text.breaks_nil]

/-- A directive of a program has been read, and something has been read behind it. -/
theorem read_of_first? {tokens : List Token} {form : Directive} (lexed : Lexed tokens)
    (hform : Directive.first? tokens = some form) : form.Read (tokens.take form.size) ∧ tokens.drop form.size ≠ [] := by
  have hpos := Directive.size_pos form
  obtain ⟨close, hclose, hparen⟩ := Directive.exists_close hform
  have hlength : form.size ≤ tokens.length := by
    have := (List.getElem?_eq_some_iff.1 hclose).1
    omega
  have size : (tokens.take form.size).length = form.size := by rw [List.length_take, Nat.min_eq_left hlength]
  have last : (tokens.take form.size).getLast? = some close := by
    rw [List.getLast?_eq_getElem?, size, List.getElem?_take_of_lt (by omega), hclose]
  have split := List.take_append_drop form.size tokens
  have nonempty : tokens.drop form.size ≠ [] := by
    intro hnil
    obtain ⟨front, hfront⟩ := List.getLast?_eq_some_iff.1 last
    rw [hnil, List.append_nil, hfront] at split
    rw [← split] at lexed
    have := (lexed.of_append (by simp)).kind_of_singleton
    rw [hparen] at this
    cases this
  exact ⟨⟨by simpa using Directive.first?_take_append hform [], size, _, nonempty, by rwa [split]⟩, nonempty⟩

/-- A directive of a program is one of its parts, and its pieces can be cut out. -/
theorem exists_part {text : List Char} {index : Nat} {form : Directive}
    (hplace : (index, form) ∈ (Source.ofText text).directives) : ∃ front part behind head rest,
      partsOf (Token.ofText text) = front ++ part :: behind ∧ part.form? = some form ∧ part.tokens = head :: rest ∧
      index = (tokensOf front).length ∧ form.Read (head :: rest) ∧ tokensOf behind ≠ [] ∧
      (Draft.ofTokens (Token.ofText text)).detach index form.size
        = (⟨remainder (leftBehind head) (piecesOf front) (piecesOf behind)⟩, headed form (cutOut head rest)) := by
  have split : (index, form) ∈ placesFrom 0 (partsOf (Token.ofText text)) := by
    rw [placesFrom_partsOf]
    exact hplace
  obtain ⟨front, part, behind, hparts, hform, hindex⟩ := exists_of_mem_placesFrom split
  rw [Nat.zero_add] at hindex
  subst hindex
  have shaped := shaped_partsOf (Token.ofText text)
  have tokens := tokensOf_partsOf (Token.ofText text)
  have pieces := piecesOf_partsOf (Token.ofText text)
  rw [hparts] at shaped tokens pieces
  obtain ⟨shape, size⟩ := shaped part (by simp) form hform
  obtain ⟨head, rest, hcons, -⟩ := Directive.begins_of_first? shape
  rw [tokensOf_append, tokensOf_cons] at tokens
  rw [hcons] at shape size tokens
  have lexed : Lexed (tokensOf front ++ (head :: rest ++ tokensOf behind)) := tokens ▸ Token.lexed_ofText text
  obtain ⟨read, nonempty⟩ :=
    read_of_first? (lexed.of_append (List.cons_ne_nil _ _)) (Directive.first?_append shape (tokensOf behind))
  rw [← size, List.take_left] at read
  rw [← size, List.drop_left] at nonempty
  refine ⟨front, part, behind, head, rest, hparts, hform, hcons, rfl, read, nonempty, ?_⟩
  rw [Draft.ofTokens, ← pieces]
  exact detach_parts hform hcons size fun token hmem =>
    lexed.newline_not_mem_trailing token (List.mem_append_right _ (List.mem_append_left _ hmem))

/-- A directive that leaves its line open can be read elsewhere. -/
theorem standalone_of_leavesLineOpen {all tokens : List Token} {start : Nat} {form : Directive}
    (hall : all.drop start = tokens) (lexed : Lexed tokens) (hform : Directive.first? tokens = some form)
    (free : Directive.LeavesLineOpen all start form) :
    form.Standalone (tokens.take form.size) ∧ tokens.drop form.size ≠ [] := by
  have hpos := Directive.size_pos form
  obtain ⟨read, nonempty⟩ := read_of_first? lexed hform
  refine ⟨⟨read, fun close hclose => free close ?_⟩, nonempty⟩
  rw [List.getLast?_eq_getElem?, read.size, List.getElem?_take_of_lt (by omega)] at hclose
  rw [Nat.add_sub_assoc hpos, ← List.getElem?_drop, hall]
  exact hclose

/-- A directive that can be cut out of a program can be read elsewhere, and a line begins behind it. -/
theorem standalone_of_detachable {all tokens : List Token} {start : Nat} {form : Directive}
    (hall : all.drop start = tokens)
    (lexed : Lexed tokens) (hform : Directive.first? tokens = some form) (h : Directive.Detachable all start form) :
    form.Standalone (tokens.take form.size) ∧ tokens.drop form.size ≠ [] ∧ Breaks (render (tokens.drop form.size)) := by
  obtain ⟨standalone, nonempty⟩ := standalone_of_leavesLineOpen hall lexed hform h.free
  refine ⟨standalone, nonempty, ?_⟩
  rw [← List.take_append_drop form.size tokens] at lexed
  have rest := lexed.of_append nonempty
  obtain ⟨next, others, hcons⟩ := List.exists_cons_of_ne_nil nonempty
  rw [hcons] at rest ⊢
  refine breaks_render_of_followsBreak rest (h.ends next ?_)
  have := congrArg List.head? hcons
  rw [List.head?_drop, ← hall, List.getElem?_drop] at this
  exact this

theorem sound_partsOf {all tokens : List Token} {start : Nat} (hall : all.drop start = tokens)
    (lexed : tokens ≠ [] → Lexed tokens) (ends : ∀ token ∈ Directive.outside tokens, token.Ends)
    (detachable : ∀ place ∈ Directive.places start tokens, Directive.Detachable all place.1 place.2) :
    Sound (partsOf tokens) := by
  fun_induction partsOf tokens generalizing start with
  | case1 => trivial
  | case2 token tokens hnone ih =>
    rw [Directive.outside, hnone] at ends
    rw [Directive.places, hnone] at detachable
    obtain ⟨own, ends⟩ := List.forall_mem_cons.1 ends
    exact ⟨own, @ih (start + 1) (by rw [← List.drop_drop, hall]; rfl)
      (fun hne => (lexed (by simp)).tail hne) ends detachable⟩
  | case3 token tokens form hsome ih =>
    rw [Directive.outside, hsome] at ends
    rw [Directive.places, hsome] at detachable
    obtain ⟨own, detachable⟩ := List.forall_mem_cons.1 detachable
    have hsize : form.size = form.size - 1 + 1 := (Nat.sub_add_cancel (Directive.size_pos form)).symm
    have behind : (token :: tokens).drop form.size = tokens.drop (form.size - 1) := by
      rw [hsize, List.drop_succ_cons, Nat.add_sub_cancel]
    have unit : (token :: tokens).take form.size = token :: tokens.take (form.size - 1) := by
      rw [hsize, List.take_succ_cons, Nat.add_sub_cancel]
    obtain ⟨standalone, nonempty, breaks⟩ := standalone_of_detachable hall (lexed (by simp)) hsome own
    rw [behind] at nonempty breaks
    rw [unit] at standalone
    refine ⟨⟨standalone, fun head hhead => own.whole head ?_, ?_, ?_⟩,
      @ih (start + form.size) ?_ (fun hne => ?_) ends detachable⟩
    · show all[start]? = some head
      rw [← List.head?_drop, hall]
      exact hhead
    · rwa [baseOf_partsOf]
    · rwa [baseOf_partsOf]
    · rw [← List.drop_drop, hall, behind]
    · refine @Token.Lexed.of_append (token :: tokens.take (form.size - 1)) _ ?_ hne
      rw [List.cons_append, List.take_append_drop]
      exact lexed (by simp)

theorem holds_partsOf {text : List Char} (tidy : Tidy (Token.ofText text)) :
    Holds text (partsOf (Token.ofText text)) where
  tokens := (tokensOf_partsOf _).symm
  sound := @sound_partsOf _ _ 0 rfl (fun _ => Token.lexed_ofText text) tidy.ends tidy.detachable
  lexed := by
    rw [baseOf_partsOf]
    exact Token.lexed_ofText text
  bare := by
    rw [plainsOf_partsOf]
    exact tidy.bare
  nonempty := by
    intro hnil
    have := tokensOf_partsOf (Token.ofText text)
    rw [hnil] at this
    exact Token.ofText_ne_nil text this.symm

/-- The program after repair is in sound parts with the tokens of the program before. -/
theorem exists_holds_fix {text : List Char} (tidy : Tidy (Token.ofText text)) :
    ∃ parts, Holds (fix text) parts ∧ SameTokens parts (partsOf (Token.ofText text)) :=
  (holds_partsOf tidy).settle (budget text)

/-- The kinds and texts of the tokens of a program that belong to no directive. -/
def plainTokens (text : List Char) : List (Kind × List Char) :=
  (Directive.outside (Token.ofText text)).map fun token => (token.kind, token.text)

theorem plainTokens_of_holds {text : List Char} {parts : List Part} (h : Holds text parts) :
    plainTokens text = ((plainsOf parts).map bared).map fun token => (token.kind, token.text) := by
  rw [plainTokens, h.tokens, outside_tokensOf h.sound h.bare, List.map_map]
  rfl

theorem plainTokens_fix_of_tidy {text : List Char} (tidy : Tidy (Token.ofText text)) :
    plainTokens (fix text) = plainTokens text := by
  obtain ⟨parts, holds, same⟩ := exists_holds_fix tidy
  rw [plainTokens_of_holds holds, plainTokens_of_holds (holds_partsOf tidy), same]

/-- Repair changes no token but those of directives, if the program is tidy or has no problem. -/
theorem plainTokens_fix (text : List Char) (tidy : problems text ≠ [] → Tidy (Token.ofText text)) :
    plainTokens (fix text) = plainTokens text := by
  by_cases hproblems : problems text = []
  · rw [fix_of_problems_eq_nil hproblems]
  · exact plainTokens_fix_of_tidy (tidy hproblems)

/-- A directive inside a call moves behind it, and one in front of an `else` into its block. -/
theorem plainTokens_fix_moves :
    let text := "f(\n#sourceLocation(file: \"t\", line: 7)\n)\nif a \x7b\n\x7d\n#sourceLocation()\nelse \x7b\n\x7d\n".toList
    (problems text ≠ [] → Tidy (Token.ofText text)) ∧ plainTokens (fix text) = plainTokens text ∧
      fix text
        = "f(\n)\n#sourceLocation(file: \"t\", line: 4)\nif a \x7b\n\x7d\nelse \x7b\n#sourceLocation()\n\x7d\n".toList := by
  intro text
  have tidy : problems text ≠ [] → Tidy (Token.ofText text) := fun _ => by decide +kernel
  exact ⟨tidy, plainTokens_fix text tidy, by decide +kernel⟩

/-- A token in front of which a directive ends no line is glued to the token before the directive. -/
theorem plainTokens_fix_glued :
    plainTokens "a\n#sourceLocation() b".toList
        = [(.identifier, "a".toList), (.identifier, "b".toList), (.endOfText, [])] ∧
      fix "a\n#sourceLocation() b".toList = "ab\n#sourceLocation() ".toList ∧
      plainTokens (fix "a\n#sourceLocation() b".toList) = [(.identifier, "ab".toList), (.endOfText, [])] := by
  decide +kernel

/-! ## Programs that are not tidy -/

/-- What a program can lack to be tidy. -/
inductive Flaw
  /-- The tokens outside directives make up a directive. -/
  | hiddenDirective
  /-- A literal outside directives is left open. -/
  | openLiteral
  /-- A comment reaches over the line break in front of a directive. -/
  | commentBefore
  /-- A line comment stands behind a directive. -/
  | commentBehind
  /-- The line goes on behind a directive. -/
  | sharedLine
  deriving DecidableEq

/-- A program lacks one thing to be tidy, and nothing else. -/
def LacksOnly (flaw : Flaw) (text : List Char) : Prop :=
  (Directive.Bare (Directive.outside (Token.ofText text)) ↔ flaw ≠ .hiddenDirective) ∧
    ((∀ token ∈ Directive.outside (Token.ofText text), token.Ends) ↔ flaw ≠ .openLiteral) ∧
    ∀ place ∈ Directive.places 0 (Token.ofText text),
      (Directive.LeavesWhole (Token.ofText text) place.1 ↔ flaw ≠ .commentBefore) ∧
      (Directive.LeavesLineOpen (Token.ofText text) place.1 place.2 ↔ flaw ≠ .commentBehind) ∧
      (Directive.EndsLine (Token.ofText text) place.1 place.2 ↔ flaw ≠ .sharedLine)

instance (flaw : Flaw) (text : List Char) : Decidable (LacksOnly flaw text) := inferInstanceAs (Decidable (_ ∧ _))

/-- Nothing that makes a program tidy can be done without. Whatever a program lacks, a token can change: a
directive comes to be where there was none, a literal left open swallows a directive, a comment reaches over
the line break before a directive, a line comment behind one hides what comes to stand there, or the line goes
on behind a directive. -/
theorem exists_changed_of_untidy (flaw : Flaw) :
    ∃ text, LacksOnly flaw text ∧ plainTokens (fix text) ≠ plainTokens text := by
  cases flaw with
  | hiddenDirective =>
    refine ⟨"f(\n#sourceLocation\n#sourceLocation()\n()\n)".toList, ?_⟩
    decide +kernel
  | openLiteral =>
    refine ⟨"f(\n#sourceLocation()\n\"\"\"abc".toList, ?_⟩
    decide +kernel
  | commentBefore =>
    refine ⟨"a\n/* c \n */ #sourceLocation()\n.b".toList, ?_⟩
    decide +kernel
  | commentBehind =>
    refine ⟨"f(\n#sourceLocation() // t\n) /* \n x */ b".toList, ?_⟩
    decide +kernel
  | sharedLine =>
    refine ⟨"a\n#sourceLocation() b".toList, ?_⟩
    decide +kernel

end SwiftTemplate.Repair
