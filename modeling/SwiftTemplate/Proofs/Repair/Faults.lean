import Mathlib.Logic.Relation
import SwiftTemplate.Proofs.Repair.FixedPoint
import SwiftTemplate.Proofs.Swift.Heads

/-!
# The directives at fault

Repair passes a line on, and looks for a directive on it. Of several directives that begin on one line
all but the last share it with what follows them, and so the first one is at fault whenever any of
them is: a step of repair takes out the first directive of the program that is at fault, and no other.
-/
namespace SwiftTemplate.Repair

open Swift

/-- Whether a directive is at fault for any diagnostic. -/
def isAtFault (source : Source) (place : Nat × Directive) : Bool := (source.blame? place.1 place.2).isSome

/-- The first directive that is at fault. -/
def firstAtFault? (source : Source) : Option (Nat × Directive) := source.directives.find? (isAtFault source)

/-- A step of repair: the first directive that is at fault is taken out, and is put in where it fits, if it
is to be moved and there is such a place. -/
inductive TakesOut (text : List Char) : List Char → Prop
  | moved {place : Nat × Directive} {rest : Draft} {unit : List Piece}
      (fault : firstAtFault? (Source.ofText text) = some place)
      (cut : (Draft.ofTokens (Token.ofText text)).detach place.1 place.2.size = (rest, unit)) :
      TakesOut text ((firstFit? rest unit place.1).getD rest.render)
  | dropped {place : Nat × Directive} {rest : Draft} {unit : List Piece}
      (fault : firstAtFault? (Source.ofText text) = some place)
      (cut : (Draft.ofTokens (Token.ofText text)).detach place.1 place.2.size = (rest, unit)) :
      TakesOut text rest.render

section
variable {text : List Char} {place other : Nat × Directive}

/-- A directive counts against all that is found wrong with it. -/
theorem isAtFault_of_mem {diagnostic : Diagnostic} (h : diagnostic ∈ (Source.ofText text).diagnostics)
    (blames : diagnostic.blames place.1 place.2) : isAtFault (Source.ofText text) place = true := by
  rw [isAtFault, Source.blame?, List.find?_isSome]
  exact ⟨diagnostic, h, by simpa [Diagnostic.blames] using blames⟩

/-- Of two directives on one line the first is at fault: it does not end its line. -/
theorem isAtFault_of_lineOf_eq (hplace : place ∈ (Source.ofText text).directives)
    (hother : other ∈ (Source.ofText text).directives) (before : place.1 + place.2.size ≤ other.1)
    (line : (Source.ofText text).lineOf place.1 = (Source.ofText text).lineOf other.1) :
    isAtFault (Source.ofText text) place = true := by
  obtain ⟨start, form⟩ := place
  obtain ⟨start', form'⟩ := other
  dsimp only at before line
  have hplace : (start, form) ∈ Directive.places 0 (Token.ofText text) := hplace
  have hother : (start', form') ∈ Directive.places 0 (Token.ofText text) := hother
  have positive := Directive.size_pos form
  obtain ⟨_, _, _, hdrop, -⟩ := Directive.first?_cases (Directive.first?_drop_of_mem_places hother).2
  have length := congrArg List.length hdrop
  simp only [List.length_drop, List.length_cons] at length
  have within : start + form.size < (Token.ofText text).length := by omega
  -- The token behind the first directive is not the end of the text, and begins no line.
  have hnext := List.getElem?_eq_getElem within
  generalize (Token.ofText text)[start + form.size] = next at hnext
  have kind : next.kind ≠ .endOfText := by
    obtain ⟨_, rfl⟩ := List.getElem?_eq_some_iff.1 hnext
    have lexed := Token.lexed_ofText text
    rw [← List.take_append_drop (start + form.size) (Token.ofText text), List.drop_eq_getElem_cons within] at lexed
    refine (lexed.of_append (List.cons_ne_nil _ _)).kind_ne fun hnil => ?_
    have := List.drop_eq_nil_iff.1 hnil
    omega
  have inside : next.startsLine = false := by
    refine Bool.eq_false_iff.2 fun starts => ?_
    have below := Source.lineOf_lt (Nat.lt_add_of_pos_right positive) hnext starts
    have := Source.lineOf_le before (by omega : start' < (Token.ofText text).length)
    omega
  obtain ⟨state, previous, head, found⟩ := @Diagnostic.exists_ofDirective .start 0 none _ _ _ hplace
  rw [Nat.sub_zero, hnext] at found
  have misplaced : Diagnostic.misplacements state previous head (some next) ≠ [] := by
    refine List.ne_nil_of_mem (a := .sharesLineBehind) ?_
    simp [Diagnostic.misplacements, kind, inside]
  have reported := (@Diagnostic.mem_ofDirective state start form previous (some next) head _).2 (.inl ⟨misplaced, rfl⟩)
  exact isAtFault_of_mem (found reported) (Diagnostic.blames_of_mem_ofDirective reported)

/-- The directive that is found on the line of one at fault is at fault itself. -/
theorem isAtFault_of_directiveOn? (hother : other ∈ (Source.ofText text).directives)
    (fault : isAtFault (Source.ofText text) other = true)
    (hfind : directiveOn? (Source.ofText text) ((Source.ofText text).lineOf other.1) = some place) :
    isAtFault (Source.ofText text) place = true := by
  obtain ⟨line, front, behind, hsplit, before⟩ := List.find?_eq_some_iff_append.1 hfind
  have hplace : place ∈ (Source.ofText text).directives := List.mem_of_find?_eq_some hfind
  have follow : (Source.ofText text).directives.Pairwise _ := Directive.pairwise_places 0 (Token.ofText text)
  have line : (Source.ofText text).lineOf place.1 = (Source.ofText text).lineOf other.1 := by simpa using line
  rw [hsplit, List.mem_append, List.mem_cons] at hother
  rcases hother with earlier | rfl | later
  · simpa using before other earlier
  · exact fault
  · rw [hsplit] at follow
    have := (List.pairwise_cons.1 (List.pairwise_append.1 follow).2.1).1 other later
    exact isAtFault_of_lineOf_eq hplace (hsplit ▸ by simp [later]) this line

/-- On the line of the first directive at fault there is no other before it. -/
theorem directiveOn?_of_firstAtFault? (h : firstAtFault? (Source.ofText text) = some place) :
    directiveOn? (Source.ofText text) ((Source.ofText text).lineOf place.1) = some place := by
  obtain ⟨fault, front, behind, hsplit, sound⟩ := List.find?_eq_some_iff_append.1 h
  refine List.find?_eq_some_iff_append.2 ⟨by simp, front, behind, hsplit, fun other hother => ?_⟩
  have follow : (Source.ofText text).directives.Pairwise _ := Directive.pairwise_places 0 (Token.ofText text)
  rw [hsplit, List.pairwise_append] at follow
  by_contra line
  have atFault := isAtFault_of_lineOf_eq (hsplit ▸ by simp [hother]) (List.mem_of_find?_eq_some h)
    (follow.2.2 other hother place List.mem_cons_self) (by simpa using line)
  simpa [atFault] using sound other hother

/-! ## Problems -/

/-- The first problem is that of the first directive at fault. -/
theorem exists_firstAtFault? {problem : Problem} {others : List Problem} (h : problems text = problem :: others) :
    ∃ place, firstAtFault? (Source.ofText text) = some place ∧ problem.line = (Source.ofText text).lineOf place.1 := by
  obtain ⟨front, place, behind, hsplit, sound, hproblem, -⟩ := List.filterMap_eq_cons_iff.1 h
  obtain ⟨diagnostic, hblame, rfl⟩ := Option.map_eq_some_iff.1 hproblem
  refine ⟨place, List.find?_eq_some_iff_append.2 ⟨?_, front, behind, hsplit, fun other hother => ?_⟩, rfl⟩
  · rw [isAtFault, hblame]
    rfl
  · simpa [isAtFault, problem?] using sound other hother

theorem exists_of_mem_problems {problem : Problem} (h : problem ∈ problems text) :
    ∃ place ∈ (Source.ofText text).directives, isAtFault (Source.ofText text) place = true ∧
      problem.line = (Source.ofText text).lineOf place.1 := by
  obtain ⟨place, hplace, hproblem⟩ := List.mem_filterMap.1 h
  obtain ⟨diagnostic, hblame, rfl⟩ := Option.map_eq_some_iff.1 hproblem
  exact ⟨place, hplace, by rw [isAtFault, hblame]; rfl, rfl⟩

/-- Problems are told in the order of their lines. -/
theorem pairwise_problems (text : List Char) :
    (problems text).Pairwise fun problem other => problem.line ≤ other.line := by
  refine List.pairwise_filterMap.2 ((Directive.pairwise_places 0 (Token.ofText text)).imp_of_mem ?_)
  rintro ⟨start, form⟩ ⟨start', form'⟩ - hother before problem hproblem problem' hproblem'
  obtain ⟨_, -, rfl⟩ := Option.map_eq_some_iff.1 hproblem
  obtain ⟨_, -, rfl⟩ := Option.map_eq_some_iff.1 hproblem'
  obtain ⟨_, _, hdrop, -⟩ := Directive.begins_of_first? (Directive.first?_drop_of_mem_places hother).2
  refine Source.lineOf_le (Nat.le_trans (Nat.le_add_right _ _) before) (Nat.lt_of_not_le fun beyond => ?_)
  rw [Nat.sub_zero, List.drop_eq_nil_of_le beyond] at hdrop
  cases hdrop

end

/-! ## Steps of repair -/

section
variable {text : List Char} {problem : Problem} {others : List Problem}

/-- What moving a directive and taking one out are about, when they are called for the first problem. -/
theorem exists_cut (h : problems text = problem :: others) :
    ∃ place rest unit, firstAtFault? (Source.ofText text) = some place ∧
      directiveOn? (Source.ofText text) problem.line = some place ∧
      (Draft.ofTokens (Token.ofText text)).detach place.1 place.2.size = (rest, unit) ∧
      relocate text problem.line = (firstFit? rest unit place.1).getD rest.render ∧
      withoutDirective? text problem.line = some rest.render := by
  obtain ⟨place, fault, hline⟩ := exists_firstAtFault? h
  have found : directiveOn? (Source.ofText text) problem.line = some place :=
    hline ▸ directiveOn?_of_firstAtFault? fault
  refine ⟨place, _, _, fault, found, rfl, ?_, ?_⟩
  · rw [relocate, found]
    rfl
  · rw [withoutDirective?, found]
    rfl

theorem takesOut_relocate (h : problems text = problem :: others) : TakesOut text (relocate text problem.line) := by
  obtain ⟨place, rest, unit, fault, -, cut, moved, -⟩ := exists_cut h
  rw [moved]
  exact .moved fault cut

theorem takesOut_withoutDirective? (h : problems text = problem :: others) {shorter : List Char}
    (removed : withoutDirective? text problem.line = some shorter) : TakesOut text shorter := by
  obtain ⟨place, rest, unit, fault, -, cut, -, dropped⟩ := exists_cut h
  obtain rfl := Option.some.inj (removed.symm.trans dropped)
  exact .dropped fault cut

end

open Relation (ReflTransGen)

theorem takesOut_dropFlagged (text : List Char) : ReflTransGen TakesOut text (dropFlagged text) := by
  fun_induction dropFlagged text with
  | case1 text clean => exact .refl
  | case2 text problem others flagged hnone => exact .refl
  | case3 text problem others flagged shorter removed ih => exact .head (takesOut_withoutDirective? flagged removed) ih

theorem takesOut_settle (rounds : Nat) (text : List Char) : ReflTransGen TakesOut text (settle rounds text) := by
  induction rounds generalizing text with
  | zero => exact takesOut_dropFlagged text
  | succ rounds ih =>
    rw [settle]
    split
    · exact .refl
    · next problem others flagged => exact .head (takesOut_relocate flagged) (ih _)

/-- A line leads back to a directive that is at fault. The directives of a program follow one another and
are the tokens that begin like one, but for those that the checker reports as malformed; problems are told
from the top down, on the line of each of them the first directive is at fault, and on the line of the
first problem it is the first directive of all that is. So moving a directive and taking one out are about
that directive whenever repair calls them, and a whole repair takes nothing out but directives that are at
fault at that moment. -/
theorem directiveOn?_at_fault (text : List Char) :
    (Source.ofText text).directives.Pairwise (fun place other => place.1 + place.2.size ≤ other.1) ∧
      (∀ index, index ∈ (Source.ofText text).directives.map Prod.fst ↔
        (Source.ofText text).tokens[index]?.any Directive.begins = true ∧
          ¬ Diagnostic.Rejects (Source.ofText text).diagnostics index) ∧
      (problems text).Pairwise (fun problem other => problem.line ≤ other.line) ∧
      (∀ problem ∈ problems text, ∃ place, directiveOn? (Source.ofText text) problem.line = some place ∧
        isAtFault (Source.ofText text) place = true) ∧
      (∀ problem others, problems text = problem :: others →
        ∃ place rest unit, firstAtFault? (Source.ofText text) = some place ∧
          directiveOn? (Source.ofText text) problem.line = some place ∧
          (Draft.ofTokens (Token.ofText text)).detach place.1 place.2.size = (rest, unit) ∧
          relocate text problem.line = (firstFit? rest unit place.1).getD rest.render ∧
          withoutDirective? text problem.line = some rest.render) ∧
      ReflTransGen TakesOut text (fix text) := by
  refine ⟨Directive.pairwise_places 0 _, fun index => ?_, pairwise_problems text, fun problem hproblem => ?_,
    fun problem others => exists_cut, takesOut_settle _ text⟩
  · have := @Diagnostic.mem_places_iff .start 0 none (Token.ofText text) index
    rwa [Nat.zero_add] at this
  · obtain ⟨place, hfind⟩ := exists_directiveOn? hproblem
    obtain ⟨other, hother, fault, hline⟩ := exists_of_mem_problems hproblem
    exact ⟨place, hfind, isAtFault_of_directiveOn? hother fault (hline ▸ hfind)⟩

end SwiftTemplate.Repair
