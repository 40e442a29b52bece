import Mathlib.Data.List.Induction
import Mathlib.Data.List.Perm.Basic
import Mathlib.Data.List.TakeWhile
import SwiftTemplate.Swift.Kind

/-!
# Delimiters and what becomes of them

Delimiters are settled in the order in which they stand. An opener opens a scope inside the innermost
one. A closer goes out to the innermost scope that it fits, and what is open inside that scope stays
unclosed. It is unexpected if it fits none. The file is the outermost scope, and no closer fits it.
-/
namespace SwiftTemplate.Swift

structure Delimiter where
  /-- The place of the delimiter among the tokens. -/
  place : Nat
  bracket : Bracket
  opens : Bool
  deriving DecidableEq, Repr

/-! ## Balanced delimiters -/

/-- Delimiters that close each other, each by one of its own kind. -/
inductive Balanced : List Delimiter → Prop
  | nil : Balanced []
  | pair {opener closer : Delimiter} {inner rest : List Delimiter} (opens : opener.opens = true)
      (closes : closer.opens = false) (fits : opener.bracket = closer.bracket) (inside : Balanced inner)
      (behind : Balanced rest) : Balanced (opener :: inner ++ closer :: rest)

theorem Balanced.append {front rest : List Delimiter} (h : Balanced front) (behind : Balanced rest) :
    Balanced (front ++ rest) := by
  induction h with
  | nil => exact behind
  | @pair opener closer inner others opens closes fits inside _ _ ih =>
    rw [List.append_assoc, List.cons_append]
    exact .pair opens closes fits inside ih

/-- Balanced delimiters in which some openers are left open, innermost first. -/
inductive Opens : List Delimiter → List Delimiter → Prop
  | none {delimiters : List Delimiter} (balanced : Balanced delimiters) : Opens [] delimiters
  | some {opened front inner : List Delimiter} {opener : Delimiter} (around : Opens opened front)
      (opens : opener.opens = true) (inside : Balanced inner) : Opens (opener :: opened) (front ++ opener :: inner)

theorem Opens.balanced {delimiters : List Delimiter} (h : Opens [] delimiters) : Balanced delimiters := by
  cases h with
  | none balanced => exact balanced

theorem Opens.append {opened front rest : List Delimiter} (h : Opens opened front) (behind : Balanced rest) :
    Opens opened (front ++ rest) := by
  cases h with
  | none balanced => exact .none (balanced.append behind)
  | some around opens inside =>
    rw [List.append_assoc, List.cons_append]
    exact .some around opens (inside.append behind)

theorem Opens.close {opened delimiters : List Delimiter} {opener closer : Delimiter}
    (h : Opens (opener :: opened) delimiters) (closes : closer.opens = false) (fits : opener.bracket = closer.bracket) :
    Opens opened (delimiters ++ [closer]) := by
  cases h with
  | some around opens inside =>
    rw [List.append_assoc]
    exact around.append (.pair opens closes fits inside .nil)

/-! ## The ledger of a program -/

/-- What has become of the delimiters read so far. -/
structure Ledger where
  /-- The scopes, innermost first. The one without a delimiter is the file. -/
  scopes : List (Option Delimiter)
  /-- The openers that have been closed, with their closers. -/
  pairs : List (Delimiter × Delimiter)
  unclosed : List Delimiter
  unexpected : List Delimiter
  deriving DecidableEq, Repr

namespace Ledger

open scoped List

def start : Ledger := ⟨[none], [], [], []⟩

/-- Whether a closer goes past a scope. Every closer goes past the file. -/
def passes (closer : Delimiter) (scope : Option Delimiter) : Bool := scope.all (·.bracket ≠ closer.bracket)

def read (ledger : Ledger) (delimiter : Delimiter) : Ledger :=
  if delimiter.opens then { ledger with scopes := some delimiter :: ledger.scopes }
  else
    match ledger.scopes.dropWhile (passes delimiter) with
    | some opener :: around =>
      { ledger with
        scopes := around
        pairs := ledger.pairs ++ [(opener, delimiter)]
        unclosed := ledger.unclosed ++ (ledger.scopes.takeWhile (passes delimiter)).reverse.filterMap id }
    | _ => { ledger with unexpected := ledger.unexpected ++ [delimiter] }

def finish (ledger : Ledger) : Ledger :=
  { ledger with
    scopes := ledger.scopes.getLast?.toList
    unclosed := ledger.unclosed ++ ledger.scopes.dropLast.reverse.filterMap id }

def ofDelimiters (delimiters : List Delimiter) : Ledger := delimiters.foldl read start

theorem ofDelimiters_concat (delimiters : List Delimiter) (delimiter : Delimiter) :
    ofDelimiters (delimiters ++ [delimiter]) = (ofDelimiters delimiters).read delimiter := by
  simp [ofDelimiters]

/-- Whether no delimiter is unclosed or unexpected. -/
def Clean (ledger : Ledger) : Prop := ledger.unclosed = [] ∧ ledger.unexpected = []

/-- What is known of a ledger behind some delimiters, with those still open, innermost first. Every
opener is closed, or unclosed, or still open, and every closer closes an opener or is unexpected. -/
structure Settles (delimiters opened : List Delimiter) (ledger : Ledger) : Prop where
  scopes : ledger.scopes = opened.map some ++ [none]
  openers : (ledger.pairs.map Prod.fst ++ ledger.unclosed ++ opened).Perm (delimiters.filter (·.opens))
  closers : (ledger.pairs.map Prod.snd ++ ledger.unexpected).Perm (delimiters.filter (!·.opens))
  fits : ∀ pair ∈ ledger.pairs, pair.1.bracket = pair.2.bracket
  later : ∀ pair ∈ ledger.pairs, pair.1.place < pair.2.place
  nested : ∀ outer ∈ ledger.pairs, ∀ inner ∈ ledger.pairs,
    outer.1.place < inner.1.place → inner.1.place < outer.2.place → inner.2.place < outer.2.place
  apart : ∀ opener ∈ opened, ∀ pair ∈ ledger.pairs,
    opener.place < pair.1.place ∨ pair.2.place < opener.place
  inward : opened.Pairwise (fun inner outer => outer.place < inner.place)
  balanced : ledger.Clean → Opens opened delimiters

variable {delimiters opened inside around : List Delimiter} {ledger : Ledger} {opener closer delimiter : Delimiter}

/-! ## One delimiter -/

theorem read_opener (opens : delimiter.opens = true) :
    ledger.read delimiter = { ledger with scopes := some delimiter :: ledger.scopes } := if_pos opens

/-- A closer closes the innermost scope that it fits, and the scopes inside it end. -/
theorem read_fitting (closes : closer.opens = false)
    (scopes : ledger.scopes = (inside ++ opener :: around).map some ++ [none])
    (skipped : ∀ delimiter ∈ inside, delimiter.bracket ≠ closer.bracket) (fits : opener.bracket = closer.bracket) :
    ledger.read closer =
      { ledger with
        scopes := around.map some ++ [none]
        pairs := ledger.pairs ++ [(opener, closer)]
        unclosed := ledger.unclosed ++ inside.reverse } := by
  have passed : ∀ scope ∈ inside.map some, passes closer scope = true := by
    intro scope hmem
    obtain ⟨delimiter, hdelimiter, rfl⟩ := List.mem_map.1 hmem
    exact decide_eq_true (skipped delimiter hdelimiter)
  have stops : ¬ passes closer (some opener) = true := by simp [passes, fits]
  rw [List.map_append, List.map_cons, List.append_assoc, List.cons_append] at scopes
  have outer : ledger.scopes.dropWhile (passes closer) = some opener :: (around.map some ++ [none]) := by
    rw [scopes, List.dropWhile_append_of_pos passed, List.dropWhile_cons_of_neg stops]
  have inner : ledger.scopes.takeWhile (passes closer) = inside.map some := by
    rw [scopes, List.takeWhile_append_of_pos passed, List.takeWhile_cons_of_neg stops, List.append_nil]
  simp [read, closes, outer, inner]

/-- A closer that fits no open delimiter changes no scope. -/
theorem read_unfitting (closes : closer.opens = false) (scopes : ledger.scopes = opened.map some ++ [none])
    (unfit : ∀ delimiter ∈ opened, delimiter.bracket ≠ closer.bracket) :
    ledger.read closer = { ledger with unexpected := ledger.unexpected ++ [closer] } := by
  have passed : ∀ scope ∈ ledger.scopes, passes closer scope = true := by
    intro scope hmem
    rw [scopes] at hmem
    rcases List.mem_append.1 hmem with hmem | hmem
    · obtain ⟨delimiter, hdelimiter, rfl⟩ := List.mem_map.1 hmem
      exact decide_eq_true (unfit delimiter hdelimiter)
    · rw [List.mem_singleton.1 hmem]
      rfl
  have outer : ledger.scopes.dropWhile (passes closer) = [] := List.dropWhile_eq_nil_iff.2 passed
  simp [read, closes, outer]

theorem finish_eq (scopes : ledger.scopes = opened.map some ++ [none]) :
    ledger.finish = { ledger with scopes := [none], unclosed := ledger.unclosed ++ opened.reverse } := by
  simp [finish, scopes]

/-- Of what is open, a closer fits nothing, or there is an innermost delimiter that it fits. -/
theorem exists_innermost (bracket : Bracket) (opened : List Delimiter) :
    (∀ delimiter ∈ opened, delimiter.bracket ≠ bracket) ∨
      ∃ inside opener around, opened = inside ++ opener :: around ∧ opener.bracket = bracket ∧
        ∀ delimiter ∈ inside, delimiter.bracket ≠ bracket := by
  induction opened with
  | nil => exact .inl (by simp)
  | cons first opened ih =>
    by_cases fits : first.bracket = bracket
    · exact .inr ⟨[], first, opened, rfl, fits, by simp⟩
    · rcases ih with unfit | ⟨inside, opener, around, rfl, hopener, skipped⟩
      · exact .inl (List.forall_mem_cons.2 ⟨fits, unfit⟩)
      · exact .inr ⟨first :: inside, opener, around, rfl, hopener, List.forall_mem_cons.2 ⟨fits, skipped⟩⟩

/-! ## Every delimiter is settled -/

/-- Of the openers that are open, one is closed, and those inside it stay unclosed. -/
private theorem perm_closing (closed unclosed inside around : List Delimiter) (opener : Delimiter) :
    closed ++ [opener] ++ (unclosed ++ inside.reverse) ++ around ~ closed ++ unclosed ++ (inside ++ opener :: around) := by
  simp only [List.append_assoc, List.cons_append, List.nil_append]
  refine .append_left closed ?_
  calc opener :: (unclosed ++ (inside.reverse ++ around))
      _ ~ unclosed ++ opener :: (inside.reverse ++ around) := List.perm_middle.symm
      _ ~ unclosed ++ opener :: (inside ++ around) :=
        .append_left _ (.cons _ (.append_right _ (List.reverse_perm inside)))
      _ ~ unclosed ++ (inside ++ opener :: around) := .append_left _ List.perm_middle.symm

private theorem perm_closed (closers unexpected : List Delimiter) (closer : Delimiter) :
    closers ++ [closer] ++ unexpected ~ closers ++ unexpected ++ [closer] := by
  rw [List.append_assoc, List.append_assoc]
  exact .append_left closers List.perm_append_comm

namespace Settles

theorem start : Settles [] [] start :=
  ⟨rfl, .refl _, .refl _, by simp [Ledger.start], by simp [Ledger.start], by simp [Ledger.start], by simp, .nil,
    fun _ => .none .nil⟩

section
variable (h : Settles delimiters opened ledger)
include h

theorem mem_of_mem_opened (hmem : delimiter ∈ opened) : delimiter ∈ delimiters :=
  (List.mem_filter.1 (h.openers.subset (List.mem_append_right _ hmem))).1

theorem mem_of_mem_pairs {pair : Delimiter × Delimiter} (hmem : pair ∈ ledger.pairs) : pair.2 ∈ delimiters :=
  (List.mem_filter.1 (h.closers.subset (List.mem_append_left _ (List.mem_map_of_mem hmem)))).1

theorem opening (behind : ∀ other ∈ delimiters, other.place < delimiter.place) (opens : delimiter.opens = true) :
    Settles (delimiters ++ [delimiter]) (delimiter :: opened) (ledger.read delimiter) := by
  rw [read_opener opens]
  refine ⟨?_, ?_, ?_, h.fits, h.later, h.nested, ?_, ?_, ?_⟩
  · rw [h.scopes]
    rfl
  · have accounted := h.openers.cons delimiter
    rw [List.filter_append, List.filter_singleton, opens]
    exact List.perm_middle.trans (accounted.trans (List.perm_append_singleton _ _).symm)
  · rw [List.filter_append, List.filter_singleton, opens]
    simpa using h.closers
  · rintro opener hmem pair hpair
    rcases List.mem_cons.1 hmem with rfl | hmem
    · exact .inr (behind pair.2 (h.mem_of_mem_pairs hpair))
    · exact h.apart opener hmem pair hpair
  · exact .cons (fun outer hmem => behind outer (h.mem_of_mem_opened hmem)) h.inward
  · intro clean
    exact .some (h.balanced clean) opens .nil

theorem closing (split : opened = inside ++ opener :: around)
    (behind : ∀ other ∈ delimiters, other.place < closer.place) (closes : closer.opens = false)
    (skipped : ∀ delimiter ∈ inside, delimiter.bracket ≠ closer.bracket) (fits : opener.bracket = closer.bracket) :
    Settles (delimiters ++ [closer]) around (ledger.read closer) := by
  subst split
  rw [read_fitting closes h.scopes skipped fits]
  have own : opener.place < closer.place := behind opener (h.mem_of_mem_opened (by simp))
  have clear : ∀ pair ∈ ledger.pairs, opener.place < pair.1.place ∨ pair.2.place < opener.place :=
    h.apart opener (by simp)
  obtain ⟨outward, inward⟩ := List.pairwise_cons.1 (List.pairwise_append.1 h.inward).2.1
  have cases : ∀ pair ∈ ledger.pairs ++ [(opener, closer)], pair ∈ ledger.pairs ∨ pair = (opener, closer) := by
    intro pair hpair
    simpa using hpair
  refine ⟨rfl, ?_, ?_, ?_, ?_, ?_, ?_, inward, ?_⟩
  · rw [List.filter_append, List.filter_singleton, closes, cond_false, List.append_nil, List.map_append]
    exact (perm_closing _ _ inside around opener).trans h.openers
  · rw [List.filter_append, List.filter_singleton, closes, List.map_append]
    exact (perm_closed _ _ closer).trans (h.closers.append_right [closer])
  · intro pair hpair
    rcases cases pair hpair with hpair | rfl
    · exact h.fits pair hpair
    · exact fits
  · intro pair hpair
    rcases cases pair hpair with hpair | rfl
    · exact h.later pair hpair
    · exact own
  · intro outer houter inner hinner hbehind hbefore
    rcases cases outer houter with houter | rfl <;> rcases cases inner hinner with hinner | rfl
    · exact h.nested outer houter inner hinner hbehind hbefore
    · -- The opener that is closed now was open outside or behind the old pair.
      rcases clear outer houter with hclear | hclear
      · exact absurd hclear (Nat.lt_asymm hbehind)
      · exact absurd hclear (Nat.lt_asymm hbefore)
    · exact behind inner.2 (h.mem_of_mem_pairs hinner)
    · exact absurd hbehind (Nat.lt_irrefl _)
  · intro outer houter pair hpair
    rcases cases pair hpair with hpair | rfl
    · exact h.apart outer (by simp [houter]) pair hpair
    · exact .inl (outward outer houter)
  · rintro ⟨closed, expected⟩
    obtain ⟨front, skipped⟩ := List.append_eq_nil_iff.1 closed
    have own := h.balanced ⟨front, expected⟩
    rw [List.reverse_eq_nil_iff.1 skipped] at own
    exact own.close closes fits

theorem unfitting (closes : closer.opens = false) (unfit : ∀ delimiter ∈ opened, delimiter.bracket ≠ closer.bracket) :
    Settles (delimiters ++ [closer]) opened (ledger.read closer) := by
  rw [read_unfitting closes h.scopes unfit]
  refine ⟨h.scopes, ?_, ?_, h.fits, h.later, h.nested, h.apart, h.inward, ?_⟩
  · rw [List.filter_append, List.filter_singleton, closes, cond_false, List.append_nil]
    exact h.openers
  · rw [List.filter_append, List.filter_singleton, closes, ← List.append_assoc]
    exact h.closers.append_right [closer]
  · rintro ⟨-, expected⟩
    exact absurd expected (List.append_ne_nil_of_right_ne_nil _ (List.cons_ne_nil _ _))

/-- One more delimiter is settled, if it stands behind all others. -/
theorem read (behind : ∀ other ∈ delimiters, other.place < delimiter.place) :
    ∃ opened, Settles (delimiters ++ [delimiter]) opened (ledger.read delimiter) := by
  cases kind : delimiter.opens with
  | true => exact ⟨_, h.opening behind kind⟩
  | false =>
    rcases exists_innermost delimiter.bracket opened with unfit | ⟨inside, opener, around, split, fits, skipped⟩
    · exact ⟨_, h.unfitting kind unfit⟩
    · exact ⟨_, h.closing split behind kind skipped fits⟩

theorem finish : Settles delimiters [] ledger.finish := by
  rw [finish_eq h.scopes]
  refine ⟨rfl, ?_, h.closers, h.fits, h.later, h.nested, by simp, .nil, ?_⟩
  · rw [List.append_nil, ← List.append_assoc]
    exact ((List.reverse_perm opened).append_left _).trans h.openers
  · rintro ⟨closed, expected⟩
    obtain ⟨front, none_open⟩ := List.append_eq_nil_iff.1 closed
    have own := h.balanced ⟨front, expected⟩
    rwa [List.reverse_eq_nil_iff.1 none_open] at own

end

/-- What has become of delimiters that follow each other in a program. -/
theorem ofDelimiters (ascending : delimiters.Pairwise (·.place < ·.place)) :
    ∃ opened, Settles delimiters opened (ofDelimiters delimiters) := by
  induction delimiters using List.reverseRecOn with
  | nil => exact ⟨[], start⟩
  | append_singleton delimiters delimiter ih =>
    obtain ⟨front, -, behind⟩ := List.pairwise_append.1 ascending
    obtain ⟨opened, settles⟩ := ih front
    rw [ofDelimiters_concat]
    exact settles.read fun other hmem => behind other hmem delimiter (List.mem_singleton_self _)

end Settles

/-! ## Balanced delimiters leave a clean ledger -/

/-- Balanced delimiters are paired, and leave all else as it is. -/
theorem exists_foldl_read (balanced : Balanced delimiters) (scopes : ledger.scopes = opened.map some ++ [none]) :
    ∃ pairs, delimiters.foldl read ledger = { ledger with pairs } := by
  induction balanced generalizing ledger opened with
  | nil => exact ⟨_, rfl⟩
  | @pair opener closer inner rest opens closes fits _ _ ihInside ihBehind =>
    have entered : some opener :: ledger.scopes = ([] ++ opener :: opened).map some ++ [none] := by
      rw [scopes]
      rfl
    obtain ⟨pairs, inside⟩ := @ihInside _ { ledger with scopes := some opener :: ledger.scopes } entered
    have closed : (inner.foldl read (ledger.read opener)).read closer
        = { ledger with pairs := pairs ++ [(opener, closer)] } := by
      rw [read_opener opens, inside, read_fitting closes entered (by simp) fits, scopes]
      simp
    obtain ⟨pairs', behind⟩ := @ihBehind _ { ledger with pairs := pairs ++ [(opener, closer)] } scopes
    refine ⟨pairs', ?_⟩
    rw [List.cons_append, List.foldl_cons, List.foldl_append, List.foldl_cons, closed, behind]

/-- The ledger of delimiters is clean at the end of the program if and only if they are balanced. -/
theorem clean_finish_iff (ascending : delimiters.Pairwise (·.place < ·.place)) :
    (ofDelimiters delimiters).finish.Clean ↔ Balanced delimiters := by
  constructor
  · intro clean
    obtain ⟨opened, settles⟩ := Settles.ofDelimiters ascending
    exact (settles.finish.balanced clean).balanced
  · intro balanced
    obtain ⟨pairs, read⟩ := @exists_foldl_read delimiters [] start balanced rfl
    rw [ofDelimiters, read]
    exact ⟨rfl, rfl⟩

end Ledger
end SwiftTemplate.Swift
