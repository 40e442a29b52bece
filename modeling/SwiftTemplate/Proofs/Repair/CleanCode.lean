import SwiftTemplate.Proofs.Repair.Tokens
import SwiftTemplate.Proofs.Swift.Transparency

/-!
# Repair of clean code

Code that nothing is wrong with, with directives on lines of their own anywhere in it, is clean
behind repair, and its tokens are what they were.
-/
namespace SwiftTemplate.Repair

open Swift
open Swift.Token (Lexed)

/-- In sound parts every word `#sourceLocation` is the head of a directive, if none is outside. -/
theorem allFormed_tokensOf {parts : List Part} (h : Sound parts)
    (plain : ∀ token ∈ plainsOf parts, Directive.begins token = false) : Directive.AllFormed (tokensOf parts) := by
  induction parts using parts_induction with
  | nil => trivial
  | token token parts ih =>
    obtain ⟨own, plain⟩ := List.forall_mem_cons.1 plain
    exact Directive.allFormed_append (by simpa [Part.tokens] using own) (ih h.2 plain)
  | directive part form parts hform ih =>
    obtain ⟨shape, size⟩ := shape_of_sound h hform
    rw [plainsOf_cons_of_form hform] at plain
    exact Directive.allFormed_append_of_first? shape size (ih h.tail plain)

theorem ends_of_terminated {tokens : List Token} (lexed : tokens ≠ [] → Lexed tokens) :
    ∀ token ∈ tokens, token.unterminated = false → token.Ends := by
  induction tokens with
  | nil => simp
  | cons token tokens ih =>
    have own := lexed (by simp)
    refine List.forall_mem_cons.2 ⟨fun terminated => ?_, ih fun hne => own.tail hne⟩
    by_cases hkind : token.kind = .endOfText
    · rw [Token.Ends, (own.nil_of_endOfText hkind).1]
      decide +kernel
    · exact Token.ends_of_next own.next_eq hkind fun _ _ => terminated

theorem tidy_of_alone {text : List Char} (formed : Directive.AllFormed (Token.ofText text))
    (alone : ∀ place ∈ (Source.ofText text).directives, Directive.Alone (Token.ofText text) place.1 place.2)
    (clean : Diagnostic.ofTokens (Directive.outside (Token.ofText text)) = []) : Tidy (Token.ofText text) := by
  have plain := Directive.begins_eq_false_of_mem_outside formed
  refine ⟨Directive.bare_of_begins plain, fun token hmem => ?_, fun place hplace => ?_⟩
  · exact ends_of_terminated (fun _ => Token.lexed_ofText text) token (Directive.mem_of_mem_outside hmem)
      (Diagnostic.unterminated_eq_false plain clean token hmem)
  · refine (alone place hplace).detachable (Token.lexed_ofText text) ?_
    have := (Directive.first?_drop_of_mem_places hplace).2
    rwa [Nat.sub_zero] at this

/-- Repair of a program whose directives are well formed and alone on their lines, and in which
nothing is wrong with the tokens outside of them: the result is clean, and has the same tokens. -/
theorem isClean_fix (text : List Char) (formed : Directive.AllFormed (Token.ofText text))
    (alone : ∀ place ∈ (Source.ofText text).directives, Directive.Alone (Token.ofText text) place.1 place.2)
    (clean : Diagnostic.ofTokens (Directive.outside (Token.ofText text)) = []) :
    (Source.ofText (fix text)).isClean = true ∧ plainTokens (fix text) = plainTokens text := by
  have tidy := tidy_of_alone formed alone clean
  refine ⟨?_, plainTokens_fix_of_tidy tidy⟩
  obtain ⟨parts, holds, same⟩ := exists_holds_fix tidy
  rw [SameTokens, plainsOf_partsOf] at same
  have plain : ∀ token ∈ plainsOf parts, Directive.begins token = false := by
    intro token hmem
    have hbared := List.mem_map_of_mem (f := bared) hmem
    rw [same] at hbared
    obtain ⟨other, hother, heq⟩ := List.mem_map.1 hbared
    exact (congrArg Directive.begins heq).symm.trans (Directive.begins_eq_false_of_mem_outside formed other hother)
  have formed' : Directive.AllFormed (Token.ofText (fix text)) := by
    rw [holds.tokens]
    exact allFormed_tokensOf holds.sound plain
  rw [isClean_iff formed' (problems_fix text), holds.tokens, outside_tokensOf holds.sound holds.bare, ← clean]
  exact Diagnostic.ofTokensFrom_congr_of_begins (similar_of_map_bared same) plain _ 0 .none

/-- The directive in front of an `else` and the one inside a call move, and the program is clean. -/
theorem isClean_fix_moves :
    let text := "f(\n\t#sourceLocation(file: \"t\", line: 7) \n)\nif a \x7b\n\x7d\n#sourceLocation()\nelse \x7b\n\x7d\n".toList
    Directive.AllFormed (Token.ofText text) ∧
      (∀ place ∈ (Source.ofText text).directives, Directive.Alone (Token.ofText text) place.1 place.2) ∧
      Diagnostic.ofTokens (Directive.outside (Token.ofText text)) = [] ∧ (Source.ofText text).isClean = false ∧
      (Source.ofText (fix text)).isClean = true ∧ plainTokens (fix text) = plainTokens text := by
  intro text
  have formed : Directive.AllFormed (Token.ofText text) := by decide +kernel
  have alone : ∀ place ∈ (Source.ofText text).directives, Directive.Alone (Token.ofText text) place.1 place.2 := by
    decide +kernel
  have clean : Diagnostic.ofTokens (Directive.outside (Token.ofText text)) = [] := by decide +kernel
  exact ⟨formed, alone, clean, by decide +kernel, isClean_fix text formed alone clean⟩

end SwiftTemplate.Repair
