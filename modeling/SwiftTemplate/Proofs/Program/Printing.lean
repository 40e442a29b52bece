import SwiftTemplate.Program.Chunk
import SwiftTemplate.Proofs.Swift.Writing

/-!
# What print statements print

The literals of a print statement spell what the statement is to print, and the statement is read as
a call with these literals, whatever texts and expressions are in them.
-/
namespace SwiftTemplate.Program

open Swift
open Swift.Literal (Part SelfContained Spells spelled?)
open Template (Output)

/-- What a literal spells to print something. -/
def partsOf : Output → List Part
  | .literal text => text.map .char
  | .expression code => [.code code]

/-- Outputs whose expressions can stand in literals. -/
def AllSelfContained (outputs : List Output) : Prop := ∀ code, .expression code ∈ outputs → SelfContained code

namespace Print

/-! ## Escaped texts -/

/-- The spelling for a literal on several lines does on one line as well, but for line breaks. -/
theorem spells_escapeBlock {multiline : Bool} {c : Char} (line : multiline = true ∨ c ≠ '\n') :
    Spells multiline (escapeBlock c) [.char c] := by
  unfold escapeBlock
  split
  · next hc =>
    subst hc
    exact .escape rfl
  split
  · next hc =>
    subst hc
    exact .escape rfl
  split
  · next hc =>
    subst hc
    exact .escape rfl
  split
  · next hc =>
    subst hc
    exact .escape rfl
  · next backslash quote return' _ =>
    refine .char backslash quote (line.imp_right fun line => ?_)
    simp [Comment.isBreak, line, return']

/-- The spelling for a literal on one line does in both kinds of literals. -/
theorem spells_escapeInline (multiline : Bool) (c : Char) : Spells multiline (escapeInline c) [.char c] := by
  unfold escapeInline
  split
  · next hc =>
    subst hc
    exact .escape rfl
  · next line => exact spells_escapeBlock (.inr line)

theorem spells_inlineText (multiline : Bool) (text : List Char) :
    Spells multiline (inlineText text) (text.map .char) :=
  .flatMap fun c _ => spells_escapeInline multiline c

theorem spells_blockText (text : List Char) : Spells true (blockText text) (text.map .char) :=
  .flatMap fun _ _ => spells_escapeBlock (.inl rfl)

theorem spells_blockOutput {outputs : List Output} (h : AllSelfContained outputs) :
    Spells true (outputs.flatMap blockOutput) (outputs.flatMap partsOf) := by
  induction outputs with
  | nil => exact .nil true
  | cons output outputs ih =>
    have others := ih fun code hmem => h code (List.mem_cons_of_mem _ hmem)
    rw [List.flatMap_cons, List.flatMap_cons]
    cases output with
    | literal text => exact (spells_blockText text).append others
    | expression code => exact (Spells.code (h code (List.mem_cons_self ..))).append others

/-! ## The literals of a statement -/

/-- What the head and the tail spell together is what the head spelled before and then the outputs.
The head has to spell that in both kinds of literals, because it may move to the tail. -/
theorem exists_spells {outputs : List Output} (h : AllSelfContained outputs) {head : List Char} {parts : List Part}
    (hhead : ∀ multiline, Spells multiline head parts) :
    ∃ front back, Spells false (ofOutputs head outputs).head front ∧
      Spells true ((ofOutputs head outputs).tail.getD []) back ∧ front ++ back = parts ++ outputs.flatMap partsOf := by
  induction outputs generalizing head parts with
  | nil => exact ⟨parts, [], hhead false, .nil true, rfl⟩
  | cons output outputs ih =>
    have hothers : AllSelfContained outputs := fun code hmem => h code (List.mem_cons_of_mem _ hmem)
    cases output with
    | literal text =>
      rw [ofOutputs]
      cases hcut : Text.cutAt? '\n' text with
      | none =>
        obtain ⟨front, back, hfront, hback, heq⟩ :=
          ih hothers fun multiline => (hhead multiline).append (spells_inlineText multiline text)
        refine ⟨front, back, hfront, hback, ?_⟩
        rw [heq, List.append_assoc]
        rfl
      | some cut =>
        obtain ⟨line, rest⟩ := cut
        refine ⟨parts ++ line.map .char ++ [.char '\n'], rest.map .char ++ outputs.flatMap partsOf, ?_, ?_, ?_⟩
        · exact ((hhead false).append (spells_inlineText false line)).append (.escape rfl)
        · exact (spells_blockText rest).append (spells_blockOutput hothers)
        · simp [Text.cutAt?_eq_some hcut, partsOf]
    | expression code =>
      have own := h code (List.mem_cons_self ..)
      rw [ofOutputs]
      split
      · refine ⟨[], parts ++ [.code code] ++ outputs.flatMap partsOf, .nil false, ?_, by simp [partsOf]⟩
        exact ((hhead true).append (Spells.code own)).append (spells_blockOutput hothers)
      · obtain ⟨front, back, hfront, hback, heq⟩ := ih hothers fun multiline => (hhead multiline).append (.code own)
        refine ⟨front, back, hfront, hback, ?_⟩
        rw [heq, List.append_assoc]
        rfl

end Print

/-! ## The tokens of a statement -/

open Token (written Reads)

/-- Tokens that are a literal, or the sum of two, and spell some parts. -/
inductive Argument : List Token → List Part → Prop
  | literal {text : List Char} {parts : List Part} (h : spelled? text = some parts) :
      Argument [written .string text []] parts
  | sum {first second : List Char} {front back : List Part} (h : spelled? first = some front)
      (h' : spelled? second = some back) :
      Argument [written .string first [' '], written .operator ['+'] [' '], written .string second []] (front ++ back)

/-- The tokens behind the argument of a print statement. -/
def terminatorTokens : List Token :=
  [written .comma [','] [' '], written .identifier "terminator".toList [], written .colon [':'] [' '],
    written .string ['"', '"'] [], written (.closer .paren) [')'] []]

/-- The tokens of a print statement with a given argument. -/
def printTokens (argument : List Token) : List Token :=
  written .identifier "print".toList [] :: written (.opener .paren) ['('] [] :: (argument ++ terminatorTokens)

theorem render_printTokens (argument : List Token) :
    Token.render (printTokens argument) = "print(".toList ++ Token.render argument ++ ", terminator: \"\")".toList := by
  have front : Token.render [written .identifier "print".toList [], written (.opener .paren) ['('] []]
      = "print(".toList := by
    decide +kernel
  have back : Token.render terminatorTokens = ", terminator: \"\")".toList := by decide +kernel
  rw [← front, ← back, ← Token.render_append, ← Token.render_append, List.append_assoc]
  rfl

namespace Print

theorem reads_terminatorTokens {rest : List Char} (h : Text.Breaks rest) : Reads terminatorTokens rest := by
  have label := @Token.reads_word (':' :: ' ' :: '"' :: '"' :: ')' :: rest) "terminator".toList [] (by decide)
    (by decide +kernel) (by decide +kernel) (by simp; decide +kernel) (Trivia.trailing_cons (by decide) _)
  have close : Reads [written (.closer .paren) [')'] []] rest := Token.reads_mark rfl (Trivia.trailing_of_breaks h)
  have literal : Reads [written .string ['"', '"'] []] (')' :: rest) :=
    @Token.reads_inline (')' :: rest) [] [] [] (.nil false) (by simp) (Trivia.trailing_cons (by decide) _)
  have colon : Reads [written .colon [':'] [' ']] ('"' :: '"' :: ')' :: rest) :=
    Token.reads_mark rfl (Trivia.trailing_blank (Trivia.trailing_cons (by decide) _))
  have comma : Reads [written .comma [','] [' ']] ('t' :: ("erminator".toList ++ ':' :: ' ' :: '"' :: '"' :: ')' :: rest)) :=
    Token.reads_mark rfl (Trivia.trailing_blank (Trivia.trailing_cons (by decide) _))
  exact comma.cons (Reads.cons label (colon.cons (literal.cons close)))

theorem head?_argument (print : Print) : print.argument.head? = some '"' := by
  unfold argument
  dsimp only
  split
  · rfl
  split
  · rfl
  · rfl

/-- The argument of a print statement is read as it is written. -/
theorem exists_argument {print : Print} {front back : List Part} (hfront : Spells false print.head front)
    (hback : Spells true (print.tail.getD []) back) :
    ∃ argument, Argument argument (front ++ back) ∧ Token.render argument = print.argument ∧
      ∀ rest, rest.head? = some ',' → Reads argument rest := by
  have stop {rest : List Char} (h : rest.head? = some ',') : rest.head? ≠ some '"' ∧ Trivia.trailing rest = 0 := by
    obtain ⟨rest, rfl⟩ := List.head?_eq_some_iff.1 h
    exact ⟨by simp, Trivia.trailing_cons (by decide) rest⟩
  have inline {trailing : List Char} {rest : List Char} := @Token.reads_inline rest print.head trailing front hfront
  have block {rest : List Char} := @Token.reads_block rest _ [] back hback
  have first := Literal.spelled?_inline hfront
  have second := Literal.spelled?_block hback
  unfold argument
  dsimp only
  split
  · next empty =>
    obtain rfl : back = [] := (List.isEmpty_iff.1 empty ▸ hback).eq_nil
    rw [List.append_nil]
    refine ⟨_, .literal first, by simp [Token.source, written, inlineLiteral], fun rest hrest => ?_⟩
    exact inline (stop hrest).1 (stop hrest).2
  split
  · next empty =>
    obtain rfl : front = [] := (List.isEmpty_iff.1 empty ▸ hfront).eq_nil
    rw [List.nil_append]
    refine ⟨_, .literal second, by simp [Token.source, written, blockLiteral], fun rest hrest => ?_⟩
    exact block (stop hrest).2
  · refine ⟨_, .sum first second, by simp [Token.source, written, inlineLiteral, blockLiteral], fun rest hrest => ?_⟩
    have quote (rest : List Char) : Trivia.trailing ('"' :: rest) = 0 := Trivia.trailing_cons (by decide) rest
    have plus (rest : List Char) : Reads [written .operator ['+'] [' ']] ('"' :: rest) :=
      Token.reads_of_read (by decide) (by decide) rfl (Trivia.trailing_blank (quote rest))
    refine Reads.cons ?_ (Reads.cons (plus _) (block (stop hrest).2))
    exact inline (by simp) (Trivia.trailing_blank (Trivia.trailing_cons (by decide) _))

/-- A print statement is read as a call with its argument, up to the end of its line. -/
theorem exists_tokens {print : Print} {front back : List Part} (hfront : Spells false print.head front)
    (hback : Spells true (print.tail.getD []) back) :
    ∃ argument, Argument argument (front ++ back) ∧ Token.render (printTokens argument) = print.statement ∧
      ∀ rest, Text.Breaks rest → Reads (printTokens argument) rest := by
  obtain ⟨argument, spells, render, reads⟩ := exists_argument hfront hback
  refine ⟨argument, spells, ?_, fun rest hrest => ?_⟩
  · rw [render_printTokens, render]
    rfl
  · have inner : Reads (argument ++ terminatorTokens) rest :=
      (reads _ (by simp [terminatorTokens, Token.source, written])).append (reads_terminatorTokens hrest)
    have quote : (Token.render (argument ++ terminatorTokens) ++ rest).head? = some '"' := by
      rw [Token.render_append, render, List.append_assoc, List.head?_append, head?_argument]
      rfl
    have paren : Reads [written (.opener .paren) ['('] []] (Token.render (argument ++ terminatorTokens) ++ rest) := by
      obtain ⟨behind, hbehind⟩ := List.head?_eq_some_iff.1 quote
      rw [hbehind]
      exact Token.reads_mark rfl (Trivia.trailing_cons (by decide) behind)
    have name := @Token.reads_word ('(' :: (Token.render (argument ++ terminatorTokens) ++ rest)) "print".toList []
      (by decide) (by decide +kernel) (by decide +kernel) (by simp; decide +kernel) (Trivia.trailing_cons (by decide) _)
    exact Reads.cons name (paren.cons inner)

end Print

/-- The statement of a run of output is read as a call of `print` with one literal or the sum of two,
and these spell the marker and then the texts and expressions of the run as the template has them. -/
theorem exists_ofText_print (options : Options) (line offset : Nat) {outputs : List Output}
    (h : AllSelfContained outputs) :
    ∃ argument, Argument argument ((options.lineMarker line).map .char ++ outputs.flatMap partsOf) ∧
      Token.ofText ((Chunk.ofBatch options line (.output offset outputs)).render options.file)
        = printTokens argument ++ [written .endOfText [] []] := by
  obtain ⟨front, back, hfront, hback, whole⟩ :=
    Print.exists_spells h fun multiline => Print.spells_inlineText multiline (options.lineMarker line)
  obtain ⟨argument, spells, render, reads⟩ := Print.exists_tokens hfront hback
  have alone := reads [] Text.breaks_nil
  rw [whole] at spells
  rw [Reads, render, List.append_nil] at alone
  refine ⟨argument, spells, alone.trans ?_⟩
  congr 1
  decide +kernel

/-- A marker, a quote and a backslash, an expression that holds a literal with a parenthesis in it, and
behind a line break an expression on two lines. -/
theorem exists_ofText_print_sum :
    AllSelfContained [.literal ['"', '\\'], .expression "f(\")\")".toList, .literal "a\nb".toList,
        .expression "g(\n)".toList] ∧
      ∃ argument,
        Argument argument ("7\n\"\\".toList.map .char ++ .code "f(\")\")".toList :: "a\nb".toList.map .char
          ++ [.code "g(\n)".toList]) ∧
        Token.ofText "print(\"7\\n\\\"\\\\\\(f(\")\"))a\\n\" + \"\"\"\nb\\(g(\n))\n\"\"\", terminator: \"\")".toList
          = printTokens argument ++ [written .endOfText [] []] := by
  have own : AllSelfContained [.literal ['"', '\\'], .expression "f(\")\")".toList, .literal "a\nb".toList,
      .expression "g(\n)".toList] := by
    intro code hmem
    have listed : code = "f(\")\")".toList ∨ code = "g(\n)".toList := by simpa using hmem
    rcases listed with rfl | rfl
    · decide +kernel
    · decide +kernel
  have marked : Options.lineMarker ⟨['t'], [], some "\x7bline\x7d".toList⟩ 7 = "7\n".toList := by decide +kernel
  have rendered : (Chunk.ofBatch ⟨['t'], [], some "\x7bline\x7d".toList⟩ 7 (.output 0
      [.literal ['"', '\\'], .expression "f(\")\")".toList, .literal "a\nb".toList, .expression "g(\n)".toList])).render
        ['t']
      = "print(\"7\\n\\\"\\\\\\(f(\")\"))a\\n\" + \"\"\"\nb\\(g(\n))\n\"\"\", terminator: \"\")".toList := by
    decide +kernel
  obtain ⟨argument, spells, tokens⟩ := exists_ofText_print ⟨['t'], [], some "\x7bline\x7d".toList⟩ 7 0 own
  rw [marked] at spells
  rw [rendered] at tokens
  exact ⟨own, argument, spells, tokens⟩

end SwiftTemplate.Program
