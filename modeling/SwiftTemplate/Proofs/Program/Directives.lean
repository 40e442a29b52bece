import SwiftTemplate.Proofs.Swift.Writing

/-!
# Directives, written and read

A directive is read as it was written, whatever name and line it carries: reading finds its ten
tokens, the line that it announces, and the name in its literal.
-/
namespace SwiftTemplate.Program

open Swift
open Swift.Token (written Reads)

/-! ## Quoted texts -/

theorem reads_quote {value trailing rest : List Char} (hrest : (trailing ++ rest).head? ≠ some '"')
    (htrailing : Trivia.trailing (trailing ++ rest) = trailing.length) :
    Reads [written .string (Literal.quote value) trailing] rest :=
  Token.reads_inline (Literal.spells_quoted value) hrest htrailing

/-- A quoted text begins a literal before anything but a quote. -/
theorem exists_head?_ofText_quote (value : List Char) {behind : List Char} (h : behind.head? ≠ some '"') :
    ∃ trailing, (Token.ofText (Literal.quote value ++ behind)).head?
      = some (written .string (Literal.quote value) trailing) := by
  have cut := List.take_append_drop (Trivia.trailing behind) behind
  generalize htrailing : behind.take (Trivia.trailing behind) = trailing at cut
  generalize behind.drop (Trivia.trailing behind) = rest at cut
  have extent : Trivia.trailing (trailing ++ rest) = trailing.length := by
    rw [cut, ← htrailing, List.length_take, Nat.min_eq_left (Trivia.trailing_le_length behind)]
  have reads := @reads_quote value trailing rest (by rwa [cut]) extent
  have source : Token.render [written .string (Literal.quote value) trailing] ++ rest = Literal.quote value ++ behind := by
    simp [Token.source, written, ← cut]
  rw [Reads, source] at reads
  exact ⟨trailing, by rw [reads, List.singleton_append, List.head?_cons]⟩

/-! ## Directives -/

/-- The tokens of a directive. -/
def directiveTokens (file : List Char) (line : Nat) : List Token :=
  [written .pound Directive.name [], written (.opener .paren) ['('] [], written .identifier "file".toList [],
    written .colon [':'] [' '], written .string (Literal.quote file) [], written .comma [','] [' '],
    written .identifier "line".toList [], written .colon [':'] [' '],
    written .integer (Text.Decimal.write line) [], written (.closer .paren) [')'] []]

theorem render_directiveTokens (file : List Char) (line : Nat) :
    Token.render (directiveTokens file line) = Directive.render file line := by
  simp [directiveTokens, Directive.render, Token.source, written]

theorem first?_directiveTokens (file : List Char) (line : Nat) :
    Directive.first? (directiveTokens file line) = some .located := by
  rfl

theorem reads_directiveTokens (file : List Char) (line : Nat) {rest : List Char} (hrest : Text.Breaks rest) :
    Reads (directiveTokens file line) rest := by
  have stop {c : Char} (hc : Trivia.isTrailing c = false) (behind : List Char) := Trivia.trailing_cons hc behind
  have close : Reads [written (.closer .paren) [')'] []] rest := Token.reads_mark rfl (Trivia.trailing_of_breaks hrest)
  have number : Reads [written .integer (Text.Decimal.write line) []] (')' :: rest) :=
    Token.reads_digits (Text.Decimal.write_ne_nil line) (Text.Decimal.all_isDigit_write line)
      (by simp; decide +kernel) (stop (by decide) _)
  have colon {c : Char} (hc : Trivia.isTrailing c = false) (behind : List Char) :
      Reads [written .colon [':'] [' ']] (c :: behind) := Token.reads_mark rfl (Trivia.trailing_blank (stop hc behind))
  have label (behind : List Char) : Reads [written .identifier "line".toList []] (':' :: behind) :=
    @Token.reads_word _ "line".toList [] (by decide) (by decide +kernel) (by decide +kernel)
      (by simp; decide +kernel) (stop (by decide) _)
  have comma (behind : List Char) : Reads [written .comma [','] [' ']] ('l' :: behind) :=
    Token.reads_mark rfl (Trivia.trailing_blank (stop (by decide) _))
  have path (behind : List Char) : Reads [written .string (Literal.quote file) []] (',' :: behind) :=
    reads_quote (by simp) (stop (by decide) _)
  have fileLabel (behind : List Char) : Reads [written .identifier "file".toList []] (':' :: behind) :=
    @Token.reads_word _ "file".toList [] (by decide) (by decide +kernel) (by decide +kernel)
      (by simp; decide +kernel) (stop (by decide) _)
  have paren (behind : List Char) : Reads [written (.opener .paren) ['('] []] ('f' :: behind) :=
    Token.reads_mark rfl (stop (by decide) _)
  have head (behind : List Char) : Reads [written .pound Directive.name []] ('(' :: behind) :=
    Token.reads_pound (by decide +kernel) (by decide +kernel) (by simp; decide +kernel) (stop (by decide) _)
  obtain ⟨c, digits, hwrite⟩ := List.exists_cons_of_ne_nil (Text.Decimal.write_ne_nil line)
  have digit : Text.Decimal.isDigit c = true := by
    have all := Text.Decimal.all_isDigit_write line
    rw [hwrite, List.all_cons, Bool.and_eq_true] at all
    exact all.1
  have lineColon : Reads [written .colon [':'] [' ']]
      (Token.render [written .integer (Text.Decimal.write line) [], written (.closer .paren) [')'] []] ++ rest) := by
    have facts := Token.digit_facts digit
    simp only [Token.render_cons, Token.source, written, hwrite, List.nil_append, List.cons_append]
    exact colon (Trivia.isTrailing_eq_false ⟨facts.1, facts.2.1⟩) _
  exact Reads.cons (head _) (Reads.cons (paren _) (Reads.cons (fileLabel _) (Reads.cons (colon (by decide) _)
    (Reads.cons (path _) (Reads.cons (comma _) (Reads.cons (label _) (Reads.cons lineColon (number.cons close))))))))

/-- A directive and a quoted text are read back. The directive has ten tokens and the end of the text
behind them, announces its line, and its literal spells the name; a quoted text is a closed literal
before anything but a quote, and spells what was quoted. -/
theorem ofText_render_directive :
    (∀ file line, line < Directive.lineBound →
      Token.ofText (Directive.render file line) = directiveTokens file line ++ [written .endOfText [] []] ∧
        (directiveTokens file line).length = 10 ∧
        Directive.first? (Token.ofText (Directive.render file line)) = some .located ∧ Directive.located.size = 10 ∧
        Directive.announced? (Token.ofText (Directive.render file line)) = some line ∧
        ∃ path, (Token.ofText (Directive.render file line))[4]? = some path ∧ path.kind = .string ∧
          Literal.spelled? path.text = some (file.map .char)) ∧
    ∀ value behind, behind.head? ≠ some '"' →
      ∃ trailing, (Token.ofText (Literal.quote value ++ behind)).head?
          = some ⟨.string, [], Literal.quote value, trailing, false⟩ ∧
        Literal.spelled? (Literal.quote value) = some (value.map .char) := by
  have decoded (value : List Char) : Literal.spelled? (Literal.quote value) = some (value.map .char) :=
    Literal.spelled?_inline (Literal.spells_quoted value)
  constructor
  · intro file line h
    have tokens : Token.ofText (Directive.render file line) = directiveTokens file line ++ [written .endOfText [] []] := by
      have reads := reads_directiveTokens file line Text.breaks_nil
      rw [Reads, List.append_nil, render_directiveTokens] at reads
      rw [reads]
      congr 1
      decide +kernel
    have shape : Directive.first? (Token.ofText (Directive.render file line)) = some .located := by
      rw [tokens]
      exact Directive.first?_append (first?_directiveTokens file line) _
    have number : (Token.ofText (Directive.render file line))[Directive.lineToken]?
        = some (written .integer (Text.Decimal.write line) []) := by
      rw [tokens]
      rfl
    refine ⟨tokens, rfl, shape, rfl, ?_, written .string (Literal.quote file) [], ?_, rfl, decoded file⟩
    · rw [Directive.announced?_of_number shape number rfl, Option.filter_some, if_pos (by simpa using h)]
    · rw [tokens]
      rfl
  · intro value behind h
    obtain ⟨trailing, head⟩ := exists_head?_ofText_quote value h
    exact ⟨trailing, head, decoded value⟩

/-- A name with quotes at its ends, a backslash, the beginning of an interpolation and a line break,
and the highest line; a text that ends with a backslash, before a comment on its line. -/
theorem ofText_render_directive_quoted :
    18446744073709551615 < Directive.lineBound ∧
      Directive.announced? (Token.ofText (Directive.render "\"\\(\n\"".toList 18446744073709551615))
        = some 18446744073709551615 ∧
      "/**/x".toList.head? ≠ some '"' ∧
      ∃ trailing, (Token.ofText (Literal.quote ['\\'] ++ "/**/x".toList)).head?
          = some ⟨.string, [], ['"', '\\', '\\', '"'], trailing, false⟩ ∧
        Literal.spelled? ['"', '\\', '\\', '"'] = some [.char '\\'] := by
  have line : 18446744073709551615 < Directive.lineBound := by decide
  have behind : "/**/x".toList.head? ≠ some '"' := by decide
  obtain ⟨-, -, -, -, announced, -⟩ := ofText_render_directive.1 "\"\\(\n\"".toList _ line
  exact ⟨line, announced, behind, ofText_render_directive.2 ['\\'] _ behind⟩

end SwiftTemplate.Program
