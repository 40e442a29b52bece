import SwiftTemplate.Rendering
import SwiftTemplate.Proofs.Program.Directives
import SwiftTemplate.Proofs.Program.LineMapping
import SwiftTemplate.Proofs.Program.Printing
import SwiftTemplate.Proofs.Repair.FixedPoint
import SwiftTemplate.Proofs.Swift.Slots

/-!
# Programs of templates without code

Nothing is wrong with the program of a template that only prints: declarations, directives and print
statements follow each other in the file scope, whatever the texts in them.
-/
namespace SwiftTemplate.Program

open Swift
open Swift.Token (written Reads prepend)
open Swift.Diagnostic (State needsMore cannotBegin ofToken ofTokensFrom)
open Template (Output Node)

/-! ## Declarations -/

/-- The tokens of a declaration. -/
def declarationTokens (binding : Binding) : List Token :=
  [written (.keyword .letKw) "let".toList [' '], written .identifier binding.name [' '],
    written .equal ['='] [' '], written .string (Literal.quote binding.value) []]

theorem render_declarationTokens (binding : Binding) :
    Token.render (declarationTokens binding) = binding.declaration := by
  -- the equation lemma of the definition would evaluate its texts
  delta Binding.declaration
  simp [declarationTokens, Token.source, written]

theorem reads_declarationTokens {binding : Binding} (h : Lexeme.isIdentifier binding.name = true) {rest : List Char}
    (hrest : Text.Breaks rest) : Reads (declarationTokens binding) rest := by
  have blank : Word.isInside ' ' = false := by decide +kernel
  have value : Reads [written .string (Literal.quote binding.value) []] rest := by
    refine reads_quote ?_ (Trivia.trailing_of_breaks hrest)
    intro quote
    exact absurd (hrest '"' quote) (by decide)
  have equal (behind : List Char) : Reads [written .equal ['='] [' ']] ('"' :: behind) :=
    Token.reads_of_read (by decide) (by decide) rfl (Trivia.trailing_blank (Trivia.trailing_cons (by decide) _))
  have name (behind : List Char) : Reads [written .identifier binding.name [' ']] ('=' :: behind) :=
    Token.reads_identifier h (by simpa using blank) (Trivia.trailing_blank (Trivia.trailing_cons (by decide) _))
  have head : Reads [written (.keyword .letKw) "let".toList [' ']]
      (Token.render (declarationTokens binding).tail ++ rest) := by
    obtain ⟨c, w, hname, hc⟩ := Token.exists_cons_of_isIdentifier h
    refine @Token.reads_word _ "let".toList [' '] (by decide) (by decide +kernel) (by decide +kernel)
      (by simpa using blank) (Trivia.trailing_blank ?_)
    simp only [declarationTokens, List.tail_cons, Token.render_cons, Token.source, written, hname, List.nil_append,
      List.cons_append]
    exact Trivia.trailing_cons (Trivia.isTrailing_eq_false hc) _
  exact Reads.cons head (Reads.cons (name _) (Reads.cons (equal _) value))

/-! ## Statements in the file scope -/

/-- Whether a token changes nothing that the checker knows and is never wrong by itself. -/
def isInert (token : Token) : Bool :=
  !token.unterminated &&
    match token.kind with
    | .identifier | .string | .comma | .colon | .equal | .operator | .keyword .letKw => true
    | _ => false

theorem ofTokensFrom_cons_of_isInert {token : Token} (h : isInert token = true) (nesting : Nesting) (index : Nat)
    (previous : Option Token) (tokens : List Token) :
    ofTokensFrom ⟨nesting, none⟩ index previous (token :: tokens)
      = ofTokensFrom ⟨nesting, none⟩ (index + 1) (some token) tokens := by
  obtain ⟨terminated, kind⟩ := Bool.and_eq_true_iff.1 h
  have plain : Directive.begins token = false := by
    unfold Directive.begins
    split at kind <;> simp_all
  have nothing : ofToken ⟨nesting, none⟩ index previous token = ([], ⟨nesting, none⟩) := by
    unfold ofToken
    split at kind <;> simp_all [Keyword.opensHeader]
  rw [Diagnostic.ofTokensFrom_plain (Directive.first?_eq_none plain), nothing]
  simp_all [Diagnostic.singleIf]

theorem ofTokensFrom_append_of_isInert {tokens : List Token} (h : tokens.all isInert = true) (nesting : Nesting)
    (index : Nat) (previous : Option Token) (behind : List Token) :
    ofTokensFrom ⟨nesting, none⟩ index previous (tokens ++ behind)
      = ofTokensFrom ⟨nesting, none⟩ (index + tokens.length) (tokens.getLast?.or previous) behind := by
  induction tokens generalizing index previous with
  | nil => rfl
  | cons token tokens ih =>
    rw [List.all_cons, Bool.and_eq_true] at h
    rw [List.cons_append, ofTokensFrom_cons_of_isInert h.1, ih h.2, List.getLast?_cons, List.length_cons,
      Nat.add_right_comm, Nat.add_assoc]
    cases tokens.getLast? <;> rfl

/-- The parentheses of a call are closed behind its arguments. -/
theorem ofTokensFrom_call {name : Token} {arguments : List Token} (hname : isInert name = true)
    (harguments : arguments.all isInert = true) (index : Nat) (previous : Option Token) (behind : List Token) :
    ofTokensFrom .start index previous
        (name :: written (.opener .paren) ['('] [] :: (arguments ++ written (.closer .paren) [')'] [] :: behind))
      = ofTokensFrom .start (index + (arguments.length + 3)) (some (written (.closer .paren) [')'] [])) behind := by
  have start : State.start = ⟨Nesting.file, none⟩ := rfl
  rw [start, ofTokensFrom_cons_of_isInert hname, Diagnostic.ofTokensFrom_plain (Directive.first?_eq_none rfl)]
  have opened : ofToken ⟨Nesting.file, none⟩ (index + 1) (some name) (written (.opener .paren) ['('] [])
      = ([], ⟨Nesting.file.enter .paren (index + 1), none⟩) := rfl
  rw [opened, ofTokensFrom_append_of_isInert harguments, Diagnostic.ofTokensFrom_plain (Directive.first?_eq_none rfl)]
  have closed (place : Nat) (before : Option Token) :
      ofToken ⟨Nesting.file.enter .paren (index + 1), none⟩ place before (written (.closer .paren) [')'] [])
        = ([], ⟨Nesting.file, none⟩) := rfl
  rw [closed]
  have place : index + 1 + 1 + arguments.length + 1 = index + (arguments.length + 3) := by omega
  rw [place]
  rfl

/-- Statements that the checker accepts in the file scope, behind which a statement can begin. -/
structure Accepted (tokens : List Token) : Prop where
  finds : ∀ lead index previous behind, ofTokensFrom .start index previous (prepend lead tokens ++ behind)
    = ofTokensFrom .start (index + tokens.length) tokens.getLast? behind
  ends : ∀ token ∈ tokens.getLast?, needsMore none token = false

theorem accepted_declarationTokens (binding : Binding) : Accepted (declarationTokens binding) := by
  constructor
  · intro lead index previous behind
    have inert : (prepend lead (declarationTokens binding)).all isInert = true := rfl
    exact ofTokensFrom_append_of_isInert inert Nesting.file index previous behind
  · intro token htoken
    obtain rfl := Option.some.inj htoken
    rfl

theorem accepted_printTokens {argument : List Token} {parts : List Literal.Part} (h : Argument argument parts) :
    Accepted (printTokens argument) := by
  have inert : (argument ++ terminatorTokens.dropLast).all isInert = true := by
    cases h <;> rfl
  have whole : printTokens argument = written .identifier "print".toList [] :: written (.opener .paren) ['('] []
      :: ((argument ++ terminatorTokens.dropLast) ++ [written (.closer .paren) [')'] []]) := by
    simp [printTokens, terminatorTokens]
  have last : (printTokens argument).getLast? = some (written (.closer .paren) [')'] []) := by
    rw [whole, ← List.cons_append, ← List.cons_append, List.getLast?_concat]
  constructor
  · intro lead index previous behind
    have name : isInert { written .identifier "print".toList [] with leading := lead ++ [] } = true := rfl
    have call := ofTokensFrom_call name inert index previous behind
    rw [last, whole, List.length_cons, List.length_cons, List.length_append]
    simpa [prepend, written] using call
  · intro token htoken
    rw [last] at htoken
    obtain rfl := Option.some.inj htoken
    rfl

/-! ## Programs -/

/-- A text that nothing is wrong with where a statement can begin: at the start of a program, or on a
line of its own behind a statement that is complete. -/
def Fine (text : List Char) : Prop :=
  ∀ lead index previous, (previous = none ∨ '\n' ∈ lead ∧ ∀ token ∈ previous, needsMore none token = false) →
    ofTokensFrom .start index previous (prepend lead (Token.ofText text)) = []

theorem fine_nil : Fine [] := by
  intro lead index previous _
  have tokens : Token.ofText [] = [written .endOfText [] []] := by decide +kernel
  rw [tokens, prepend, List.modifyHead_cons, Diagnostic.ofTokensFrom_plain (Directive.first?_eq_none rfl), ofTokensFrom]
  rfl

theorem fine_newline {text : List Char} (h : Fine text) : Fine ('\n' :: text) := by
  intro lead index previous begins
  rw [Token.ofText_newline, Token.prepend_prepend]
  refine h _ index previous (begins.imp_right fun ⟨_, complete⟩ => ⟨?_, complete⟩)
  simp

/-- A line of statements does no harm to what follows it. -/
theorem fine_statement {tokens : List Token} {text : List Char} (hne : tokens ≠ []) (accepted : Accepted tokens)
    (reads : Reads tokens ('\n' :: text)) (h : Fine text) : Fine (Token.render tokens ++ '\n' :: text) := by
  intro lead index previous _
  obtain ⟨token, tokens, rfl⟩ := List.exists_cons_of_ne_nil hne
  have apart : prepend lead ((token :: tokens) ++ prepend ['\n'] (Token.ofText text))
      = prepend lead (token :: tokens) ++ prepend ['\n'] (Token.ofText text) := rfl
  rw [reads, Token.ofText_newline, apart, accepted.finds]
  exact h _ _ _ (.inr ⟨List.mem_singleton_self _, accepted.ends⟩)

/-- A directive does no harm in front of a statement. -/
theorem fine_directive (file : List Char) (line : Nat) {text : List Char} (h : Fine text)
    (begins : ∀ token ∈ (Token.ofText text).head?, cannotBegin token = false) :
    Fine (Directive.render file line ++ '\n' :: text) := by
  intro lead index previous stands
  obtain ⟨next, others, hnext⟩ := List.exists_cons_of_ne_nil (Token.ofText_ne_nil text)
  rw [hnext] at begins
  generalize hhead : ({ written .pound Directive.name [] with leading := lead ++ [] } : Token) = head
  generalize htail : prepend ['\n'] (Token.ofText text) = tail
  have front : ∃ first, tail.head? = some first ∧ first.startsLine = true ∧ cannotBegin first = false := by
    rw [hnext] at htail
    subst htail
    exact ⟨_, rfl, rfl, begins next rfl⟩
  have whole : prepend lead (Token.ofText (Directive.render file line ++ '\n' :: text))
      = head :: ((directiveTokens file line).tail ++ tail) := by
    rw [← render_directiveTokens, reads_directiveTokens file line (Text.breaks_newline text), Token.ofText_newline, htail,
      ← hhead]
    rfl
  have shape : Directive.first? (head :: ((directiveTokens file line).tail ++ tail)) = some .located := by
    rw [← hhead]
    exact Directive.first?_append ((Directive.first?_prepend lead _).trans (first?_directiveTokens file line)) tail
  have found : Diagnostic.ofDirective .start index .located previous head tail.head? = [] := by
    obtain ⟨first, hfirst, ownLine, opens⟩ := front
    have placed : Diagnostic.misplacements .start previous head tail.head? = [] := by
      refine Diagnostic.misplacements_eq_nil_iff.2 ⟨fun some => ?_, fun token htoken => ?_, rfl, ?_⟩
      · rcases stands with rfl | ⟨fresh, -⟩
        · cases some
        · rw [← hhead]
          simpa [Token.startsLine, written] using fresh
      · rw [hfirst] at htoken
        obtain rfl := Option.some.inj htoken
        exact .inr ownLine
      · rcases stands with rfl | ⟨-, complete⟩
        · rfl
        cases previous with
        | none => rfl
        | some token => exact congrArg (· || false) (complete token rfl)
    rw [Diagnostic.ofDirective, placed, hfirst]
    simp [Diagnostic.singleIf, opens]
  have later : ofTokensFrom .start (index + 10) (some (written (.closer .paren) [')'] [])) tail = [] := by
    rw [← htail]
    refine h _ _ _ (.inr ⟨List.mem_singleton_self _, fun token htoken => ?_⟩)
    obtain rfl := Option.some.inj htoken
    rfl
  rw [whole, Diagnostic.ofTokensFrom_directive shape]
  rw [show ((directiveTokens file line).tail ++ tail).drop (Directive.located.size - 1) = tail from rfl, found]
  refine Eq.trans ?_ later
  rw [← hhead]
  rfl

theorem fine_declarations (file : List Char) {bindings : List Binding}
    (names : ∀ binding ∈ bindings, Lexeme.isIdentifier binding.name = true) {text : List Char} (h : Fine text) :
    Fine (rows file (bindings.map .declaration) ++ text) := by
  induction bindings with
  | nil => exact h
  | cons binding bindings ih =>
    obtain ⟨own, names⟩ := List.forall_mem_cons.1 names
    have row : rows file ((binding :: bindings).map .declaration) ++ text
        = Token.render (declarationTokens binding) ++ '\n' :: (rows file (bindings.map .declaration) ++ text) := by
      rw [render_declarationTokens]
      simp [rows, Chunk.render]
    rw [row]
    exact fine_statement (by simp [declarationTokens]) (accepted_declarationTokens binding)
      (reads_declarationTokens own (Text.breaks_newline _)) (ih names)

theorem fine_preamble (file : List Char) {bindings : List Binding}
    (names : ∀ binding ∈ bindings, Lexeme.isIdentifier binding.name = true) {text : List Char} (h : Fine text) :
    Fine (rows file (preamble bindings) ++ text) := by
  unfold preamble
  split
  · exact h
  · have blank : rows file (bindings.map .declaration ++ [.blankLine]) ++ text
        = rows file (bindings.map .declaration) ++ '\n' :: text := by
      simp [rows, Chunk.render]
    rw [blank]
    exact fine_declarations file names (fine_newline h)

/-- A run of output below its directive. -/
theorem fine_output (options : Options) (line offset : Nat) {outputs : List Output} (h : AllSelfContained outputs) :
    Fine (rows options.file [.directive line, .ofBatch options line (.output offset outputs)]) := by
  obtain ⟨front, back, hfront, hback, -⟩ :=
    Print.exists_spells h fun multiline => Print.spells_inlineText multiline (options.lineMarker line)
  obtain ⟨argument, spells, render, reads⟩ := Print.exists_tokens hfront hback
  have statement := reads ['\n'] (Text.breaks_newline [])
  have whole : rows options.file [.directive line, .ofBatch options line (.output offset outputs)]
      = Directive.render options.file line ++ '\n' :: (Token.render (printTokens argument) ++ ['\n']) := by
    rw [render]
    simp [rows, Chunk.render, Chunk.ofBatch]
  rw [whole]
  refine fine_directive options.file line ?_ fun token htoken => ?_
  · exact fine_statement (by simp [printTokens]) (accepted_printTokens spells) statement fine_nil
  · rw [statement] at htoken
    obtain rfl := Option.some.inj htoken
    rfl

/-! ## Templates that only print -/

/-- A node that prints a text, or an expression that can stand in a literal. -/
def Prints : Node → Prop
  | ⟨.output (.literal _), _⟩ => True
  | ⟨.output (.expression code), _⟩ => Literal.SelfContained code
  | ⟨.code _, _⟩ => False

instance : (node : Node) → Decidable (Prints node)
  | ⟨.output (.literal _), _⟩ => .isTrue trivial
  | ⟨.output (.expression code), _⟩ => inferInstanceAs (Decidable (Literal.SelfContained code))
  | ⟨.code _, _⟩ => .isFalse id

theorem exists_outputs {nodes : List Node} (h : ∀ node ∈ nodes, Prints node) :
    ∃ outputs : List (Output × Nat), nodes = outputs.map Node.printed ∧ AllSelfContained (outputs.map Prod.fst) := by
  induction nodes with
  | nil => exact ⟨[], rfl, by simp [AllSelfContained]⟩
  | cons node nodes ih =>
    obtain ⟨own, others⟩ := List.forall_mem_cons.1 h
    obtain ⟨outputs, rfl, contained⟩ := ih others
    obtain ⟨content, offset⟩ := node
    cases content with
    | code text => exact own.elim
    | output output =>
      refine ⟨(output, offset) :: outputs, rfl, fun code hmem => ?_⟩
      rcases List.mem_cons.1 hmem with rfl | hmem
      · exact own
      · exact contained code hmem

theorem fine_ofTemplate (template : List Char) (options : Options) (prints : ∀ node ∈ Node.ofText template, Prints node)
    (names : ∀ binding ∈ options.bindings, Lexeme.isIdentifier binding.name = true) :
    Fine (ofTemplate template options) := by
  obtain ⟨outputs, hnodes, contained⟩ := exists_outputs prints
  rw [ofTemplate, ofNodes, chunks, hnodes]
  cases outputs with
  | nil =>
    have none : Batch.ofNodes (([] : List (Output × Nat)).map Node.printed) = [] := rfl
    rw [none, placeBatches, List.append_nil]
    by_cases empty : preamble options.bindings = []
    · rw [empty]
      exact fine_newline fine_nil
    · rw [render_eq_rows empty]
      simpa using fine_preamble options.file names fine_nil
  | cons first others =>
    obtain ⟨output, offset⟩ := first
    rw [Batch.ofNodes_map_printed, render_eq_rows (by simp [placeBatches]), rows, List.flatMap_append]
    exact fine_preamble options.file names (fine_output options _ offset contained)

theorem diagnostics_eq_nil_of_fine {text : List Char} (h : Fine text) : (Source.ofText text).diagnostics = [] := by
  have := h [] 0 none (.inl rfl)
  rwa [Token.prepend_nil] at this

/-- Text does no harm to a program: nothing is wrong with the program of a template that only prints
texts and expressions which can stand in literals, so that repair leaves it as it is. -/
theorem generate_eq_ofTemplate (template : List Char) (options : Options)
    (prints : ∀ node ∈ Node.ofText template, Prints node)
    (names : ∀ binding ∈ options.bindings, Lexeme.isIdentifier binding.name = true) :
    (Source.ofText (ofTemplate template options)).isClean = true ∧
      generate template options = ofTemplate template options := by
  have clean := diagnostics_eq_nil_of_fine (fine_ofTemplate template options prints names)
  have harmless : Repair.problems (ofTemplate template options) = [] := by
    refine List.filterMap_eq_nil_iff.2 fun place _ => ?_
    rw [Repair.problem?, Source.blame?, clean]
    rfl
  refine ⟨?_, Repair.fix_of_problems_eq_nil harmless⟩
  rw [Source.isClean, clean]
  rfl

/-- Quotes, backslashes, line breaks and the beginnings of interpolations in the name of the file, the
value of a binding, the marker and the texts, and a parenthesis in a literal in an expression. -/
theorem generate_eq_ofTemplate_quoted :
    let template := "\"a$$\\(%%$\x7bf(\")\")\x7d\"\"\"\n\r$\x7bg(\n)\x7d\\".toList
    let options : Options :=
      ⟨"t\"\\(".toList, [⟨['x'], "\"\n\\(\x00".toList⟩], some "\\(\x7bfile\x7d\"\x7bline\x7d".toList⟩
    (∀ node ∈ Node.ofText template, Prints node) ∧
      (∀ binding ∈ options.bindings, Lexeme.isIdentifier binding.name = true) ∧
      (Source.ofText (ofTemplate template options)).isClean = true ∧
      generate template options = ofTemplate template options := by
  intro template options
  have prints : ∀ node ∈ Node.ofText template, Prints node := by decide +kernel
  have names : ∀ binding ∈ options.bindings, Lexeme.isIdentifier binding.name = true := by decide +kernel
  exact ⟨prints, names, generate_eq_ofTemplate template options prints names⟩

end SwiftTemplate.Program
