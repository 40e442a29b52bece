import SwiftTemplate.Proofs.Program.LineMapping
import SwiftTemplate.Proofs.Template.LineEnds

/-!
# Programs of templates with longer line ends

Where the lines of a template end with `\r\n`, its program has the same chunks, with the longer line ends
in the code and in what is printed. A chunk takes as many program lines as before, so that the directives
stand where they stood.
-/
namespace SwiftTemplate.Program

open Template (Node Output Segment)
open Text (crlf)

/-! ## Print statements -/

/-- Two texts with as many line breaks, both of them empty or none. -/
structure Level (own other : List Char) : Prop where
  newlines : Text.newlines other = Text.newlines own
  empty : other = [] ↔ own = []

theorem Level.append {s s' t t' : List Char} (front : Level s s') (back : Level t t') : Level (s ++ t) (s' ++ t') := by
  constructor
  · rw [Text.newlines_append, Text.newlines_append, front.newlines, back.newlines]
  · rw [List.append_eq_nil_iff, List.append_eq_nil_iff, front.empty, back.empty]

namespace Print

theorem escapeBlock_ne_nil (c : Char) : escapeBlock c ≠ [] := by
  unfold escapeBlock
  repeat' split
  all_goals simp

theorem level_blockText (text : List Char) : Level (blockText text) (blockText (crlf text)) := by
  have filled : ∀ text, blockText text = [] ↔ text = [] := by
    intro text
    cases text with
    | nil => simp [blockText]
    | cons c text => simp [blockText, escapeBlock_ne_nil]
  constructor
  · rw [newlines_blockText, newlines_blockText, Text.newlines_crlf]
  · rw [filled, filled, Text.crlf_eq_nil_iff]

theorem level_interpolation (code : List Char) : Level (interpolation code) (interpolation (crlf code)) := by
  constructor
  · rw [newlines_interpolation, newlines_interpolation, Text.newlines_crlf]
  · simp [interpolation]

theorem level_blockOutputs (outputs : List Output) :
    Level (outputs.flatMap blockOutput) ((outputs.map Output.crlf).flatMap blockOutput) := by
  induction outputs with
  | nil => exact ⟨rfl, Iff.rfl⟩
  | cons output outputs ih =>
    rw [List.map_cons, List.flatMap_cons, List.flatMap_cons]
    refine Level.append ?_ ih
    cases output with
    | literal text => exact level_blockText text
    | expression code => exact level_interpolation code

/-- A statement has the line breaks of its literals, and two more around one on several lines. -/
theorem newlines_statement (print : Print) : Text.newlines print.statement
    = Text.newlines print.head + if print.tail.getD [] = [] then 0 else Text.newlines (print.tail.getD []) + 2 := by
  have inline : ∀ text, Text.newlines (inlineLiteral text) = Text.newlines text := by
    intro text
    simp [inlineLiteral, Text.newlines]
  have block : ∀ text, Text.newlines (blockLiteral text) = Text.newlines text + 2 := by
    intro text
    have opening : Text.newlines "\"\"\"\n".toList = 1 := rfl
    have closing : Text.newlines "\n\"\"\"".toList = 1 := rfl
    rw [blockLiteral, Text.newlines_append, Text.newlines_append, opening, closing]
    omega
  have opening : Text.newlines "print(".toList = 0 := rfl
  have plus : Text.newlines " + ".toList = 0 := rfl
  have closing : Text.newlines ", terminator: \"\")".toList = 0 := rfl
  unfold statement argument
  rw [Text.newlines_append, Text.newlines_append, opening, closing]
  by_cases tail : print.tail.getD [] = []
  · simp [tail, inline]
  by_cases head : print.head = []
  · simp [tail, head, block]
  · simp only [List.isEmpty_iff, tail, head, if_false, Text.newlines_append, inline, block, plus]
    omega

/-- What is printed where lines have longer ends is on as many lines: the `\r` of a line end is spelled
with an escape. -/
theorem level_ofOutputs (outputs : List Output) (head : List Char) :
    Text.newlines (ofOutputs head (outputs.map Output.crlf)).head = Text.newlines (ofOutputs head outputs).head ∧
      Level ((ofOutputs head outputs).tail.getD []) ((ofOutputs head (outputs.map Output.crlf)).tail.getD []) := by
  induction outputs generalizing head with
  | nil => exact ⟨rfl, rfl, Iff.rfl⟩
  | cons output outputs ih =>
    by_cases broken : '\n' ∈ output.text
    · cases output with
      | literal text =>
        have broken : '\n' ∈ text := broken
        cases cut : Text.cutAt? '\n' text with
        | none =>
          have plain := newlines_of_cutAt?_eq_none cut
          rw [List.contains_iff_mem.2 broken] at plain
          cases plain
        | some parts =>
          obtain ⟨line, rest⟩ := parts
          -- The `\r` stays in the head and the tail begins behind the same line break.
          have longer : Text.cutAt? '\n' (crlf text) = some (line ++ ['\r'], crlf rest) := by
            rw [Text.cutAt?_newline_crlf, cut]
            rfl
          rw [List.map_cons, Output.crlf, ofOutputs, ofOutputs, cut, longer]
          constructor
          · simp only [Text.newlines_append, newlines_inlineText]
          · exact (level_blockText rest).append (level_blockOutputs outputs)
      | expression code =>
        have several : code.contains '\n' = true := List.contains_iff_mem.2 broken
        have head : Level head head := ⟨rfl, Iff.rfl⟩
        rw [List.map_cons, Output.crlf, ofOutputs, ofOutputs, Text.contains_newline_crlf, if_pos several,
          if_pos several]
        exact ⟨rfl, (head.append (level_interpolation code)).append (level_blockOutputs outputs)⟩
    · -- Nothing in the output is longer, and it is added to the same head.
      obtain ⟨printed, -, hprinted⟩ := @exists_printed output (by simpa using broken)
      rw [List.map_cons, Output.crlf_of_not_mem broken, (hprinted head _).1, (hprinted head _).1]
      exact ih (head ++ printed)

theorem newlines_statement_crlf (head : List Char) (outputs : List Output) :
    Text.newlines (ofOutputs head (outputs.map Output.crlf)).statement
      = Text.newlines (ofOutputs head outputs).statement := by
  obtain ⟨heads, tails⟩ := level_ofOutputs outputs head
  rw [newlines_statement, newlines_statement, heads, tails.newlines]
  simp only [tails.empty]

end Print

/-! ## Chunks -/

namespace Chunk

/-- A chunk where lines have longer ends. -/
def crlf : Chunk → Chunk
  | print marker outputs => print marker (outputs.map Output.crlf)
  | code text => code (Text.crlf text)
  | chunk => chunk

/-- A chunk takes as many program lines as before. -/
theorem lineCount_crlf (file : List Char) (chunk : Chunk) : chunk.crlf.lineCount file = chunk.lineCount file := by
  cases chunk with
  | print marker outputs => exact congrArg (· + 1) (Print.newlines_statement_crlf _ outputs)
  | code text => exact congrArg (· + 1) (Text.newlines_crlf text)
  | declaration _ => rfl
  | blankLine => rfl
  | directive _ => rfl

end Chunk

theorem height_map_crlf (file : List Char) (chunks : List Chunk) :
    height file (chunks.map Chunk.crlf) = height file chunks := by
  rw [height, height, List.map_map]
  refine congrArg List.sum (List.map_congr_left ?_)
  intro chunk _
  exact Chunk.lineCount_crlf file chunk

/-- Directives stand where they stood. -/
theorem anchorsFrom_map_crlf (file : List Char) (next : Nat) (chunks : List Chunk) :
    anchorsFrom file next (chunks.map Chunk.crlf) = anchorsFrom file next chunks := by
  induction chunks generalizing next with
  | nil => rfl
  | cons chunk chunks ih =>
    have lines := Chunk.lineCount_crlf file chunk
    rw [List.map_cons]
    cases chunk with
    | directive line => exact congrArg (⟨next, line⟩ :: ·) (ih _)
    | declaration _ => exact ih _
    | blankLine => exact ih _
    | print marker outputs =>
      refine (ih _).trans ?_
      rw [lines]
      rfl
    | code text =>
      refine (ih _).trans ?_
      rw [lines]
      rfl

theorem newlines_render_map_crlf (file : List Char) (chunks : List Chunk) :
    Text.newlines (render file (chunks.map Chunk.crlf)) = Text.newlines (render file chunks) := by
  by_cases none : chunks = []
  · rw [none]
    rfl
  · rw [render_eq_rows none, render_eq_rows (by simpa using none), newlines_rows, newlines_rows, height_map_crlf]

/-! ## Layout -/

/-- A batch of nodes of a template, and the one that it is where lines have longer ends: it begins on the
same line and asks for the same, with the longer line ends. -/
inductive Batch.Widened (template : List Char) : Batch → Batch → Prop
  | output {offset offset' : Nat} {outputs : List Output}
      (line : (Text.LineIndex.ofText (crlf template)).lineOf offset' = (Text.LineIndex.ofText template).lineOf offset) :
      Widened template (.output offset outputs) (.output offset' (outputs.map Output.crlf))
  | code {offset offset' : Nat} {text : List Char}
      (line : (Text.LineIndex.ofText (crlf template)).lineOf offset' = (Text.LineIndex.ofText template).lineOf offset) :
      Widened template (.code offset text) (.code offset' (crlf text))

section Layout

variable {template : List Char}

theorem Batch.Widened.line {own other : Batch} (h : Widened template own other) :
    (Text.LineIndex.ofText (crlf template)).lineOf other.offset
      = (Text.LineIndex.ofText template).lineOf own.offset := by
  cases h with
  | output line => exact line
  | code line => exact line

theorem Batch.Widened.chunk {own other : Batch} (h : Widened template own other) (options : Options) (line : Nat) :
    Chunk.ofBatch options line other = (Chunk.ofBatch options line own).crlf := by
  cases h with
  | output _ => rfl
  | code _ => rfl

/-- Nodes fall into the same batches. -/
theorem Batch.widened_ofNodes {nodes nodes' : List Node} (h : List.Forall₂ (Node.Widened template) nodes nodes') :
    List.Forall₂ (Widened template) (ofNodes nodes) (ofNodes nodes') := by
  induction h with
  | nil => exact .nil
  | @cons own other nodes nodes' first _ ih =>
    obtain ⟨content, offset⟩ := own
    obtain ⟨content', offset'⟩ := other
    obtain ⟨rfl, line⟩ := first
    cases content with
    | code text => exact .cons (.code line) ih
    | output printed =>
      rw [Template.Content.crlf, ofNodes, ofNodes]
      generalize ofNodes nodes = own at ih ⊢
      generalize ofNodes nodes' = other at ih ⊢
      cases ih with
      | nil => exact .cons (@Widened.output _ _ _ [printed] line) .nil
      | @cons batch batch' batches batches' run rest =>
        cases run with
        | @output start start' others _ => exact .cons (@Widened.output _ _ _ (printed :: others) line) rest
        | code own => exact .cons (@Widened.output _ _ _ [printed] line) (.cons (.code own) rest)

/-- Batches are placed on the same lines. -/
theorem placeBatches_crlf (options : Options) {batches batches' : List Batch}
    (h : List.Forall₂ (Batch.Widened template) batches batches') (next : Nat) (anchor : Option Anchor) :
    placeBatches options (Text.LineIndex.ofText (crlf template)) next anchor batches'
      = (placeBatches options (Text.LineIndex.ofText template) next anchor batches).map Chunk.crlf := by
  induction h generalizing next anchor with
  | nil => rfl
  | @cons batch batch' batches batches' first _ ih =>
    -- The chunk is as high as before, and so the next one meets the same anchor on the same line.
    have same : ∀ line, (sync next anchor line).map Chunk.crlf = sync next anchor line := by
      intro line
      unfold sync
      split
      · rfl
      · rfl
    rw [placeBatches_cons, placeBatches_cons, first.line, first.chunk, Chunk.lineCount_crlf, ih, List.map_append,
      List.map_cons, same]

/-- The program has the same chunks, with the longer line ends. -/
theorem chunks_crlf (h : '\r' ∉ template) (options : Options) :
    chunks (crlf template) options (Node.ofText (crlf template))
      = (chunks template options (Node.ofText template)).map Chunk.crlf := by
  have declared : (preamble options.bindings).map Chunk.crlf = preamble options.bindings := by
    unfold preamble
    split
    · rfl
    · simp [Chunk.crlf]
  rw [chunks, chunks, List.map_append, declared,
    placeBatches_crlf options (Batch.widened_ofNodes (Node.widened_ofText h))]

end Layout

/-! ## Directives in the text -/

/-- A directive that names the template line of an anchor stands on the program line of the anchor. -/
def Anchor.StandsIn (program file : List Char) (anchor : Anchor) : Prop :=
  ∃ above below, program = above ++ Swift.Directive.render file anchor.templateLine ++ '\n' :: below ∧
    Segment.BeginsLine above ∧ anchor.programLine = 1 + Text.newlines above

section Directives

variable {file : List Char} {chunks : List Chunk} {anchor : Anchor}

/-- The directives that are counted are those in the text of the program. -/
theorem standsIn_of_mem_anchorsFrom (h : anchor ∈ anchorsFrom file 1 chunks) :
    anchor.StandsIn (render file chunks) file := by
  obtain ⟨above, below, rfl, line⟩ := exists_of_mem_anchorsFrom h
  refine ⟨rows file above, rows file below, render_append_cons file above _ below, ?_, ?_⟩
  · rcases List.eq_nil_or_concat above with rfl | ⟨front, chunk, rfl⟩
    · exact .inl rfl
    · right
      simp [rows]
  · rw [newlines_rows, line]

end Directives

/-! ## Programs -/

/-- A template whose lines end with `\r\n` means what the template means. Its segments are of the same
kinds, with the longer line ends in their texts and in what their nodes ask for, but for lines of code,
whose nodes are the same. Its program has as many lines, and the same directives on the same lines. -/
theorem ofTemplate_crlf {template : List Char} (h : '\r' ∉ template) (options : Options) :
    List.Forall₂ Segment.Corresponds (Segment.ofText template) (Segment.ofText (crlf template)) ∧
    Text.newlines (ofTemplate (crlf template) options) = Text.newlines (ofTemplate template options) ∧
    ∃ anchors, anchorsFrom options.file 1 (chunks template options (Node.ofText template)) = anchors ∧
      anchorsFrom options.file 1 (chunks (crlf template) options (Node.ofText (crlf template))) = anchors ∧
      ∀ anchor ∈ anchors, anchor.StandsIn (ofTemplate template options) options.file ∧
        anchor.StandsIn (ofTemplate (crlf template) options) options.file := by
  have longer := chunks_crlf h options
  have anchors : anchorsFrom options.file 1 (chunks (crlf template) options (Node.ofText (crlf template)))
      = anchorsFrom options.file 1 (chunks template options (Node.ofText template)) := by
    rw [longer, anchorsFrom_map_crlf]
  refine ⟨Segment.corresponds_ofText h, ?_, _, rfl, anchors, ?_⟩
  · rw [ofTemplate, ofTemplate, ofNodes, ofNodes, longer, newlines_render_map_crlf]
  · intro anchor hanchor
    constructor
    · exact standsIn_of_mem_anchorsFrom hanchor
    · rw [← anchors] at hanchor
      exact standsIn_of_mem_anchorsFrom hanchor

/-- Code over two lines, and a text over two lines that puts the line of code behind it out of step. -/
theorem ofTemplate_crlf_block :
    '\r' ∉ "%\x7bf(\n)\x7d%\na\nb\n% g()\n".toList ∧
      List.Forall₂ Segment.Corresponds (Segment.ofText "%\x7bf(\n)\x7d%\na\nb\n% g()\n".toList)
        (Segment.ofText "%\x7bf(\r\n)\x7d%\r\na\r\nb\r\n% g()\r\n".toList) ∧
      Text.newlines (ofTemplate "%\x7bf(\r\n)\x7d%\r\na\r\nb\r\n% g()\r\n".toList ⟨['t'], [], none⟩) = 9 ∧
      (Anchor.mk 8 5).StandsIn
        (ofTemplate "%\x7bf(\r\n)\x7d%\r\na\r\nb\r\n% g()\r\n".toList ⟨['t'], [], none⟩) ['t'] := by
  have plain : '\r' ∉ "%\x7bf(\n)\x7d%\na\nb\n% g()\n".toList := by decide
  have longer : crlf "%\x7bf(\n)\x7d%\na\nb\n% g()\n".toList
      = "%\x7bf(\r\n)\x7d%\r\na\r\nb\r\n% g()\r\n".toList := by decide
  obtain ⟨segments, lines, anchors, own, -, stand⟩ := ofTemplate_crlf plain ⟨['t'], [], none⟩
  rw [longer] at segments lines stand
  refine ⟨plain, segments, lines.trans (by decide +kernel), (stand ⟨8, 5⟩ ?_).2⟩
  rw [← own]
  decide +kernel

end SwiftTemplate.Program
