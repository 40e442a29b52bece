import SwiftTemplate.Program.Layout
import SwiftTemplate.Proofs.Program.Statements
import SwiftTemplate.Proofs.Template.Slices

/-!
# Line mapping

Below a directive every program line maps to a line of the template. Code maps to the lines on which
it was written, and so do expressions, except in a run of output whose head moves to its tail, where
every expression maps to the line behind its own.
-/
namespace SwiftTemplate.Program

open Template (Output Node)

/-! ## Batches -/

namespace Batch

theorem ofNodes_ne_nil {node : Node} {nodes : List Node} : ofNodes (node :: nodes) ≠ [] := by
  obtain ⟨content, offset⟩ := node
  cases content with
  | code text => simp [ofNodes]
  | output first =>
    rw [ofNodes]
    split <;> simp

/-- Nodes fall into batches on each side of a place where output and code meet. -/
theorem ofNodes_append {front behind : List Node}
    (h : (∀ node ∈ front.getLast?, node.isOutput = false) ∨ (∀ node ∈ behind.head?, node.isOutput = false)) :
    ofNodes (front ++ behind) = ofNodes front ++ ofNodes behind := by
  induction front with
  | nil => rfl
  | cons node front ih =>
    obtain ⟨content, offset⟩ := node
    cases front with
    | nil =>
      cases content with
      | code text => rfl
      | output first =>
        -- The node prints, so that the nodes behind it begin with code.
        have stop : ∀ node ∈ behind.head?, node.isOutput = false := by
          rcases h with h | h
          · exact absurd (h ⟨.output first, offset⟩ rfl) (by simp [Node.isOutput])
          · exact h
        cases behind with
        | nil => rfl
        | cons next behind =>
          obtain ⟨content, start⟩ := next
          cases content with
          | code text => rfl
          | output other => exact absurd (stop ⟨.output other, start⟩ rfl) (by simp [Node.isOutput])
    | cons other others =>
      have whole : ofNodes (other :: (others ++ behind)) = ofNodes (other :: others) ++ ofNodes behind :=
        ih (by simpa using h)
      rw [List.cons_append, List.cons_append]
      cases content with
      | code text => rw [ofNodes, ofNodes, whole, List.cons_append]
      | output first =>
        rw [ofNodes, ofNodes, whole]
        cases hfront : ofNodes (other :: others) with
        | nil => exact absurd hfront ofNodes_ne_nil
        | cons batch batches => cases batch <;> rfl

theorem ofNodes_map_printed (output : Output) (offset : Nat) (nodes : List (Output × Nat)) :
    ofNodes (((output, offset) :: nodes).map Node.printed) = [.output offset (output :: nodes.map Prod.fst)] := by
  induction nodes generalizing output offset with
  | nil => rfl
  | cons node nodes ih =>
    rw [List.map_cons, Node.printed, ofNodes, ih node.1 node.2]
    rfl

end Batch

/-! ## Heights and anchors -/

/-- The number of program lines that some chunks take. -/
def height (file : List Char) (chunks : List Chunk) : Nat := (chunks.map (·.lineCount file)).sum

theorem height_append (file : List Char) (above below : List Chunk) :
    height file (above ++ below) = height file above + height file below := by
  rw [height, List.map_append, List.sum_append]
  rfl

/-- The directives among some chunks, the first of which begins on the program line `next`. -/
def anchorsFrom (file : List Char) (next : Nat) : List Chunk → List Anchor
  | [] => []
  | .directive line :: chunks =>
    ⟨next, line⟩ :: anchorsFrom file (next + (Chunk.directive line).lineCount file) chunks
  | chunk :: chunks => anchorsFrom file (next + chunk.lineCount file) chunks

/-- The template line that a program line maps to: the distance from the last directive above it,
added to what this directive names. -/
def templateLine? (file : List Char) (chunks : List Chunk) (line : Nat) : Option Nat :=
  ((anchorsFrom file 1 chunks).filter (·.programLine < line)).getLast?.map (·.lineAt line)

section Anchors

variable {file : List Char} {next : Nat} {anchor : Anchor} {chunk : Chunk} {chunks above below : List Chunk}

theorem anchorsFrom_append :
    anchorsFrom file next (above ++ below) = anchorsFrom file next above
      ++ anchorsFrom file (next + height file above) below := by
  induction above generalizing next with
  | nil => rfl
  | cons chunk above ih =>
    have lines : next + height file (chunk :: above) = next + chunk.lineCount file + height file above := by
      rw [height, List.map_cons, List.sum_cons, Nat.add_assoc]
      rfl
    rw [lines, List.cons_append]
    cases chunk <;> simp only [anchorsFrom, ih, List.cons_append]

/-- An anchor is a directive below the chunks that come before it. -/
theorem exists_of_mem_anchorsFrom (h : anchor ∈ anchorsFrom file next chunks) :
    ∃ above below, chunks = above ++ .directive anchor.templateLine :: below ∧
      anchor.programLine = next + height file above := by
  induction chunks generalizing next with
  | nil => cases h
  | cons chunk chunks ih =>
    have later : anchor ∈ anchorsFrom file (next + chunk.lineCount file) chunks →
        ∃ above below, chunk :: chunks = above ++ .directive anchor.templateLine :: below ∧
          anchor.programLine = next + height file above := by
      intro hmem
      obtain ⟨above, below, rfl, line⟩ := ih hmem
      refine ⟨chunk :: above, below, rfl, ?_⟩
      rw [line, height, height, List.map_cons, List.sum_cons, Nat.add_assoc]
    cases chunk with
    | directive line =>
      rcases List.mem_cons.1 h with rfl | hmem
      · exact ⟨[], chunks, rfl, rfl⟩
      · exact later hmem
    | declaration _ => exact later h
    | blankLine => exact later h
    | print _ _ => exact later h
    | code _ => exact later h

theorem anchorsFrom_bounds (h : anchor ∈ anchorsFrom file next chunks) :
    next ≤ anchor.programLine ∧ anchor.programLine < next + height file chunks := by
  obtain ⟨above, below, rfl, line⟩ := exists_of_mem_anchorsFrom h
  have positive : 0 < (Chunk.directive anchor.templateLine).lineCount file := Nat.succ_pos _
  have lines : height file (.directive anchor.templateLine :: below)
      = (Chunk.directive anchor.templateLine).lineCount file + height file below := by
    rw [height, List.map_cons, List.sum_cons]
    rfl
  rw [line, height_append, lines]
  omega

/-- The lines of a chunk that is no directive map through the last directive above it. -/
theorem templateLine?_of_chunk (hchunk : ∀ line, chunk ≠ .directive line)
    (hanchor : (anchorsFrom file 1 above).getLast? = some anchor) {distance : Nat}
    (h : distance < chunk.lineCount file) :
    templateLine? file (above ++ chunk :: below) (1 + height file above + distance)
      = some (anchor.lineAt (1 + height file above) + distance) := by
  have start := (anchorsFrom_bounds (List.mem_of_getLast? hanchor)).2
  have upper : ∀ other ∈ anchorsFrom file 1 above,
      decide (other.programLine < 1 + height file above + distance) = true := by
    intro other hother
    have := (anchorsFrom_bounds hother).2
    simp only [decide_eq_true_eq]
    omega
  have lower : ∀ other ∈ anchorsFrom file (1 + height file above + chunk.lineCount file) below,
      ¬ decide (other.programLine < 1 + height file above + distance) = true := by
    intro other hother
    have := (anchorsFrom_bounds hother).1
    simp only [decide_eq_true_eq]
    omega
  have own : anchorsFrom file (1 + height file above) (chunk :: below)
      = anchorsFrom file (1 + height file above + chunk.lineCount file) below := by
    cases chunk with
    | directive line => exact absurd rfl (hchunk line)
    | declaration _ => rfl
    | blankLine => rfl
    | print _ _ => rfl
    | code _ => rfl
  rw [templateLine?, anchorsFrom_append, own, List.filter_append, List.filter_eq_self.2 upper,
    List.filter_eq_nil_iff.2 lower, List.append_nil, hanchor, Option.map_some]
  refine congrArg some ?_
  unfold Anchor.lineAt
  omega

end Anchors

/-! ## The text of the chunks -/

/-- Some chunks, each on lines of its own. -/
def rows (file : List Char) (chunks : List Chunk) : List Char := chunks.flatMap fun chunk => chunk.render file ++ ['\n']

theorem newlines_rows (file : List Char) (chunks : List Chunk) :
    Text.newlines (rows file chunks) = height file chunks := by
  induction chunks with
  | nil => rfl
  | cons chunk chunks ih =>
    rw [rows, List.flatMap_cons, Text.newlines_append, Text.newlines_append, height, List.map_cons, List.sum_cons]
    exact congrArg (_ + ·) ih

theorem render_eq_rows {file : List Char} {chunks : List Chunk} (h : chunks ≠ []) :
    render file chunks = rows file chunks := by
  induction chunks with
  | nil => exact absurd rfl h
  | cons chunk chunks ih =>
    cases chunks with
    | nil => simp [render, rows]
    | cons next chunks =>
      have rest := ih (List.cons_ne_nil _ _)
      rw [rows, List.flatMap_cons, ← rows, ← rest]
      simp [render, List.intercalate]

/-- A chunk stands between the rows above it and those below it. -/
theorem render_append_cons (file : List Char) (above : List Chunk) (chunk : Chunk) (below : List Chunk) :
    render file (above ++ chunk :: below) = rows file above ++ chunk.render file ++ '\n' :: rows file below := by
  rw [render_eq_rows (by simp), rows, List.flatMap_append, List.flatMap_cons]
  simp [rows]

/-! ## Places of batches -/

section Places

variable {options : Options} {lines : Text.LineIndex}

/-- What is written above a chunk that belongs to a line of the template: a directive, unless the
anchor maps the chunk there already. -/
def sync (next : Nat) (anchor : Option Anchor) (line : Nat) : List Chunk :=
  if anchor.any (·.lineAt next = line) then [] else [.directive line]

theorem placeBatches_cons (next : Nat) (anchor : Option Anchor) (batch : Batch) (batches : List Batch) :
    placeBatches options lines next anchor (batch :: batches)
      = sync next anchor (lines.lineOf batch.offset)
        ++ Chunk.ofBatch options (lines.lineOf batch.offset) batch
        :: placeBatches options lines
          (next + height options.file (sync next anchor (lines.lineOf batch.offset))
            + (Chunk.ofBatch options (lines.lineOf batch.offset) batch).lineCount options.file)
          ((anchorsFrom options.file next (sync next anchor (lines.lineOf batch.offset))).getLast?.or anchor)
          batches := by
  unfold sync
  rw [placeBatches]
  split
  · rfl
  · rfl

theorem anchorsFrom_ofBatch (file : List Char) (next line : Nat) (batch : Batch) (chunks : List Chunk) :
    anchorsFrom file next (Chunk.ofBatch options line batch :: chunks)
      = anchorsFrom file (next + (Chunk.ofBatch options line batch).lineCount file) chunks := by
  cases batch <;> rfl

/-- Batches are placed below others as those have left the line and the anchor. -/
theorem placeBatches_append (next : Nat) (anchor : Option Anchor) (front behind : List Batch) :
    placeBatches options lines next anchor (front ++ behind)
      = placeBatches options lines next anchor front
        ++ placeBatches options lines
          (next + height options.file (placeBatches options lines next anchor front))
          ((anchorsFrom options.file next (placeBatches options lines next anchor front)).getLast?.or anchor)
          behind := by
  induction front generalizing next anchor with
  | nil => rfl
  | cons batch front ih =>
    rw [List.cons_append, placeBatches_cons, placeBatches_cons, ih, anchorsFrom_append, anchorsFrom_ofBatch,
      List.getLast?_append, Option.or_assoc, height_append]
    simp only [height, List.map_cons, List.sum_cons, List.append_assoc, List.cons_append, Nat.add_assoc]

/-- A directive takes one program line. -/
theorem lineCount_directive (file : List Char) (line : Nat) : (Chunk.directive line).lineCount file = 1 := by
  have name : Text.newlines (Swift.Literal.quote file) = 0 := by
    have own : ∀ c, '\n' ∉ Swift.Literal.escape c := by
      intro c
      unfold Swift.Literal.escape
      repeat' split
      all_goals simp_all [eq_comm]
    simp [Text.newlines, Swift.Literal.quote, List.count_eq_zero, own]
  simp only [Chunk.lineCount, Chunk.render, Swift.Directive.render, Text.newlines_append, name, Text.newlines_write]
  rfl

/-- Right above the chunk of a batch the last directive maps it to the line of the batch. -/
theorem exists_anchor (options : Options) (next line : Nat) (anchor : Option Anchor) :
    ∃ last, (anchorsFrom options.file next (sync next anchor line)).getLast?.or anchor = some last ∧
      last.lineAt (next + height options.file (sync next anchor line)) = line := by
  unfold sync
  split
  · next inStep =>
    obtain ⟨last, rfl, hline⟩ := (Option.any_eq_true _ _).1 inStep
    exact ⟨last, rfl, by simpa [height] using hline⟩
  · refine ⟨⟨next, line⟩, rfl, ?_⟩
    simp [height, lineCount_directive, Anchor.lineAt]

end Places

/-! ## Places of nodes -/

section Nodes

variable {template : List Char} {options : Options} {front behind : List Node}

theorem anchorsFrom_preamble (bindings : List Binding) (file : List Char) (next : Nat) :
    anchorsFrom file next (preamble bindings) = [] := by
  have declared : ∀ (bindings : List Binding) next,
      anchorsFrom file next (bindings.map .declaration ++ [.blankLine]) = [] := by
    intro bindings
    induction bindings with
    | nil =>
      intro next
      rfl
    | cons binding bindings ih =>
      intro next
      exact ih _
  unfold preamble
  split
  · rfl
  · exact declared bindings next

/-- Chunks that stand above and below the chunk of one batch do not depend on what is in it. -/
theorem exists_chunks_eq (template : List Char) (options : Options) (offset : Nat) (before after : List Batch)
    (chunk : Chunk) :
    ∃ above below anchor, (anchorsFrom options.file 1 above).getLast? = some anchor ∧
      anchor.lineAt (1 + height options.file above) = (Text.LineIndex.ofText template).lineOf offset ∧
      ∀ nodes batch, Batch.ofNodes nodes = before ++ batch :: after → batch.offset = offset →
        (Chunk.ofBatch options ((Text.LineIndex.ofText template).lineOf offset) batch).lineCount options.file
          = chunk.lineCount options.file →
        chunks template options nodes
          = above ++ Chunk.ofBatch options ((Text.LineIndex.ofText template).lineOf offset) batch :: below := by
  have declared : (preamble options.bindings).foldr (fun chunk n => chunk.lineCount options.file + n) 0
      = height options.file (preamble options.bindings) := by
    rw [height, List.sum_eq_foldr, List.foldr_map]
  generalize hlines : Text.LineIndex.ofText template = lines
  generalize hpre : preamble options.bindings = pre at declared
  generalize hearlier : placeBatches options lines (1 + height options.file pre) none before = earlier
  generalize hnext : 1 + height options.file pre + height options.file earlier = next
  generalize hlast : (anchorsFrom options.file (1 + height options.file pre) earlier).getLast? = last
  obtain ⟨anchor, hanchor, hline⟩ := exists_anchor options next (lines.lineOf offset) last
  have noAnchors : anchorsFrom options.file 1 pre = [] := by
    rw [← hpre]
    exact anchorsFrom_preamble _ _ _
  have reach : 1 + height options.file (pre ++ earlier) = next := by
    rw [height_append, ← Nat.add_assoc, hnext]
  refine ⟨pre ++ earlier ++ sync next last (lines.lineOf offset), ?_, anchor, ?_, ?_, ?_⟩
  · exact placeBatches options lines (next + height options.file (sync next last (lines.lineOf offset))
      + chunk.lineCount options.file) (some anchor) after
  · rw [anchorsFrom_append, anchorsFrom_append, noAnchors, List.nil_append, List.getLast?_append, hlast, reach]
    exact hanchor
  · rw [height_append, ← Nat.add_assoc, reach]
    exact hline
  · intro nodes batch hnodes hoffset hcount
    rw [chunks, hpre, hnodes, hlines, declared]
    simp only [placeBatches_append, hearlier, hnext, hlast, Option.or_none, placeBatches_cons, hoffset, hanchor, hcount,
      List.append_assoc]

/-- Some nodes that print have code, or nothing, in front of them and behind them. -/
def IsRun (front behind : List Node) : Prop :=
  (∀ node ∈ front.getLast?, node.isOutput = false) ∧ ∀ node ∈ behind.head?, node.isOutput = false

/-- The nodes in front of code, the code and those behind it are apart in the program. -/
theorem ofNodes_around_code (front behind : List Node) (text : List Char) (offset : Nat) :
    Batch.ofNodes (front ++ ⟨.code text, offset⟩ :: behind)
      = Batch.ofNodes front ++ .code offset text :: Batch.ofNodes behind :=
  Batch.ofNodes_append (.inr (by simp [Node.isOutput]))

/-- So are those around a run, and the run is one batch. -/
theorem ofNodes_around_run {front behind : List Node} (h : IsRun front behind) (output : Output) (offset : Nat)
    (others : List (Output × Nat)) :
    Batch.ofNodes (front ++ ((output, offset) :: others).map Node.printed ++ behind)
      = Batch.ofNodes front ++ .output offset (output :: others.map Prod.fst) :: Batch.ofNodes behind := by
  rw [Batch.ofNodes_append (.inr h.2), Batch.ofNodes_append (.inl h.1), Batch.ofNodes_map_printed, List.append_assoc]
  rfl

/-- The batch of a run begins where its first node does, whatever expression is printed in it. -/
theorem ofNodes_around_expression {front behind : List Node} (h : IsRun front behind)
    (earlier later : List (Output × Nat)) (code : List Char) (offset : Nat) :
    Batch.ofNodes (front ++ (earlier ++ (.expression code, offset) :: later).map Node.printed ++ behind)
      = Batch.ofNodes front ++ .output ((earlier.map Prod.snd).headD offset)
          (earlier.map Prod.fst ++ .expression code :: later.map Prod.fst) :: Batch.ofNodes behind := by
  cases earlier with
  | nil => exact ofNodes_around_run h _ _ _
  | cons first earlier =>
    rw [List.cons_append, ofNodes_around_run h first.1 first.2]
    simp

/-- The lines of code map to those it was written on. -/
theorem exists_code_lines (template : List Char) (options : Options) (front behind : List Node) (text : List Char)
    (offset : Nat) :
    ∃ before after,
      Surrounds (fun other => ofNodes template options (front ++ ⟨.code other, offset⟩ :: behind)) id text before after ∧
      ∀ j ≤ Text.newlines text,
        templateLine? options.file (chunks template options (front ++ ⟨.code text, offset⟩ :: behind))
          (1 + Text.newlines before + j) = some ((Text.LineIndex.ofText template).lineOf offset + j) := by
  obtain ⟨above, below, anchor, hanchor, hline, hchunks⟩ := exists_chunks_eq template options offset
    (Batch.ofNodes front) (Batch.ofNodes behind) (.code text)
  have placed : ∀ other, Text.newlines other = Text.newlines text →
      chunks template options (front ++ ⟨.code other, offset⟩ :: behind) = above ++ .code other :: below := by
    intro other hother
    exact hchunks _ (.code offset other) (ofNodes_around_code front behind other offset) rfl
      (congrArg (· + 1) hother)
  refine ⟨rows options.file above, '\n' :: rows options.file below, ?_, ?_⟩
  · intro other hother
    dsimp only
    rw [ofNodes, placed other hother]
    exact render_append_cons options.file above (.code other) below
  · intro j hj
    rw [placed text rfl, newlines_rows, templateLine?_of_chunk (by simp) hanchor (Nat.lt_succ_of_le hj), hline]

/-- In a run the line of an expression maps to the one that the line breaks printed before it lead
to, or to the next if the head of the run moves. -/
theorem exists_expression_line (template : List Char) (options : Options) {front behind : List Node}
    (h : IsRun front behind) (earlier later : List (Output × Nat)) (code : List Char) (offset : Nat) :
    ∃ before after,
      Surrounds (fun other => ofNodes template options
        (front ++ (earlier ++ (.expression other, offset) :: later).map Node.printed ++ behind)) Print.interpolation code
        before after ∧
      templateLine? options.file
        (chunks template options (front ++ (earlier ++ (.expression code, offset) :: later).map Node.printed ++ behind))
        (1 + Text.newlines before)
        = some ((Text.LineIndex.ofText template).lineOf ((earlier.map Prod.snd).headD offset)
          + ((earlier.map fun node => Text.newlines node.1.text).sum
            + if Displaced ((earlier ++ (.expression code, offset) :: later).map Prod.fst) then 1 else 0)) := by
  generalize hstart : (earlier.map Prod.snd).headD offset = start
  generalize hline : (Text.LineIndex.ofText template).lineOf start = line
  obtain ⟨opening, closing, hopening, hstatement⟩ := Print.exists_surrounds (earlier.map Prod.fst) (later.map Prod.fst)
    code (Print.newlines_inlineText (options.lineMarker line))
  generalize hchunk : (fun other => Chunk.print (options.lineMarker line)
    (earlier.map Prod.fst ++ .expression other :: later.map Prod.fst)) = chunk
  obtain ⟨above, below, anchor, hanchor, hat, hchunks⟩ := exists_chunks_eq template options start
    (Batch.ofNodes front) (Batch.ofNodes behind) (chunk code)
  rw [hline] at hat hchunks
  have rendered : ∀ other, Text.newlines other = Text.newlines code →
      (chunk other).render options.file = opening ++ Print.interpolation other ++ closing := by
    intro other hother
    rw [← hchunk]
    exact hstatement other hother
  have tall : ∀ other, Text.newlines other = Text.newlines code →
      (chunk other).lineCount options.file = (chunk code).lineCount options.file := by
    intro other hother
    simp only [Chunk.lineCount, rendered other hother, rendered code rfl, Text.newlines_append,
      Print.newlines_interpolation, hother]
  have placed : ∀ other, Text.newlines other = Text.newlines code →
      chunks template options (front ++ (earlier ++ (.expression other, offset) :: later).map Node.printed ++ behind)
        = above ++ chunk other :: below := by
    intro other hother
    have batch := ofNodes_around_expression h earlier later other offset
    rw [hstart] at batch
    rw [hchunks _ _ batch rfl]
    · rw [← hchunk]
      rfl
    · rw [← tall other hother, ← hchunk]
      rfl
  refine ⟨rows options.file above ++ opening, closing ++ '\n' :: rows options.file below, ?_, ?_⟩
  · intro other hother
    dsimp only
    rw [ofNodes, placed other hother, render_append_cons, rendered other hother]
    simp
  · have inside : Text.newlines opening < (chunk code).lineCount options.file := by
      simp only [Chunk.lineCount, rendered code rfl, Text.newlines_append]
      omega
    have notDirective : ∀ line, chunk code ≠ .directive line := by
      rw [← hchunk]
      simp
    rw [placed code rfl, Text.newlines_append, newlines_rows, ← Nat.add_assoc,
      templateLine?_of_chunk notDirective hanchor inside, hat, hopening]
    simp [Function.comp_def]

/-- The lines of all code map to those on which it was written. So do the lines of expressions,
except in a run that prints an expression on several lines before any line break of a text: there
every expression maps to the line behind its own. -/
theorem templateLine?_ofTemplate (template : List Char) (options : Options) :
    (∀ front text offset behind, Node.ofText template = front ++ ⟨.code text, offset⟩ :: behind →
      ∃ before after,
        Surrounds (fun other => ofNodes template options (front ++ ⟨.code other, offset⟩ :: behind)) id text
          before after ∧
        ∀ j ≤ Text.newlines text,
          templateLine? options.file (chunks template options (Node.ofText template)) (1 + Text.newlines before + j)
            = some ((Text.LineIndex.ofText template).lineOf offset + j)) ∧
    ∀ front earlier code offset later behind,
      Node.ofText template = front ++ (earlier ++ (.expression code, offset) :: later).map Node.printed ++ behind →
      IsRun front behind →
      ∃ before after,
        Surrounds (fun other => ofNodes template options
          (front ++ (earlier ++ (.expression other, offset) :: later).map Node.printed ++ behind)) Print.interpolation
          code before after ∧
        templateLine? options.file (chunks template options (Node.ofText template)) (1 + Text.newlines before)
          = some ((Text.LineIndex.ofText template).lineOf offset
            + if Displaced ((earlier ++ (.expression code, offset) :: later).map Prod.fst) then 1 else 0) := by
  constructor
  · intro front text offset behind hnodes
    rw [hnodes]
    exact exists_code_lines template options front behind text offset
  · intro front earlier code offset later behind hnodes hrun
    obtain ⟨before, after, hsurrounds, hline⟩ := exists_expression_line template options hrun earlier later code offset
    refine ⟨before, after, hsurrounds, ?_⟩
    rw [hnodes, hline, ← Nat.add_assoc]
    cases earlier with
    | nil => rfl
    | cons first earlier =>
      have apart : Node.ofText template = front ++ (first :: earlier).map Node.printed
          ++ Node.printed (.expression code, offset) :: (later.map Node.printed ++ behind) := by
        rw [hnodes]
        simp
      rw [Node.lineOf_offset_add apart]
      rfl

/-- The second expression stands on the template line 3, but its run moves down below the line of `print`. -/
theorem templateLine?_ofTemplate_displaced :
    Node.ofText "% f()\n$\x7bg(\n)\x7d$\x7bh\x7d".toList
        = ⟨.code "f()".toList, 0⟩ :: [⟨.output (.expression "g(\n)".toList), 8⟩, ⟨.output (.expression ['h']), 15⟩] ∧
      IsRun [⟨.code "f()".toList, 0⟩] [] ∧
      ∃ before after,
        Surrounds (fun other => ofNodes "% f()\n$\x7bg(\n)\x7d$\x7bh\x7d".toList ⟨['t'], [], none⟩
          ([⟨.code "f()".toList, 0⟩]
            ++ ([(Output.expression "g(\n)".toList, 8)] ++ (Output.expression other, 15) :: []).map Node.printed ++ []))
          Print.interpolation ['h'] before after ∧
        templateLine? ['t'] (chunks "% f()\n$\x7bg(\n)\x7d$\x7bh\x7d".toList ⟨['t'], [], none⟩
          (Node.ofText "% f()\n$\x7bg(\n)\x7d$\x7bh\x7d".toList)) (1 + Text.newlines before) = some 4 := by
  have nodes : Node.ofText "% f()\n$\x7bg(\n)\x7d$\x7bh\x7d".toList
      = [⟨.code "f()".toList, 0⟩]
        ++ ([(Output.expression "g(\n)".toList, 8)] ++ (Output.expression ['h'], 15) :: []).map Node.printed ++ [] := by
    decide +kernel
  have run : IsRun [⟨.code "f()".toList, 0⟩] [] := by
    constructor
    · simp [Node.isOutput]
    · simp
  refine ⟨nodes, run, ?_⟩
  obtain ⟨before, after, hsurrounds, hline⟩ := (templateLine?_ofTemplate _ ⟨['t'], [], none⟩).2 _ _ _ _ _ _ nodes run
  refine ⟨before, after, hsurrounds, hline.trans ?_⟩
  decide +kernel

end Nodes

end SwiftTemplate.Program
