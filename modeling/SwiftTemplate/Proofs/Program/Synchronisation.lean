import SwiftTemplate.Proofs.Program.LineMapping

/-!
# Programs in step with their templates

A layout counts the lines that it writes, and keeps the last directive. The count is right at every
chunk, so that what is said of the last directive and of the next line is true of the program: every
batch is written where it maps to its line of the template, and a directive stands above it only where
it would not map there otherwise.
-/
namespace SwiftTemplate.Program

open Template (Node Output)

/-! ## Layouts that count -/

/-- A chunk, and the program line on which it was counted to begin. -/
structure Placed where
  line : Nat
  chunk : Chunk
  deriving DecidableEq, Repr

def Placed.anchor? : Placed → Option Anchor
  | ⟨line, .directive named⟩ => some ⟨line, named⟩
  | _ => none

def lastAnchor? (placed : List Placed) : Option Anchor := (placed.filterMap Placed.anchor?).getLast?

/-- How far a program has been written. -/
structure Progress where
  placed : List Placed
  /-- The program line on which the next chunk begins. -/
  next : Nat
  anchor : Option Anchor
  deriving DecidableEq, Repr

namespace Progress

def start : Progress := ⟨[], 1, none⟩

/-- One more chunk, on lines of its own. -/
def push (file : List Char) (progress : Progress) (chunk : Chunk) : Progress :=
  { progress with
    placed := progress.placed ++ [⟨progress.next, chunk⟩]
    next := progress.next + chunk.lineCount file }

/-- A directive for a line of the template, unless the next chunk maps there already. -/
def announce (file : List Char) (line : Nat) (progress : Progress) : Progress :=
  if progress.anchor.any (·.lineAt progress.next = line) then progress
  else { progress.push file (.directive line) with anchor := some ⟨progress.next, line⟩ }

/-- The chunk of a batch, behind a directive if there has to be one. -/
def place (options : Options) (lines : Text.LineIndex) (progress : Progress) (batch : Batch) : Progress :=
  (progress.announce options.file (lines.lineOf batch.offset)).push options.file
    (.ofBatch options (lines.lineOf batch.offset) batch)

/-- The declarations of the bindings. -/
def declare (options : Options) : Progress := (preamble options.bindings).foldl (push options.file) start

def ofNodes (template : List Char) (options : Options) (nodes : List Node) : Progress :=
  (Batch.ofNodes nodes).foldl (place options (Text.LineIndex.ofText template)) (declare options)

variable {file : List Char} {options : Options} {lines : Text.LineIndex} {progress : Progress}

/-! ## The layout of the program -/

theorem placed_foldl_push (chunks : List Chunk) (progress : Progress) :
    (chunks.foldl (push file) progress).placed.map Placed.chunk = progress.placed.map Placed.chunk ++ chunks ∧
      (chunks.foldl (push file) progress).next = progress.next + height file chunks ∧
      (chunks.foldl (push file) progress).anchor = progress.anchor := by
  induction chunks generalizing progress with
  | nil => exact ⟨(List.append_nil _).symm, rfl, rfl⟩
  | cons chunk chunks ih =>
    obtain ⟨written, next, anchor⟩ := ih (progress.push file chunk)
    refine ⟨?_, ?_, anchor⟩
    · rw [List.foldl_cons, written, push, List.map_append, List.append_assoc]
      rfl
    · rw [List.foldl_cons, next, push, height, height, List.map_cons, List.sum_cons, Nat.add_assoc]

/-- The chunks of some batches are placed as the layout of the program has them. -/
theorem placed_foldl_place (batches : List Batch) (progress : Progress) :
    (batches.foldl (place options lines) progress).placed.map Placed.chunk
      = progress.placed.map Placed.chunk ++ placeBatches options lines progress.next progress.anchor batches := by
  induction batches generalizing progress with
  | nil => simp [placeBatches]
  | cons batch batches ih =>
    rw [List.foldl_cons, ih, placeBatches]
    unfold place announce
    dsimp only
    split
    · simp [push]
    · simp [push, Nat.add_assoc]

theorem placed_ofNodes (template : List Char) (options : Options) (nodes : List Node) :
    (ofNodes template options nodes).placed.map Placed.chunk = chunks template options nodes := by
  obtain ⟨written, next, anchor⟩ := @placed_foldl_push options.file (preamble options.bindings) start
  have lines : height options.file (preamble options.bindings)
      = (preamble options.bindings).foldr (fun chunk n => chunk.lineCount options.file + n) 0 := by
    rw [height, List.sum_eq_foldr, List.foldr_map]
  rw [ofNodes, placed_foldl_place, declare, written, next, anchor, lines]
  rfl

/-- The batches of the first nodes are placed before those of the others. -/
theorem ofNodes_append {nodes front : List Node} {batches : List Batch}
    (h : Batch.ofNodes nodes = Batch.ofNodes front ++ batches) (template : List Char) (options : Options) :
    ofNodes template options nodes
      = batches.foldl (place options (Text.LineIndex.ofText template)) (ofNodes template options front) := by
  rw [ofNodes, h, List.foldl_append]
  rfl

/-- What has been placed stays where it is. -/
theorem exists_placed_foldl_place (batches : List Batch) (progress : Progress) :
    ∃ below, (batches.foldl (place options lines) progress).placed = progress.placed ++ below := by
  induction batches generalizing progress with
  | nil => exact ⟨[], (List.append_nil _).symm⟩
  | cons batch batches ih =>
    obtain ⟨below, placed⟩ := ih (progress.place options lines batch)
    have own : ∃ emitted, (progress.place options lines batch).placed = progress.placed ++ emitted := by
      unfold place announce
      split
      · exact ⟨_, rfl⟩
      · exact ⟨_, List.append_assoc ..⟩
    obtain ⟨emitted, own⟩ := own
    exact ⟨emitted ++ below, by rw [List.foldl_cons, placed, own, List.append_assoc]⟩

/-! ## The count is right -/

/-- The count and the anchor are those of the chunks that have been placed. -/
structure Counted (file : List Char) (progress : Progress) : Prop where
  lines : ∀ above own below, progress.placed = above ++ own :: below →
    own.line = 1 + height file (above.map Placed.chunk)
  next : progress.next = 1 + height file (progress.placed.map Placed.chunk)
  anchor : progress.anchor = lastAnchor? progress.placed
  above : ∀ anchor ∈ progress.anchor, anchor.programLine < progress.next

theorem counted_start : Counted file start := by
  refine ⟨?_, rfl, rfl, ?_⟩
  · intro above own below h
    exact absurd h.symm (List.append_ne_nil_of_right_ne_nil _ (List.cons_ne_nil _ _))
  · intro anchor h
    cases h

/-- One more chunk is counted, and if it is a directive it becomes the anchor. -/
theorem Counted.push (h : Counted file progress) (chunk : Chunk) :
    Counted file { progress.push file chunk with
      anchor := (Placed.anchor? ⟨progress.next, chunk⟩).or progress.anchor } := by
  have tall : 0 < chunk.lineCount file := Nat.succ_pos _
  refine ⟨?_, ?_, ?_, ?_⟩
  · intro above own below split
    rcases List.eq_nil_or_concat below with rfl | ⟨below, last, rfl⟩
    · -- the chunk itself
      obtain ⟨rfl, last⟩ := List.append_inj' split rfl
      obtain ⟨rfl, -⟩ := List.cons.inj last
      exact h.next
    · have earlier : progress.placed ++ [⟨progress.next, chunk⟩] = (above ++ own :: below) ++ [last] := by
        rw [List.concat_eq_append] at split
        rw [List.append_assoc, List.cons_append]
        exact split
      exact h.lines above own below (List.append_inj' earlier rfl).1
  · simp only [Progress.push, List.map_append, height_append, h.next]
    simp [height, Nat.add_assoc]
  · simp only [Progress.push, lastAnchor?, List.filterMap_append, List.getLast?_append, h.anchor]
    cases own : Placed.anchor? ⟨progress.next, chunk⟩ with
    | none => simp [own]
    | some anchor => simp [own]
  · intro anchor hanchor
    have later : progress.next < progress.next + chunk.lineCount file := Nat.lt_add_of_pos_right tall
    rcases Option.or_eq_some_iff.1 hanchor with own | ⟨-, earlier⟩
    · cases chunk with
      | directive line =>
        obtain rfl := Option.some.inj own
        exact later
      | declaration _ => cases own
      | blankLine => cases own
      | print _ _ => cases own
      | code _ => cases own
    · exact Nat.lt_trans (h.above anchor earlier) later

theorem Counted.announce (h : Counted file progress) (line : Nat) : Counted file (progress.announce file line) := by
  unfold Progress.announce
  split
  · exact h
  · exact h.push (.directive line)

theorem Counted.place (h : Counted options.file progress) (batch : Batch) :
    Counted options.file (progress.place options lines batch) := by
  have announced := h.announce (lines.lineOf batch.offset)
  cases batch with
  | output offset outputs => exact announced.push _
  | code offset text => exact announced.push _

theorem counted_declare (options : Options) : Counted options.file (declare options) := by
  have declared : ∀ chunks : List Chunk, (∀ chunk ∈ chunks, ∀ line, chunk ≠ .directive line) →
      ∀ progress, Counted options.file progress → Counted options.file (chunks.foldl (push options.file) progress) := by
    intro chunks plain
    induction chunks with
    | nil => exact fun progress h => h
    | cons chunk chunks ih =>
      obtain ⟨own, plain⟩ := List.forall_mem_cons.1 plain
      intro progress h
      refine ih plain _ ?_
      cases chunk with
      | directive line => exact absurd rfl (own line)
      | declaration _ => exact h.push _
      | blankLine => exact h.push _
      | print _ _ => exact h.push _
      | code _ => exact h.push _
  refine declared _ ?_ start counted_start
  intro chunk hchunk line
  unfold preamble at hchunk
  split at hchunk
  · cases hchunk
  · rcases List.mem_append.1 hchunk with hmem | hmem
    · obtain ⟨binding, -, rfl⟩ := List.mem_map.1 hmem
      exact fun h => nomatch h
    · rw [List.mem_singleton.1 hmem]
      exact fun h => nomatch h

theorem counted_ofNodes (template : List Char) (options : Options) (nodes : List Node) :
    Counted options.file (ofNodes template options nodes) := by
  unfold ofNodes
  generalize Batch.ofNodes nodes = batches
  have start := counted_declare options
  generalize declare options = progress at start
  induction batches generalizing progress with
  | nil => exact start
  | cons batch batches ih => exact ih _ (start.place batch)

end Progress

/-! ## Every batch is in step -/

/-- Behind what `before` has placed, a chunk for a line of the template is in step: the last directive
above the chunk maps it to the line, and this directive was placed with the chunk if and only if
there was none before, or the last one would have mapped the chunk to another line. No distance from
a directive to a line above it is ever taken. -/
def InStep (before : Progress) (placed : List Placed) (line : Nat) (chunk : Chunk) : Prop :=
  ∃ emitted own below, placed = before.placed ++ emitted ++ own :: below ∧ own.chunk = chunk ∧
    (∃ last, lastAnchor? (before.placed ++ emitted) = some last ∧ last.programLine < own.line ∧
      last.templateLine + (own.line - last.programLine - 1) = line) ∧
    (emitted = [] ∨ emitted = [⟨before.next, .directive line⟩]) ∧
    (emitted ≠ [] ↔ lastAnchor? before.placed = none ∨
      ∃ last, lastAnchor? before.placed = some last ∧
        last.templateLine + (before.next - last.programLine - 1) ≠ line) ∧
    ∀ last, lastAnchor? before.placed = some last → last.programLine < before.next

namespace Progress

variable {options : Options} {lines : Text.LineIndex} {progress : Progress}

/-- A batch is placed in step, whatever comes behind it. -/
theorem Counted.inStep (h : Counted options.file progress) (batch : Batch) (batches : List Batch) :
    InStep progress ((batch :: batches).foldl (Progress.place options lines) progress).placed
      (lines.lineOf batch.offset) (.ofBatch options (lines.lineOf batch.offset) batch) := by
  generalize hline : lines.lineOf batch.offset = line
  obtain ⟨below, placed⟩ := @exists_placed_foldl_place options lines batches
    (progress.place options lines batch)
  rw [List.foldl_cons, placed]
  have above : ∀ last, lastAnchor? progress.placed = some last → last.programLine < progress.next := by
    intro last hlast
    exact h.above last (by rw [h.anchor, hlast]; rfl)
  by_cases inStep : progress.anchor.any (·.lineAt progress.next = line) = true
  · -- the last directive maps the chunk to its line already
    obtain ⟨last, hlast, mapped⟩ := (Option.any_eq_true _ _).1 inStep
    have mapped : last.lineAt progress.next = line := of_decide_eq_true mapped
    have found : lastAnchor? progress.placed = some last := by rw [← h.anchor, hlast]
    have same : progress.announce options.file line = progress := if_pos inStep
    refine ⟨[], ⟨progress.next, .ofBatch options line batch⟩, below, ?_, rfl, ?_, .inl rfl, ?_, above⟩
    · rw [Progress.place, hline, same, Progress.push, List.append_nil, List.append_assoc]
      rfl
    · rw [List.append_nil]
      exact ⟨last, found, above last found, mapped⟩
    · rw [found]
      constructor
      · intro emitted
        exact absurd rfl emitted
      · rintro (none | ⟨other, same, apart⟩)
        · cases none
        · obtain rfl := Option.some.inj same
          exact absurd mapped apart
  · -- a directive is placed above the chunk
    have announced : progress.announce options.file line
        = { progress.push options.file (.directive line) with anchor := some ⟨progress.next, line⟩ } := if_neg inStep
    have counted := h.announce line
    refine ⟨[⟨progress.next, .directive line⟩],
      ⟨progress.next + (Chunk.directive line).lineCount options.file, .ofBatch options line batch⟩, below,
      ?_, rfl, ⟨⟨progress.next, line⟩, ?_, ?_, ?_⟩, .inr rfl, ?_, above⟩
    · rw [Progress.place, hline, announced]
      simp [Progress.push]
    · rw [announced] at counted
      exact counted.anchor.symm
    · rw [lineCount_directive]
      exact Nat.lt_succ_self _
    · rw [lineCount_directive]
      show line + (progress.next + 1 - progress.next - 1) = line
      omega
    · refine iff_of_true (List.cons_ne_nil _ _) ?_
      rw [← h.anchor]
      cases hanchor : progress.anchor with
      | none => exact .inl rfl
      | some last =>
        refine .inr ⟨last, rfl, fun mapped => inStep ?_⟩
        rw [hanchor]
        exact decide_eq_true mapped

end Progress

/-- Programs are in step with their templates, with as few directives as that takes, whatever nodes
they are made of. The count of lines is the one that the layout goes on with behind some nodes, and
every chunk begins on the program line that it says. Every piece of code and every run of output maps
to the line on which its first node begins, through the last directive above it, and a directive is
written above it if and only if there is none before or the last one would map it to another line. -/
theorem chunks_inStep (template : List Char) (options : Options) (nodes : List Node) :
    (Progress.ofNodes template options nodes).placed.map Placed.chunk = chunks template options nodes ∧
    (∀ front batches, Batch.ofNodes nodes = Batch.ofNodes front ++ batches →
      chunks template options nodes = (Progress.ofNodes template options front).placed.map Placed.chunk
        ++ placeBatches options (Text.LineIndex.ofText template) (Progress.ofNodes template options front).next
          (Progress.ofNodes template options front).anchor batches) ∧
    (∀ above own below, (Progress.ofNodes template options nodes).placed = above ++ own :: below →
      ofNodes template options nodes = rows options.file (above.map Placed.chunk) ++ own.chunk.render options.file
        ++ '\n' :: rows options.file (below.map Placed.chunk) ∧
      own.line = 1 + Text.newlines (rows options.file (above.map Placed.chunk))) ∧
    (∀ front text offset behind, nodes = front ++ ⟨.code text, offset⟩ :: behind →
      InStep (Progress.ofNodes template options front) (Progress.ofNodes template options nodes).placed
        ((Text.LineIndex.ofText template).lineOf offset) (.code text)) ∧
    ∀ front output offset others behind,
      nodes = front ++ ((output, offset) :: others).map Node.printed ++ behind → IsRun front behind →
      InStep (Progress.ofNodes template options front) (Progress.ofNodes template options nodes).placed
        ((Text.LineIndex.ofText template).lineOf offset)
        (.print (options.lineMarker ((Text.LineIndex.ofText template).lineOf offset))
          (output :: others.map Prod.fst)) := by
  have written := Progress.placed_ofNodes template options nodes
  have counted := Progress.counted_ofNodes template options nodes
  refine ⟨written, ?_, ?_, ?_, ?_⟩
  · intro front batches split
    rw [← written, Progress.ofNodes_append split, Progress.placed_foldl_place]
  · intro above own below split
    rw [split, List.map_append, List.map_cons] at written
    refine ⟨?_, ?_⟩
    · rw [ofNodes, ← written, render_append_cons]
    · rw [newlines_rows]
      exact counted.lines above own below split
  · intro front text offset behind split
    have batches := split ▸ ofNodes_around_code front behind text offset
    rw [Progress.ofNodes_append batches]
    exact (Progress.counted_ofNodes template options front).inStep (.code offset text) (Batch.ofNodes behind)
  · intro front output offset others behind split hrun
    have batches := split ▸ ofNodes_around_run hrun output offset others
    rw [Progress.ofNodes_append batches]
    exact (Progress.counted_ofNodes template options front).inStep (.output offset (output :: others.map Prod.fst))
      (Batch.ofNodes behind)

/-- Below code on two lines a run of output that begins before it, and code that begins past the end of
the template. -/
theorem chunks_inStep_backwards :
    let template := "a\nb\nc\n".toList
    let options : Options := ⟨['t'], [⟨['x'], ['1']⟩], none⟩
    let code : Node := ⟨.code "f(\n)".toList, 4⟩
    let output : Node := ⟨.output (.literal ['z']), 2⟩
    let last : Node := ⟨.code "g()".toList, 90⟩
    IsRun [code] [last] ∧
      InStep (Progress.ofNodes template options [code]) (Progress.ofNodes template options [code, output, last]).placed
        2 (.print [] [.literal ['z']]) ∧
      InStep (Progress.ofNodes template options [code, output])
        (Progress.ofNodes template options [code, output, last]).placed 4 (.code "g()".toList) := by
  intro template options code output last
  have run : IsRun [code] [last] := by
    constructor
    · simp [code, Node.isOutput]
    · simp [last, Node.isOutput]
  obtain ⟨-, -, -, pieces, runs⟩ := chunks_inStep template options [code, output, last]
  have second : (Text.LineIndex.ofText template).lineOf 2 = 2 := by decide +kernel
  have fourth : (Text.LineIndex.ofText template).lineOf 90 = 4 := by decide +kernel
  refine ⟨run, ?_, ?_⟩
  · have placed := runs [code] (.literal ['z']) 2 [] [last] rfl run
    rwa [second] at placed
  · have placed := pieces [code, output] "g()".toList 90 [] rfl
    rwa [fourth] at placed

end SwiftTemplate.Program
