import SwiftTemplate.Proofs.Template.Lines
import SwiftTemplate.Proofs.Template.Partition
import SwiftTemplate.Proofs.Text.Cuts

/-!
# Nodes as slices

The text of a node is cut out of its segment at fixed numbers of bytes from both ends. The segments
have shapes for which the cuts are inside them and between characters, and so the text of a node
stands in the template where the node says, on a line that the segments in front of it tell.
-/
namespace SwiftTemplate

namespace Text

/-- The texts before and behind a byte, if the byte is in range and begins a character or ends the text. -/
def splitBytes? : Nat → List Char → Option (List Char × List Char)
  | 0, s => some ([], s)
  | _ + 1, [] => none
  | n + 1, c :: s =>
    if c.utf8Size ≤ n + 1 then (splitBytes? (n + 1 - c.utf8Size) s).map fun (front, back) => (c :: front, back)
    else none

/-- The text from the byte `first` up to the byte `stop`, if both are in range, in this order, and
between characters. -/
def slice? (first stop : Nat) (s : List Char) : Option (List Char) :=
  if first ≤ stop then
    (splitBytes? stop s).bind fun (upTo, _) => (splitBytes? first upTo).map Prod.snd
  else none

theorem splitBytes?_append (front back : List Char) :
    splitBytes? (byteSize front) (front ++ back) = some (front, back) := by
  induction front with
  | nil =>
    rw [byteSize_nil, splitBytes?]
    rfl
  | cons c front ih =>
    have positive := c.utf8Size_pos
    obtain ⟨n, hn⟩ : ∃ n, byteSize (c :: front) = n + 1 := ⟨byteSize (c :: front) - 1, by simp; omega⟩
    have whole : n + 1 = c.utf8Size + byteSize front := by rw [← hn, byteSize_cons]
    rw [hn, List.cons_append, splitBytes?, if_pos (by omega), whole, Nat.add_sub_cancel_left, ih]
    rfl

/-- A text is cut in one way only where its first part has a given size. -/
theorem append_inj_of_byteSize {before behind front rest : List Char} (h : before ++ behind = front ++ rest)
    (size : byteSize before = byteSize front) : before = front ∧ behind = rest := by
  have cut := splitBytes?_append before behind
  rw [h, size, splitBytes?_append] at cut
  cases cut
  exact ⟨rfl, rfl⟩

theorem slice?_append {front inner back : List Char} {first stop : Nat} (hfirst : first = byteSize front)
    (hstop : stop = first + byteSize inner) : slice? first stop (front ++ inner ++ back) = some inner := by
  have upTo : stop = byteSize (front ++ inner) := by rw [byteSize_append, hstop, hfirst]
  rw [slice?, if_pos (by omega), upTo, splitBytes?_append, Option.bind_some, hfirst]
  dsimp only
  rw [splitBytes?_append]
  rfl

theorem exists_dropLast? (c : Char) (s : List Char) : ∃ cut, s = (dropLast? c s).getD s ++ cut ∧ (cut = [] ∨ cut = [c]) := by
  unfold dropLast?
  split
  · next last =>
    obtain ⟨front, rfl⟩ := List.getLast?_eq_some_iff.1 last
    exact ⟨[c], by simp, .inr rfl⟩
  · exact ⟨[], by simp, .inl rfl⟩

theorem dropLast?_append_cons {c d : Char} (h : d ≠ c) (front back : List Char) :
    (dropLast? c (front ++ d :: back)).getD (front ++ d :: back) = front ++ d :: (dropLast? c back).getD back := by
  unfold dropLast?
  cases back with
  | nil => simp [h]
  | cons e back =>
    have last : (front ++ d :: e :: back).getLast? = (e :: back).getLast? := by
      simp [List.getLast?_append, List.getLast?_cons]
    rw [last]
    split
    · simp
    · rfl

end Text

namespace Template

open Text (byteSize isSpaceOrTab slice?)

def Content.text : Content → List Char
  | .output printed => printed.text
  | .code text => text

namespace Segment

/-! ## The shapes of segments -/

/-- A line break, or the end of the template. -/
def endings : List (List Char) := [[], ['\n'], ['\r', '\n']]

theorem take_breakExtent_mem (s : List Char) : s.take (breakExtent s) ∈ endings := by
  unfold breakExtent
  split
  · simp [endings]
  · simp [endings]
  · simp [endings]

theorem exists_of_codeEnd? {text : List Char} {stop : Nat} (h : codeEnd? text = some stop) :
    ∃ code behind, text = code ++ '\x7d' :: behind ∧ codeEnd? (code ++ '\x7d' :: behind) = some code.length := by
  obtain ⟨code, behind, rfl, rfl, -⟩ := exists_of_codeEndFrom? h
  refine ⟨code, behind, rfl, ?_⟩
  rw [h, Nat.zero_add]

/-- A block ends where its code ends, if a sign follows. -/
theorem blockExtent?_of_codeEnd? {code behind : List Char} (h : codeEnd? (code ++ '\x7d' :: behind) = some code.length) :
    blockExtent? (code ++ '\x7d' :: behind)
      = if behind.head? = some '%' then some (code.length + 3 + breakExtent behind.tail) else none := by
  have drop : (code ++ '\x7d' :: behind).drop (code.length + 1) = behind := by
    rw [← List.drop_drop, List.drop_left]
    rfl
  unfold blockExtent?
  rw [h]
  dsimp only
  rw [drop]
  split
  · rfl
  · next other =>
    rw [if_neg]
    intro sign
    obtain ⟨rest, rfl⟩ := List.head?_eq_some_iff.1 sign
    exact other rest rfl

theorem exists_of_blockExtent? {text : List Char} {extent : Nat} (h : blockExtent? text = some extent) :
    ∃ code behind, text = code ++ '\x7d' :: '%' :: behind ∧
      codeEnd? (code ++ '\x7d' :: '%' :: behind) = some code.length ∧
      extent = code.length + 3 + breakExtent behind := by
  cases hstop : codeEnd? text with
  | none =>
    rw [blockExtent?, hstop] at h
    cases h
  | some stop =>
    obtain ⟨code, behind, rfl, ends⟩ := exists_of_codeEnd? hstop
    rw [blockExtent?_of_codeEnd? ends] at h
    split at h
    · next sign =>
      obtain ⟨behind, rfl⟩ := List.head?_eq_some_iff.1 sign
      exact ⟨code, behind, rfl, ends, (Option.some.inj h).symm⟩
    · cases h

/-- A code block is code between `%{` and `}%`, with a line break or without. -/
theorem exists_of_measure_eq_codeBlock {atLineStart : Bool} {c : Char} {rest : List Char} {extent : Nat}
    (h : measure atLineStart c rest = (.codeBlock, extent)) :
    ∃ code ending, ending ∈ endings ∧
      c :: rest.take extent = '%' :: '\x7b' :: (code ++ '\x7d' :: '%' :: ending) := by
  cases measured_of_measure h with
  | codeBlock ends =>
    obtain ⟨code, behind, rfl, -, size⟩ := exists_of_blockExtent? ends
    have parts : extent = code.length + (breakExtent behind + 2) + 1 := by omega
    refine ⟨code, behind.take (breakExtent behind), take_breakExtent_mem behind, ?_⟩
    rw [parts, List.take_succ_cons, List.take_length_add_append, List.take_succ_cons, List.take_succ_cons]

/-- A segment that is a line of code begins where a line does. It is one line, and `%` is the first sign on it. -/
theorem exists_of_measure_eq_codeLine {atLineStart : Bool} {c : Char} {rest : List Char} {extent : Nat}
    (h : measure atLineStart c rest = (.codeLine, extent)) :
    atLineStart = true ∧ ∃ indent line ending, c :: rest.take extent = indent ++ '%' :: (line ++ ending) ∧
      indent.all isSpaceOrTab = true ∧ '\n' ∉ line ∧ (ending = ['\n'] ∨ ending = [] ∧ rest.drop extent = []) := by
  cases measured_of_measure h with
  | codeLine starts begins =>
    obtain ⟨indent, d, more, split, blanks, -⟩ := beginsCodeLine_iff.1 begins
    obtain ⟨line, left, behind, inner, plain, shape⟩ := exists_isLine (d :: more)
    have whole : c :: rest = (indent ++ '%' :: line) ++ left := by
      rw [split, behind]
      simp
    have isLine : IsLine (indent ++ '%' :: line) left := by
      refine ⟨indent ++ '%' :: inner, newline_not_mem blanks plain, ?_⟩
      rcases shape with rfl | ⟨rfl, rfl⟩
      · exact .inl (by simp)
      · exact .inr ⟨rfl, rfl⟩
    have first : c ≠ '\n' := by
      rcases front_of_beginsCodeLine begins with blank | ⟨rfl, -⟩
      · rintro rfl
        cases blank
      · decide
    have size := lineExtent_of_isLine isLine
    rw [← whole, lineExtent_cons first] at size
    have taken : c :: rest.take (lineExtent rest) = indent ++ '%' :: line := by
      rw [← List.take_succ_cons, size, whole, List.take_left]
    have dropped : rest.drop (lineExtent rest) = left := by
      have drop : (c :: rest).drop (lineExtent rest + 1) = rest.drop (lineExtent rest) := List.drop_succ_cons
      rw [← drop, size, whole, List.drop_left]
    rw [taken, dropped]
    rcases shape with rfl | ⟨rfl, rfl⟩
    · exact ⟨starts, indent, inner, ['\n'], rfl, blanks, plain, .inl rfl⟩
    · exact ⟨starts, indent, line, [], by simp, blanks, plain, .inr ⟨rfl, rfl⟩⟩

/-- A code line is one line, with its break unless it is the last, and `%` is the first sign on it. -/
theorem exists_line_of_mem {template : List Char} {segment : Segment} (h : segment ∈ ofText template)
    (hkind : segment.kind = .codeLine) :
    ∃ indent line ending, segment.text = indent ++ '%' :: (line ++ ending) ∧ indent.all isSpaceOrTab = true ∧
      '\n' ∉ line ∧ ending ∈ [[], ['\n']] := by
  obtain ⟨atLineStart, c, rest, extent, hmeasure, htext⟩ := exists_measure_of_mem h
  obtain ⟨-, indent, line, ending, hline, hindent, plain, hending⟩ := exists_of_measure_eq_codeLine (hkind ▸ hmeasure)
  refine ⟨indent, line, ending, htext.trans hline, hindent, plain, ?_⟩
  rcases hending with rfl | ⟨rfl, -⟩
  · simp
  · simp

/-- A code line as it is written: blanks and one sign before the code, and the end of the line behind it. -/
structure WritesLine (text code indent gap returns ending : List Char) : Prop where
  whole : text = indent ++ '%' :: (gap ++ code ++ returns ++ ending)
  indent : indent.all isSpaceOrTab = true
  gap : gap.all isSpaceOrTab = true
  returns : returns ∈ [[], ['\r'], ['\r', '\r']]
  ending : ending ∈ [[], ['\n']]

end Segment

namespace Node

/-! ## The texts of nodes -/

theorem withoutBreak_block {body ending : List Char} (h : ending ∈ Segment.endings) :
    withoutBreak (body ++ '%' :: ending) = body ++ ['%'] := by
  have listed : ending = [] ∨ ending = ['\n'] ∨ ending = ['\r', '\n'] := by simpa [Segment.endings] using h
  rcases listed with rfl | rfl | rfl
  · simp [withoutBreak, Text.dropLast?]
  · simp [withoutBreak, Text.dropLast?, List.dropLast_append_of_ne_nil]
  · simp [withoutBreak, Text.dropLast?, List.dropLast_append_of_ne_nil]

theorem withoutBreak_codeBlock (code : List Char) {ending : List Char} (h : ending ∈ Segment.endings) :
    withoutBreak ('%' :: '\x7b' :: (code ++ '\x7d' :: '%' :: ending)) = '%' :: '\x7b' :: (code ++ ['\x7d', '%']) := by
  have body := @withoutBreak_block ('%' :: '\x7b' :: (code ++ ['\x7d'])) ending h
  simpa using body

theorem unwrap_codeBlock (code : List Char) : unwrap 2 2 ('%' :: '\x7b' :: (code ++ ['\x7d', '%'])) = code := by
  simp [unwrap]

theorem unwrap_substitution (code : List Char) : unwrap 2 1 ('$' :: '\x7b' :: (code ++ ['\x7d'])) = code := by
  simp [unwrap]

/-- The line break of a code line goes, and one `\r` in front of it. -/
theorem exists_withoutBreak_line {indent line ending : List Char} (hindent : indent.all isSpaceOrTab = true)
    (hline : '\n' ∉ line) (hending : ending ∈ [[], ['\n']]) :
    ∃ inner cut, withoutBreak (indent ++ '%' :: (line ++ ending)) = indent ++ '%' :: inner ∧ line = inner ++ cut ∧
      (cut = [] ∨ cut = ['\r']) := by
  have listed : ending = [] ∨ ending = ['\n'] := by simpa using hending
  rcases listed with rfl | rfl
  · refine ⟨line, [], ?_, by simp, .inl rfl⟩
    have last : (indent ++ '%' :: line).getLast? ≠ some '\n' := by
      intro last
      exact Segment.newline_not_mem hindent hline (List.mem_of_getLast? last)
    rw [List.append_nil, withoutBreak, Text.dropLast?, if_neg last]
  · obtain ⟨cut, hcut, short⟩ := Text.exists_dropLast? '\r' line
    refine ⟨_, cut, ?_, hcut, short⟩
    have whole : indent ++ '%' :: (line ++ ['\n']) = (indent ++ '%' :: line) ++ ['\n'] := by simp
    rw [withoutBreak, Text.dropLast?, whole, List.getLast?_concat, if_pos rfl, List.dropLast_concat]
    exact Text.dropLast?_append_cons (by decide) indent line

/-- The code of a code line is what is left between the blanks and the end of the line. -/
theorem exists_writesLine {indent line ending : List Char} (hindent : indent.all isSpaceOrTab = true)
    (hline : '\n' ∉ line) (hending : ending ∈ [[], ['\n']]) :
    ∃ gap returns, Segment.WritesLine (indent ++ '%' :: (line ++ ending))
      (linesCode (withoutBreak (indent ++ '%' :: (line ++ ending)))) indent gap returns ending := by
  obtain ⟨inner, first, hinner, rfl, hfirst⟩ := exists_withoutBreak_line hindent hline hending
  have plain : '\n' ∉ indent ++ '%' :: inner :=
    Segment.newline_not_mem hindent fun hmem => hline (List.mem_append_left _ hmem)
  obtain ⟨second, hsecond, short⟩ := Text.exists_dropLast? '\r' inner
  generalize hcore : (Text.dropLast? '\r' inner).getD inner = core at hsecond
  have code : linesCode (indent ++ '%' :: inner) = core.dropWhile isSpaceOrTab := by
    have bare : (indent ++ '%' :: core).dropWhile isSpaceOrTab = '%' :: core := by
      rw [List.dropWhile_append_of_pos (List.all_eq_true.1 hindent), List.dropWhile_cons_of_neg (by decide)]
    rw [linesCode, Text.splitOn_of_not_mem plain, List.map_singleton, List.intercalate_singleton, lineCode,
      Text.dropLast?_append_cons (by decide), hcore, bare]
    rfl
  rw [hinner, code]
  refine ⟨core.takeWhile isSpaceOrTab, second ++ first, ?_, hindent, ?_, ?_, hending⟩
  · rw [List.takeWhile_append_dropWhile]
    conv => lhs; rw [hsecond]
    simp
  · exact List.all_takeWhile
  · rcases short with rfl | rfl <;> rcases hfirst with rfl | rfl <;> simp

/-- The text of the node of a segment as it is cut out of the segment. A cut at a fixed number of bytes
fails where that byte is out of range or inside a character. -/
def cut? (segment : Segment) : Option (List Char) :=
  match segment.kind with
  | .literal => some segment.text
  | .doubled => slice? 0 1 segment.text
  | .substitution => slice? 2 (byteSize segment.text - 1) segment.text
  | .codeBlock =>
    let body := withoutBreak segment.text
    slice? 2 (byteSize body - 2) body
  | .codeLine => some (linesCode (withoutBreak segment.text))

/-- A segment that is no line of code is split where the text of its node begins and ends. -/
theorem exists_split {template : List Char} {segment : Segment} (h : segment ∈ Segment.ofText template)
    (hkind : segment.kind ≠ .codeLine) :
    ∃ front back, segment.text = front ++ (ofSegment segment).content.text ++ back ∧ Text.newlines front = 0 ∧
      (ofSegment segment).offset = segment.offset + byteSize front ∧
      cut? segment = some (ofSegment segment).content.text ∧
      (segment.kind = .doubled → (ofSegment segment).content.text.length = 1) := by
  obtain ⟨atLineStart, c, rest, extent, hmeasure, htext⟩ := Segment.exists_measure_of_mem h
  obtain ⟨kind, text, offset⟩ := segment
  dsimp only at hmeasure htext hkind
  have sizes : '$'.utf8Size = 1 ∧ '%'.utf8Size = 1 ∧ '\x7b'.utf8Size = 1 ∧ '\x7d'.utf8Size = 1 := by decide +kernel
  cases kind with
  | literal => exact ⟨[], [], by simp [ofSegment, Content.text, Output.text], rfl, rfl, rfl, by simp⟩
  | doubled =>
    obtain ⟨sign, pair⟩ := Segment.exists_of_measure_eq_doubled hmeasure
    rw [pair] at htext
    subst htext
    refine ⟨[], [c], rfl, rfl, rfl, ?_, fun _ => rfl⟩
    refine @Text.slice?_append [] [c] [c] 0 1 rfl ?_
    rcases sign with rfl | rfl
    · simp [sizes]
    · simp [sizes]
  | substitution =>
    obtain ⟨code, hcode⟩ := Segment.exists_of_measure_eq_substitution hmeasure
    rw [hcode] at htext
    subst htext
    have text : (ofSegment ⟨.substitution, '$' :: '\x7b' :: (code ++ ['\x7d']), offset⟩).content.text = code :=
      unwrap_substitution code
    rw [text]
    refine ⟨['$', '\x7b'], ['\x7d'], by simp, rfl, by simp [ofSegment, sizes], ?_, fun doubled => by cases doubled⟩
    refine @Text.slice?_append ['$', '\x7b'] code ['\x7d'] 2 _ (by simp [sizes]) ?_
    simp [sizes]
    omega
  | codeBlock =>
    obtain ⟨code, ending, hending, hcode⟩ := Segment.exists_of_measure_eq_codeBlock hmeasure
    rw [hcode] at htext
    subst htext
    have body := withoutBreak_codeBlock code hending
    have text : (ofSegment ⟨.codeBlock, '%' :: '\x7b' :: (code ++ '\x7d' :: '%' :: ending), offset⟩).content.text
        = code := (congrArg (unwrap 2 2) body).trans (unwrap_codeBlock code)
    rw [text]
    refine ⟨['%', '\x7b'], '\x7d' :: '%' :: ending, by simp, rfl, by simp [ofSegment, sizes], ?_, fun doubled => by cases doubled⟩
    dsimp only [cut?]
    rw [body]
    refine @Text.slice?_append ['%', '\x7b'] code ['\x7d', '%'] 2 _ (by simp [sizes]) ?_
    simp [sizes]
    omega
  | codeLine => exact absurd rfl hkind

theorem lineOf_offset {template : List Char} {before behind : List Segment} {segment : Segment}
    (h : Segment.ofText template = before ++ segment :: behind) :
    (Text.LineIndex.ofText template).lineOf (ofSegment segment).offset
      = 1 + Text.newlines (before.flatMap Segment.text) := by
  have whole := Segment.flatMap_text_ofText template
  rw [h, List.flatMap_append, List.flatMap_cons] at whole
  have start : segment.offset = 0 + byteSize (before.flatMap Segment.text) := Segment.offset_of_ofTextFrom h
  rw [Nat.zero_add] at start
  -- What stands in the segment in front of its node is on the line on which the segment begins.
  obtain ⟨front, back, split, line, place⟩ : ∃ front back, segment.text = front ++ back ∧ Text.newlines front = 0 ∧
      (ofSegment segment).offset = segment.offset + byteSize front := by
    by_cases kind : segment.kind = .codeLine
    · refine ⟨[], segment.text, rfl, rfl, ?_⟩
      unfold ofSegment
      rw [kind]
      rfl
    · have hmem : segment ∈ Segment.ofText template := by simp [h]
      obtain ⟨front, back, split, line, place, -⟩ := exists_split hmem kind
      exact ⟨front, _, by rw [split, List.append_assoc], line, place⟩
  have known := Text.lineOf_byteSize (before.flatMap Segment.text ++ front) (back ++ behind.flatMap Segment.text)
  rw [Text.byteSize_append, Text.newlines_append, line, Nat.add_zero, List.append_assoc, ← List.append_assoc front,
    ← split, whole] at known
  rw [place, start, known]

/-- Between two nodes that print, with only such nodes between them, the template has the line breaks
of what they print. -/
theorem lineOf_offset_add {template : List Char} {front behind : List Node} {batch : List (Output × Nat)}
    {output last : Output} {offset stop : Nat}
    (h : ofText template = front ++ ((output, offset) :: batch).map printed ++ printed (last, stop) :: behind) :
    (Text.LineIndex.ofText template).lineOf stop = (Text.LineIndex.ofText template).lineOf offset
      + (((output, offset) :: batch).map fun node => Text.newlines node.1.text).sum := by
  obtain ⟨upTo, fromLast, hsegments, hupTo, hfromLast⟩ := List.map_eq_append_iff.1 h
  obtain ⟨before, printed, rfl, -, hprinted⟩ := List.map_eq_append_iff.1 hupTo
  obtain ⟨lastSegment, others, rfl, hlast, -⟩ := List.map_eq_cons_iff.1 hfromLast
  obtain ⟨first, middle, rfl, hfirst, -⟩ := List.map_eq_cons_iff.1 hprinted
  have lines : ∀ (segments : List Segment) (nodes : List (Output × Nat)),
      (∀ segment ∈ segments, segment ∈ Segment.ofText template) →
      segments.map ofSegment = nodes.map printed →
      Text.newlines (segments.flatMap Segment.text) = (nodes.map fun node => Text.newlines node.1.text).sum := by
    intro segments
    induction segments with
    | nil =>
      intro nodes _ hnodes
      rw [List.map_eq_nil_iff.1 hnodes.symm]
      rfl
    | cons segment segments ih =>
      intro nodes hmem hnodes
      obtain ⟨node, nodes, rfl, hnode, hrest⟩ := List.map_eq_cons_iff.1 hnodes.symm
      obtain ⟨own, hmem⟩ := List.forall_mem_cons.1 hmem
      rw [List.flatMap_cons, Text.newlines_append, ih nodes hmem hrest.symm, List.map_cons, List.sum_cons,
        newlines_text_of_ofSegment own hnode.symm]
  have start : Segment.ofText template = before ++ first :: (middle ++ lastSegment :: others) := by
    rw [hsegments, List.append_assoc, List.cons_append]
  have between := lines (first :: middle) _ (fun segment hmem => by
    rw [hsegments]
    exact List.mem_append_left _ (List.mem_append_right _ hmem)) hprinted
  have lastLine := lineOf_offset hsegments
  have firstLine := lineOf_offset start
  rw [hlast] at lastLine
  rw [hfirst] at firstLine
  dsimp only [Node.printed] at lastLine firstLine
  rw [lastLine, firstLine, ← between, List.flatMap_append, Text.newlines_append, Nat.add_assoc]

end Node

end Template

end SwiftTemplate
