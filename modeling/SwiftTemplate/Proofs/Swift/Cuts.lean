import SwiftTemplate.Proofs.Swift.Coverage

/-!
# Cuts between tokens

A text can be cut in front of any of its tokens. If its line ends at the cut, the tokens before the cut
stay as they are and where they are, and what comes to stand behind it is read as if it stood alone.
-/
namespace SwiftTemplate.Swift.Token

open Text (Breaks byteSize)

/-! ## Spans of a part of the tokens -/

/-- A span in a text that has more bytes in front. -/
def Span.shift (bytes : Nat) (span : Span) : Span :=
  ⟨bytes + span.first, bytes + span.start, bytes + span.stop, bytes + span.last⟩

theorem length_spans (first : Nat) (tokens : List Token) : (spans first tokens).length = tokens.length := by
  induction tokens generalizing first with
  | nil => rfl
  | cons token tokens ih => rw [spans, List.length_cons, List.length_cons, ih]

theorem spans_shift (bytes first : Nat) (tokens : List Token) :
    spans (bytes + first) tokens = (spans first tokens).map (Span.shift bytes) := by
  induction tokens generalizing first with
  | nil => rfl
  | cons token tokens ih =>
    have own : spanFrom (bytes + first) token = (spanFrom first token).shift bytes := by
      simp only [spanFrom, Span.shift, Nat.add_assoc]
    rw [spans, spans, List.map_cons, ← ih, own]
    rfl

theorem spans_append (first : Nat) (tokens others : List Token) :
    spans first (tokens ++ others) = spans first tokens ++ spans (first + byteSize (render tokens)) others := by
  induction tokens generalizing first with
  | nil => rfl
  | cons token tokens ih =>
    have size : (spanFrom first token).last + byteSize (render tokens) = first + byteSize (render (token :: tokens)) := by
      simp only [render_cons, source, spanFrom, Text.byteSize_append]
      omega
    rw [List.cons_append, spans, spans, ih, size]
    rfl

/-- The span of a token begins behind the tokens before it. -/
theorem exists_front_of_span {first index : Nat} {span : Span} {tokens : List Token}
    (h : (spans first tokens)[index]? = some span) : ∃ front behind, tokens = front ++ behind ∧ behind ≠ [] ∧
      front.length = index ∧ span.first = first + byteSize (render front) := by
  induction tokens generalizing first index with
  | nil => cases h
  | cons token tokens ih =>
    cases index with
    | zero =>
      obtain rfl := Option.some.inj h
      exact ⟨[], token :: tokens, rfl, by simp, rfl, rfl⟩
    | succ index =>
      obtain ⟨front, behind, rfl, nonempty, rfl, begins⟩ := ih h
      refine ⟨token :: front, behind, rfl, nonempty, rfl, ?_⟩
      rw [begins]
      simp only [render_cons, source, spanFrom, Text.byteSize_append]
      omega

/-! ## Another end -/

/-- A text can be cut in front of any token and its trivia. If nothing more follows on the line of the cut,
the tokens before the cut are the same, and they stand at the same bytes; behind them stand the tokens of
what follows, as many bytes further on as the text before the cut is long. Only where the text is cut at
its end must no token before the cut have been left open. -/
theorem ofText_append_breaks {before behind other : List Char} {index : Nat} {span : Span}
    (cut : (spans 0 (ofText (before ++ behind)))[index]? = some span) (begins : span.first = byteSize before)
    (closed : behind = [] → ∀ token ∈ (ofText (before ++ behind)).take index, token.unterminated = false)
    (breaks : Breaks other) :
    ofText (before ++ other) = (ofText (before ++ behind)).take index ++ ofText other ∧
      spans 0 (ofText (before ++ other)) = (spans 0 (ofText (before ++ behind))).take index
        ++ (spans 0 (ofText other)).map (Span.shift (byteSize before)) := by
  obtain ⟨tokens, others, split, nonempty, rfl, first⟩ := exists_front_of_span cut
  have whole : before ++ behind = render tokens ++ render others := by
    rw [← render_append, ← split]
    exact (flatMap_source_ofText _).symm
  obtain ⟨rfl, rfl⟩ := Text.append_inj_of_byteSize whole (by omega)
  have lexed : Lexed (tokens ++ others) := by
    rw [← split]
    exact lexed_ofText _
  have front : (ofText (render tokens ++ render others)).take tokens.length = tokens := by
    rw [split, List.take_left]
  rw [front] at closed ⊢
  have ends : ∀ token ∈ tokens, token.Ends := by
    apply lexed.ends nonempty
    intro final token hmem _
    exact closed final token hmem
  have again : ofText (render tokens ++ other) = tokens ++ ofText other :=
    lexed.ofText_append nonempty ends (.of_breaks _ breaks)
  constructor
  · exact again
  · have places : (spans 0 (tokens ++ others)).take tokens.length = spans 0 tokens := by
      rw [spans_append, List.take_left' (length_spans 0 tokens)]
    rw [again, split, places, spans_append, Nat.zero_add, ← spans_shift, Nat.add_zero]

/-- A directive takes the place of a comment over two lines and of what follows it. The comment before, which
is on the line of the cut, stays with the number. -/
theorem ofText_append_breaks_directive :
    let before := "x = 1 /* a */ ".toList
    let behind := "/* b\n*/.e \"c".toList
    let other := "\n#sourceLocation()\n".toList
    (spans 0 (ofText (before ++ behind)))[3]? = some ⟨14, 21, 22, 22⟩ ∧ byteSize before = 14 ∧ Breaks other ∧
      (∀ token ∈ (ofText (before ++ behind)).take 3, token.unterminated = false) ∧
      ofText (before ++ other) = (ofText (before ++ behind)).take 3 ++ ofText other ∧
      spans 0 (ofText (before ++ other)) = (spans 0 (ofText (before ++ behind))).take 3
        ++ (spans 0 (ofText other)).map (Span.shift 14) := by
  intro before behind other
  have cut : (spans 0 (ofText (before ++ behind)))[3]? = some ⟨14, 21, 22, 22⟩ := by decide +kernel
  have closed : ∀ token ∈ (ofText (before ++ behind)).take 3, token.unterminated = false := by decide +kernel
  have breaks : Breaks other := Text.breaks_newline _
  exact ⟨cut, rfl, breaks, closed, ofText_append_breaks cut rfl (fun _ => closed) breaks⟩

/-- A literal left open at the end of a text goes on in what comes to stand there. -/
example : ofText ("\"\"\"a".toList ++ "\nb".toList) ≠ (ofText "\"\"\"a".toList).take 1 ++ ofText "\nb".toList := by
  decide +kernel

end SwiftTemplate.Swift.Token
