import SwiftTemplate.Proofs.Swift.Standalone

/-!
# Parts of a program under repair

While directives are moved about, a program consists of its own tokens, of directives that have not
been moved yet, and of directives that have. What is left without the latter is the base of the
program; it is read on its own, and the moved directives can be put back into it.
-/
namespace SwiftTemplate.Repair

open Swift
open Swift.Token (render Lexed prepend)
open Text (Breaks)

/-- A stretch of a program. -/
inductive Part
  | plain (token : Token)
  /-- A directive where it was written. -/
  | fixed (form : Directive) (tokens : List Token)
  /-- A directive that was put in, behind trivia that is not its own. -/
  | moved (form : Directive) (kept : List Char) (tokens : List Token)

namespace Part

def tokens : Part → List Token
  | plain token => [token]
  | fixed _ tokens => tokens
  | moved _ kept tokens => prepend kept tokens

/-- The form of a directive, if a part is one. -/
def form? : Part → Option Directive
  | plain _ => none
  | fixed form _ => some form
  | moved form _ _ => some form

end Part

/-- Parts by what comes first: a token of the program, or a directive wherever it is from. -/
@[elab_as_elim]
theorem parts_induction {motive : List Part → Prop} (nil : motive [])
    (token : ∀ token parts, motive parts → motive (.plain token :: parts))
    (directive : ∀ part form parts, part.form? = some form → motive parts → motive (part :: parts))
    (parts : List Part) : motive parts := by
  induction parts with
  | nil => exact nil
  | cons part parts ih =>
    cases part with
    | plain own => exact token own parts ih
    | fixed form tokens => exact directive _ form parts rfl ih
    | moved form kept tokens => exact directive _ form parts rfl ih

/-- The tokens of some parts. -/
def tokensOf (parts : List Part) : List Token := parts.flatMap Part.tokens

/-- The tokens that are there without the moved directives. -/
def baseOf : List Part → List Token
  | [] => []
  | .plain token :: parts => token :: baseOf parts
  | .fixed _ tokens :: parts => tokens ++ baseOf parts
  | .moved _ kept _ :: parts => prepend kept (baseOf parts)

/-- The tokens that belong to no directive. -/
def plainsOf : List Part → List Token
  | [] => []
  | .plain token :: parts => token :: plainsOf parts
  | .fixed .. :: parts => plainsOf parts
  | .moved .. :: parts => plainsOf parts

/-- Whether the first of some tokens begins a line, or is the end of the text. -/
def BeginLine (tokens : List Token) : Prop :=
  ∃ token, tokens.head? = some token ∧ (token.kind = .endOfText ∨ '\n' ∈ token.leading)

/-- The trivia before a directive that stays where it is when the directive is cut out. -/
def leftBehind (head : Token) : List Char := (Text.cutAtLastNewline head.leading).1

/-- The tokens of a directive that is cut out: the line break in front of it goes along. -/
def cutOut (head : Token) (rest : List Token) : List Token :=
  { head with leading := (Text.cutAtLastNewline head.leading).2 } :: rest

/-- Whether some tokens begin with a line break and what is on the line behind it. -/
def Fresh (tokens : List Token) : Prop :=
  ∃ head indent, tokens.head? = some head ∧ head.leading = '\n' :: indent ∧ '\n' ∉ indent

/-- A directive where it was written, in front of the tokens `behind`: it can be read elsewhere, what it
leaves behind is whole, and a new line begins behind it. -/
structure Stays (form : Directive) (tokens behind : List Token) : Prop where
  standalone : form.Standalone tokens
  whole : ∀ head, tokens.head? = some head → Trivia.Whole (leftBehind head)
  nonempty : behind ≠ []
  breaks : Breaks (render behind)

/-- A directive that was put in behind the trivia `kept` and in front of the tokens `behind`: it begins
a line of its own, and those tokens begin one as well. -/
structure Rests (form : Directive) (kept : List Char) (tokens behind : List Token) : Prop where
  standalone : form.Standalone tokens
  fresh : Fresh tokens
  whole : Trivia.Whole kept
  nonempty : behind ≠ []
  breaks : kept = [] ∨ Breaks (render behind)
  quiet : Trivia.trailing (render behind) = 0
  line : BeginLine behind

/-- Every part can stand where it does. -/
def Sound : List Part → Prop
  | [] => True
  | .plain token :: parts => token.Ends ∧ Sound parts
  | .fixed form tokens :: parts => Stays form tokens (baseOf parts) ∧ Sound parts
  | .moved form kept tokens :: parts => Rests form kept tokens (baseOf parts) ∧ Sound parts

theorem Sound.tail {part : Part} {parts : List Part} (h : Sound (part :: parts)) : Sound parts := by
  cases part <;> exact h.2

theorem tokensOf_cons (part : Part) (parts : List Part) : tokensOf (part :: parts) = part.tokens ++ tokensOf parts :=
  rfl

theorem tokensOf_append (parts others : List Part) : tokensOf (parts ++ others) = tokensOf parts ++ tokensOf others :=
  List.flatMap_append

/-- A directive holds no tokens of the program. -/
theorem plainsOf_cons_of_form {part : Part} {parts : List Part} {form : Directive} (h : part.form? = some form) :
    plainsOf (part :: parts) = plainsOf parts := by
  cases part with
  | plain token => cases h
  | fixed form' tokens => rfl
  | moved form' kept tokens => rfl

theorem plainsOf_append (parts others : List Part) :
    plainsOf (parts ++ others) = plainsOf parts ++ plainsOf others := by
  induction parts using parts_induction with
  | nil => rfl
  | token token parts ih => exact congrArg (token :: ·) ih
  | directive part form parts hform ih =>
    rw [List.cons_append, plainsOf_cons_of_form hform, plainsOf_cons_of_form hform]
    exact ih

/-! ## Putting the moved directives back -/

theorem standalone_ne_nil {form : Directive} {tokens : List Token} (h : form.Standalone tokens) : tokens ≠ [] := by
  rintro rfl
  cases h.shape

theorem baseOf_ne_nil {parts : List Part} (h : Sound parts) (hparts : parts ≠ []) : baseOf parts ≠ [] := by
  cases parts with
  | nil => exact absurd rfl hparts
  | cons part parts =>
    cases part with
    | plain token => simp [baseOf]
    | fixed form tokens => exact List.append_ne_nil_of_right_ne_nil _ h.1.nonempty
    | moved form kept tokens => exact Token.prepend_ne_nil h.1.nonempty

theorem Fresh.exists_render {tokens : List Token} (h : Fresh tokens) : ∃ rest, render tokens = '\n' :: rest := by
  obtain ⟨head, indent, hhead, hleading, -⟩ := h
  obtain ⟨rest, rfl⟩ := List.head?_eq_some_iff.1 hhead
  exact ⟨_, by rw [Token.render_cons, Token.source, hleading]; rfl⟩

/-- The program with its moved directives looks to every token of the base like the base. -/
theorem resembles_tokensOf {parts : List Part} (h : Sound parts) (hlexed : parts ≠ [] → Lexed (baseOf parts)) :
    Resembles (render (baseOf parts)) (render (tokensOf parts)) := by
  induction parts with
  | nil => exact .refl []
  | cons part parts ih =>
    have hbase := hlexed (by simp)
    cases part with
    | plain token =>
      by_cases hparts : parts = []
      · subst hparts
        exact .refl _
      · have hne := baseOf_ne_nil h.2 hparts
        exact Token.resembles_source_append hbase.next_eq (hbase.kind_ne hne) (ih h.2 fun _ => hbase.tail hne)
    | fixed form tokens =>
      obtain ⟨⟨-, -, hne, -⟩, hparts⟩ := h
      rw [tokensOf_cons, Token.render_append]
      exact hbase.resembles_append hne (ih hparts fun _ => hbase.of_append hne)
    | moved form kept tokens =>
      obtain ⟨⟨hform, hline, whole, hne, -⟩, -⟩ := h
      obtain ⟨rest, hrest⟩ := hline.exists_render
      rw [tokensOf_cons, Part.tokens, baseOf, Token.render_append, Token.render_prepend kept hne,
        Token.render_prepend kept (standalone_ne_nil hform), hrest, List.append_assoc]
      exact .breaks (Text.breaks_newline _) (whole.apart _)

/-- The tokens of a program whose base is read on its own are those of its parts. -/
theorem lexed_tokensOf {parts : List Part} (h : Sound parts) (hparts : parts ≠ []) (hlexed : Lexed (baseOf parts)) :
    Lexed (tokensOf parts) := by
  induction parts with
  | nil => exact absurd rfl hparts
  | cons part parts ih =>
    cases part with
    | plain token =>
      by_cases hparts : parts = []
      · subst hparts
        exact hlexed
      · have hne := baseOf_ne_nil h.2 hparts
        have htail := hlexed.tail hne
        exact (ih h.2 hparts htail).cons (hlexed.kind_ne hne)
          (Token.next_append_resembles hlexed.next_eq (hlexed.kind_ne hne) h.1
            (resembles_tokensOf h.2 fun _ => htail))
    | fixed form tokens =>
      obtain ⟨⟨hform, -, hne, -⟩, hsound⟩ := h
      have htail := hlexed.of_append hne
      have hparts : parts ≠ [] := by
        rintro rfl
        exact hne rfl
      obtain ⟨_, _, _, -, -, -, -, ends⟩ := hform.exists_close
      exact hlexed.append_resembles hne ends (ih hsound hparts htail) (resembles_tokensOf hsound fun _ => htail)
    | moved form kept tokens =>
      obtain ⟨⟨hform, hline, whole, hne, breaks, htrailing, -⟩, hsound⟩ := h
      have htail := hlexed.of_prepend hne whole breaks
      have hparts : parts ≠ [] := by
        rintro rfl
        exact hne rfl
      obtain ⟨rest, hrest⟩ := hline.exists_render
      have quiet := Trivia.trailing_eq_zero_of_resembles (resembles_tokensOf hsound fun _ => htail) htrailing
      have own := hform.ofText_append quiet
      rw [ih hsound hparts htail] at own
      rw [Lexed, tokensOf_cons, Part.tokens, Token.render_append, Token.render_prepend kept (standalone_ne_nil hform),
        List.append_assoc, Token.ofText_append_of_whole whole (by rw [hrest]; exact Text.breaks_newline _), own]
      obtain ⟨head, others, rfl⟩ := List.exists_cons_of_ne_nil (standalone_ne_nil hform)
      rfl

/-! ## Exchanging the end of a program -/

/-- Some parts can stand where others do, as far as the parts before them are concerned. -/
structure Replaces (parts others : List Part) : Prop where
  sound : Sound others
  lexed : Lexed (baseOf others)
  like : Resembles (render (baseOf parts)) (render (baseOf others))
  breaks : Breaks (render (baseOf parts)) → Breaks (render (baseOf others))
  line : BeginLine (baseOf parts) → BeginLine (baseOf others)

private theorem breaks_append_congr {w u v : List Char} (hw : w ≠ []) (h : Breaks (w ++ u)) : Breaks (w ++ v) := by
  obtain ⟨c, w, rfl⟩ := List.exists_cons_of_ne_nil hw
  exact h

private theorem beginLine_prepend {tokens : List Token} (kept : List Char) (h : BeginLine tokens) :
    BeginLine (prepend kept tokens) := by
  obtain ⟨token, htoken, hline⟩ := h
  obtain ⟨rest, rfl⟩ := List.head?_eq_some_iff.1 htoken
  exact ⟨{ token with leading := kept ++ token.leading }, rfl, hline.imp_right (List.mem_append_right kept)⟩

private theorem render_ne_nil {token : Token} {tokens : List Token} (h : Lexed (token :: tokens))
    (hne : tokens ≠ []) :
    token.source ≠ [] := by
  obtain ⟨-, htext⟩ := Token.length_leading_le h.next_eq (h.kind_ne hne)
  simp [Token.source, htext]

theorem Replaces.append {front parts others : List Part} (h : Replaces parts others) (hparts : parts ≠ [])
    (hsound : Sound (front ++ parts)) (hlexed : Lexed (baseOf (front ++ parts))) :
    Replaces (front ++ parts) (front ++ others) := by
  induction front with
  | nil => exact h
  | cons part front ih =>
    have hfront := List.append_ne_nil_of_right_ne_nil front hparts
    rw [List.cons_append] at hsound hlexed ⊢
    rw [List.cons_append]
    cases part with
    | plain token =>
      have hne := baseOf_ne_nil hsound.2 hfront
      have hkind := hlexed.kind_ne hne
      have ih := ih hsound.2 (hlexed.tail hne)
      exact {
        sound := ⟨hsound.1, ih.sound⟩
        lexed := ih.lexed.cons hkind (Token.next_append_resembles hlexed.next_eq hkind hsound.1 ih.like)
        like := Token.resembles_source_append hlexed.next_eq hkind ih.like
        breaks := breaks_append_congr (render_ne_nil hlexed hne)
        line := id }
    | fixed form tokens =>
      obtain ⟨⟨hform, whole, hne, breaks⟩, hsound⟩ := hsound
      have ih := ih hsound (hlexed.of_append hne)
      obtain ⟨_, _, _, -, -, -, -, ends⟩ := hform.exists_close
      obtain ⟨head, rest, rfl⟩ := List.exists_cons_of_ne_nil (standalone_ne_nil hform)
      exact {
        sound := ⟨⟨hform, whole, ih.lexed.ne_nil, ih.breaks breaks⟩, ih.sound⟩
        lexed := hlexed.append_resembles hne ends ih.lexed ih.like
        like := by
          rw [baseOf, baseOf, Token.render_append (head :: rest) (baseOf (front ++ others))]
          exact hlexed.resembles_append hne ih.like
        breaks := by
          have := @render_ne_nil _ (rest ++ baseOf (front ++ parts)) hlexed
            (List.append_ne_nil_of_right_ne_nil rest hne)
          exact breaks_append_congr this
        line := id }
    | moved form kept tokens =>
      obtain ⟨⟨hform, hline, whole, hne, breaks, htrailing, begins⟩, hsound⟩ := hsound
      have ih := ih hsound (hlexed.of_prepend hne whole breaks)
      have breaks' := breaks.imp_right ih.breaks
      exact {
        sound := ⟨⟨hform, hline, whole, ih.lexed.ne_nil, breaks',
          Trivia.trailing_eq_zero_of_resembles ih.like htrailing, ih.line begins⟩, ih.sound⟩
        lexed := ih.lexed.prepend whole breaks'
        like := by
          rw [baseOf, baseOf, Token.render_prepend kept hne, Token.render_prepend kept ih.lexed.ne_nil]
          exact ih.like.whole_append whole breaks
        breaks := by
          rw [baseOf, baseOf, Token.render_prepend kept hne, Token.render_prepend kept ih.lexed.ne_nil]
          intro h
          rcases breaks' with rfl | _
          · exact ih.breaks h
          · by_cases hkept : kept = []
            · subst hkept
              exact ih.breaks h
            · exact breaks_append_congr hkept h
        line := fun _ => beginLine_prepend kept (ih.line begins) }

theorem Sound.of_append {front parts : List Part} (h : Sound (front ++ parts)) : Sound parts := by
  induction front with
  | nil => exact h
  | cons part front ih => exact ih h.tail

theorem lexed_baseOf_of_append {front parts : List Part} (h : Sound (front ++ parts)) (hparts : parts ≠ [])
    (hlexed : Lexed (baseOf (front ++ parts))) : Lexed (baseOf parts) := by
  induction front with
  | nil => exact hlexed
  | cons part front ih =>
    cases part with
    | plain token =>
      exact ih h.2 (hlexed.tail (baseOf_ne_nil h.2 (List.append_ne_nil_of_right_ne_nil front hparts)))
    | fixed form tokens => exact ih h.2 (hlexed.of_append h.1.nonempty)
    | moved form kept tokens => exact ih h.2 (hlexed.of_prepend h.1.nonempty h.1.whole h.1.breaks)

/-! ## Taking a directive out -/

/-- Some parts with more trivia in front. -/
def pend (trivia : List Char) : List Part → List Part
  | [] => []
  | .plain token :: parts => .plain { token with leading := trivia ++ token.leading } :: parts
  | .fixed form tokens :: parts => .fixed form (prepend trivia tokens) :: parts
  | .moved form kept tokens :: parts => .moved form (trivia ++ kept) tokens :: parts

theorem tokensOf_pend (trivia : List Char) {parts : List Part} (h : Sound parts) :
    tokensOf (pend trivia parts) = prepend trivia (tokensOf parts) := by
  cases parts with
  | nil => rfl
  | cons part parts =>
    cases part with
    | plain token => rfl
    | fixed form tokens =>
      obtain ⟨head, rest, rfl⟩ := List.exists_cons_of_ne_nil (standalone_ne_nil h.1.standalone)
      rfl
    | moved form kept tokens =>
      obtain ⟨head, rest, rfl⟩ := List.exists_cons_of_ne_nil (standalone_ne_nil h.1.standalone)
      simp [pend, tokensOf, Part.tokens, prepend]

theorem baseOf_pend (trivia : List Char) {parts : List Part} (h : Sound parts) :
    baseOf (pend trivia parts) = prepend trivia (baseOf parts) := by
  cases parts with
  | nil => rfl
  | cons part parts =>
    cases part with
    | plain token => rfl
    | fixed form tokens =>
      obtain ⟨head, rest, rfl⟩ := List.exists_cons_of_ne_nil (standalone_ne_nil h.1.standalone)
      rfl
    | moved form kept tokens => exact (Token.prepend_prepend trivia kept (baseOf parts)).symm

/-- A directive with more trivia in front is one. -/
private theorem standalone_prepend {form : Directive} {trivia : List Char} {tokens others : List Token}
    (h : form.Standalone tokens) (hothers : others ≠ []) (hlexed : Lexed (prepend trivia (tokens ++ others))) :
    form.Standalone (prepend trivia tokens) := by
  obtain ⟨head, rest, rfl⟩ := List.exists_cons_of_ne_nil (standalone_ne_nil h)
  exact ⟨⟨(Directive.first?_prepend trivia _).trans h.shape, h.size, others, hothers, hlexed⟩,
    h.free_withLeading (trivia ++ head.leading)⟩

/-- The trivia before a token that a line break is in front of begins with the line break. -/
private theorem leading_of_breaks {token : Token} {tokens : List Token} (h : Breaks (render (token :: tokens)))
    {c : Char}
    (htext : token.text.head? = some c) (hc : c ≠ '\n') : ∃ more, token.leading = '\n' :: more := by
  obtain ⟨w, hw⟩ := List.head?_eq_some_iff.1 htext
  cases hlead : token.leading with
  | nil => exact absurd (h c (by simp [Token.source, hlead, hw])) hc
  | cons d more => exact ⟨more, by rw [h d (by simp [Token.source, hlead])]⟩

theorem sound_pend {trivia : List Char} {parts : List Part} (h : Sound parts) (hparts : parts ≠ [])
    (hlexed : Lexed (baseOf parts)) (whole : Trivia.Whole trivia)
    (breaks : trivia = [] ∨ Breaks (render (baseOf parts))) : Sound (pend trivia parts) := by
  have prepended := hlexed.prepend whole breaks
  cases parts with
  | nil => exact absurd rfl hparts
  | cons part parts =>
    cases part with
    | plain token => exact h
    | fixed form tokens =>
      obtain ⟨⟨hform, hwhole, hne, hbreaks⟩, hsound⟩ := h
      refine ⟨⟨standalone_prepend hform hne prepended, fun head hhead => ?_, hne, hbreaks⟩, hsound⟩
      obtain ⟨own, rest, rfl⟩ := List.exists_cons_of_ne_nil (standalone_ne_nil hform)
      obtain rfl := Option.some.inj hhead
      have hwhole := hwhole own rfl
      rcases breaks with rfl | breaks
      · exact hwhole
      obtain ⟨_, _, hcons, hbegins⟩ := Directive.begins_of_first? hform.shape
      obtain ⟨rfl, rfl⟩ := List.cons.inj hcons
      have hname : own.text = Directive.name := Directive.text_of_begins hbegins
      obtain ⟨more, hmore⟩ := @leading_of_breaks own (rest ++ baseOf parts) breaks '#'
        (by rw [hname]; rfl) (by decide)
      show Trivia.Whole (Text.cutAtLastNewline (trivia ++ own.leading)).1
      rcases Text.cutAtLastNewline_cases own.leading with ⟨hnone, -⟩ | ⟨before, indent, hleading, hindent, hcut⟩
      · -- The directive begins a line, for the trivia before it is at the end of one.
        exact absurd (by simp [hmore]) hnone
      · rw [leftBehind, hcut] at hwhole
        rw [hleading, ← List.append_assoc, Text.cutAtLastNewline_append_newline _ hindent]
        refine whole.append hwhole (.inr (Trivia.breaks_append_newline (s := '\n' :: indent) ?_))
        rw [← hleading, hmore]
        exact Text.breaks_newline more
    | moved form kept tokens =>
      obtain ⟨⟨hform, hline, hwhole, hne, hbreaks, hquiet, hstart⟩, hsound⟩ := h
      rcases breaks with rfl | breaks
      · exact ⟨⟨hform, hline, hwhole, hne, hbreaks, hquiet, hstart⟩, hsound⟩
      rw [baseOf, Token.render_prepend kept hne] at breaks
      refine ⟨⟨hform, hline, whole.append hwhole (.inr (Trivia.breaks_append_newline breaks)), hne, .inr ?_, hquiet,
        hstart⟩, hsound⟩
      rcases hbreaks with rfl | hbreaks
      · exact breaks
      · exact hbreaks

theorem beginLine_of_breaks {tokens : List Token} (h : Lexed tokens) (breaks : Breaks (render tokens)) :
    BeginLine tokens := by
  obtain ⟨token, rest, rfl⟩ := List.exists_cons_of_ne_nil h.ne_nil
  refine ⟨token, rfl, or_iff_not_imp_left.2 fun hkind => ?_⟩
  obtain ⟨hleading, htext⟩ := Token.length_leading_le h.next_eq hkind
  obtain ⟨c, w, hcw⟩ := List.exists_cons_of_ne_nil htext
  by_cases hc : c = '\n'
  · -- A line break is trivia, so that the trivia before the token is not empty.
    subst hc
    cases hlead : token.leading with
    | nil =>
      rw [hlead, Token.source, hlead, hcw] at hleading
      rw [show ([] ++ '\n' :: w ++ token.trailing ++ render rest)
          = '\n' :: (w ++ token.trailing ++ render rest) by simp,
        Trivia.leading, Text.walk_take (show Trivia.leadingStep false '\n' _ = some (0, false) from rfl)] at hleading
      simp at hleading
    | cons d more =>
      have hd := breaks d (by simp [Token.source, hlead])
      simp [hd]
  · obtain ⟨more, hmore⟩ := leading_of_breaks breaks (by rw [hcw]; rfl) hc
    simp [hmore]

/-- What stands before a directive on a line of its own: the trivia from its last line break on, or a
line break if there is none. -/
def freshLeading (leading : List Char) : List Char :=
  if (Text.cutAtLastNewline leading).2 = [] then ['\n'] else (Text.cutAtLastNewline leading).2

/-- The tokens of a directive on a line of its own. -/
def onOwnLine (head : Token) (rest : List Token) : List Token :=
  { head with leading := freshLeading head.leading } :: rest

/-- A directive reads the same on a line of its own. -/
theorem standalone_onOwnLine {form : Directive} {head : Token} {rest : List Token}
    (h : form.Standalone (head :: rest)) (whole : Trivia.Whole (leftBehind head)) :
    form.Standalone (onOwnLine head rest) := by
  refine h.withLeading ?_
  rcases Text.cutAtLastNewline_cases head.leading with ⟨-, hcut⟩ | ⟨before, indent, hleading, -, hcut⟩
  · exact .inr (.inl (by simp [freshLeading, hcut]))
  · exact .inr (.inr ⟨before, indent, hleading, by rwa [leftBehind, hcut] at whole, by simp [freshLeading, hcut]⟩)

/-- A directive reads the same with its own line break only. -/
theorem standalone_cutOut {form : Directive} {head : Token} {rest : List Token}
    (h : form.Standalone (onOwnLine head rest)) : form.Standalone (cutOut head rest) := by
  by_cases hnone : (Text.cutAtLastNewline head.leading).2 = []
  · rw [cutOut, hnone]
    exact h.withLeading (.inl rfl)
  · rwa [onOwnLine, freshLeading, if_neg hnone] at h

/-- What is known of a directive among sound parts, of the trivia in front of it and of what follows. -/
structure Loose (form : Directive) (head : Token) (rest : List Token) (parts : List Part) : Prop where
  unit : form.Standalone (onOwnLine head rest)
  whole : Trivia.Whole (leftBehind head)
  breaks : leftBehind head = [] ∨ Breaks (render (baseOf parts))
  quiet : Trivia.trailing (render (baseOf parts)) = 0
  line : BeginLine (baseOf parts)
  sound : Sound parts
  lexed : Lexed (baseOf parts)
  nonempty : parts ≠ []

theorem exists_freshLeading (leading : List Char) :
    ∃ indent, freshLeading leading = '\n' :: indent ∧ '\n' ∉ indent := by
  rcases Text.cutAtLastNewline_cases leading with ⟨-, hcut⟩ | ⟨before, indent, -, hindent, hcut⟩
  · exact ⟨[], by simp [freshLeading, hcut], by simp⟩
  · exact ⟨indent, by simp [freshLeading, hcut], hindent⟩

theorem loose_of_sound {part : Part} {parts : List Part} {form : Directive} {head : Token} {rest : List Token}
    (h : Sound (part :: parts)) (hlexed : Lexed (baseOf (part :: parts))) (hform : part.form? = some form)
    (htokens : part.tokens = head :: rest) : Loose form head rest parts := by
  cases part with
  | plain token => cases hform
  | fixed form' tokens =>
    obtain rfl := Option.some.inj hform
    obtain rfl : tokens = head :: rest := htokens
    obtain ⟨⟨hunit, whole, hne, breaks⟩, hsound⟩ := h
    have hrest := hlexed.of_append hne
    have whole := whole head rfl
    exact ⟨standalone_onOwnLine hunit whole, whole, .inr breaks, Trivia.trailing_of_breaks breaks,
      beginLine_of_breaks hrest breaks, hsound, hrest, by rintro rfl; exact hne rfl⟩
  | moved form' kept tokens =>
    obtain rfl := Option.some.inj hform
    obtain ⟨⟨hunit, ⟨own, indent, hown, hleading, hindent⟩, whole, hne, breaks, quiet, line⟩, hsound⟩ := h
    obtain ⟨more, rfl⟩ := List.head?_eq_some_iff.1 hown
    obtain ⟨rfl, rfl⟩ := List.cons.inj (show _ :: more = head :: rest from htokens)
    have hcut : Text.cutAtLastNewline (kept ++ own.leading) = (kept, '\n' :: indent) := by
      rw [hleading, Text.cutAtLastNewline_append_newline kept hindent]
    have left : leftBehind { own with leading := kept ++ own.leading } = kept := by rw [leftBehind, hcut]
    have lexed := hlexed.of_prepend hne whole breaks
    rw [← left] at whole breaks
    refine ⟨?_, whole, breaks, quiet, line, hsound, lexed, by rintro rfl; exact hne rfl⟩
    have same : freshLeading (kept ++ own.leading) = own.leading := by
      rw [freshLeading, hcut, if_neg (by simp), hleading]
    show form'.Standalone ({ own with leading := freshLeading (kept ++ own.leading) } :: more)
    rw [same]
    exact hunit

theorem Loose.lexed_pend {form : Directive} {head : Token} {rest : List Token} {parts : List Part}
    (h : Loose form head rest parts) :
    Lexed (prepend (leftBehind head) (baseOf parts)) :=
  h.lexed.prepend h.whole h.breaks

/-- The trivia in front of a directive stays in the base when the directive is taken out. -/
private theorem exists_render_baseOf {part : Part} {parts : List Part} {form : Directive} {head : Token}
    {rest : List Token} (h : Sound (part :: parts)) (hform : part.form? = some form)
    (htokens : part.tokens = head :: rest) :
    ∃ s, render (baseOf (part :: parts)) = leftBehind head ++ s ∧
      (s = render (baseOf parts) ∨ Breaks (render (baseOf parts))) := by
  cases part with
  | plain token => cases hform
  | fixed form' tokens =>
    obtain rfl : tokens = head :: rest := htokens
    refine ⟨(Text.cutAtLastNewline head.leading).2
      ++ (head.text ++ (head.trailing ++ render (rest ++ baseOf parts))), ?_, .inr h.1.breaks⟩
    rw [leftBehind, ← List.append_assoc, Text.cutAtLastNewline_append]
    simp [baseOf, Token.source]
  | moved form' kept tokens =>
    obtain ⟨⟨_, ⟨own, indent, hown, hleading, hindent⟩, -, hne, -⟩, -⟩ := h
    obtain ⟨more, rfl⟩ := List.head?_eq_some_iff.1 hown
    obtain ⟨rfl, rfl⟩ := List.cons.inj (show _ :: more = head :: rest from htokens)
    have hcut : Text.cutAtLastNewline (kept ++ own.leading) = (kept, '\n' :: indent) := by
      rw [hleading, Text.cutAtLastNewline_append_newline kept hindent]
    refine ⟨render (baseOf parts), ?_, .inl rfl⟩
    rw [leftBehind, hcut, baseOf, Token.render_prepend kept hne]

/-- Where a directive was, what it leaves behind can stand alone. -/
theorem replaces_pend {part : Part} {parts : List Part} {form : Directive} {head : Token} {rest : List Token}
    (h : Sound (part :: parts)) (hlexed : Lexed (baseOf (part :: parts))) (hform : part.form? = some form)
    (htokens : part.tokens = head :: rest) :
    Replaces (part :: parts) (pend (leftBehind head) parts) := by
  have loose := loose_of_sound h hlexed hform htokens
  have hbase := baseOf_pend (leftBehind head) loose.sound
  obtain ⟨s, hs, same⟩ := exists_render_baseOf h hform htokens
  refine ⟨sound_pend loose.sound loose.nonempty loose.lexed loose.whole loose.breaks, hbase ▸ loose.lexed_pend,
    ?_, ?_, fun _ => hbase ▸ beginLine_prepend _ loose.line⟩
  all_goals rw [hbase, Token.render_prepend _ loose.lexed.ne_nil, hs]
  · rcases same with rfl | breaks
    · exact .refl _
    · exact .breaks breaks (loose.whole.apart _)
  · intro breaks
    by_cases hkept : leftBehind head = []
    · rw [hkept] at breaks ⊢
      rcases same with rfl | behind
      · exact breaks
      · exact behind
    · exact breaks_append_congr hkept breaks

/-! ## Putting a directive in -/

/-- A directive that can be put in front of other parts, where a line begins. -/
structure Fits (form : Directive) (unit : List Token) (parts : List Part) : Prop where
  standalone : form.Standalone unit
  fresh : Fresh unit
  quiet : Trivia.trailing (render (baseOf parts)) = 0
  line : BeginLine (baseOf parts)

/-- A directive can be put in at the start of a line. -/
theorem replaces_insert {form : Directive} {unit : List Token} {parts : List Part} (h : Sound parts)
    (hparts : parts ≠ []) (hlexed : Lexed (baseOf parts)) (fits : Fits form unit parts) :
    Replaces parts (.moved form [] unit :: parts) := by
  have same : baseOf (.moved form [] unit :: parts) = baseOf parts := Token.prepend_nil _
  refine ⟨⟨⟨fits.standalone, fits.fresh, Trivia.whole_nil, baseOf_ne_nil h hparts, .inl rfl, fits.quiet,
    fits.line⟩, h⟩, same ▸ hlexed, same ▸ .refl _, same ▸ id, same ▸ id⟩

/-- A directive can take the place of another one. -/
theorem replaces_reinsert {part : Part} {parts : List Part} {form form' : Directive} {head : Token}
    {rest unit : List Token}
    (h : Sound (part :: parts)) (hlexed : Lexed (baseOf (part :: parts))) (hform : part.form? = some form)
    (htokens : part.tokens = head :: rest) (fits : Fits form' unit parts) :
    Replaces (part :: parts) (.moved form' (leftBehind head) unit :: parts) := by
  have loose := loose_of_sound h hlexed hform htokens
  have left := replaces_pend h hlexed hform htokens
  have same : baseOf (.moved form' (leftBehind head) unit :: parts)
      = baseOf (pend (leftBehind head) parts) := (baseOf_pend _ loose.sound).symm
  exact ⟨⟨⟨fits.standalone, fits.fresh, loose.whole, loose.lexed.ne_nil, loose.breaks, fits.quiet, fits.line⟩,
    loose.sound⟩,
    same ▸ left.lexed, same ▸ left.like, same ▸ left.breaks, same ▸ left.line⟩

/-- Behind any part no trivia is left that would belong to the end of its line. -/
theorem quiet_of_append {front parts : List Part} (hfront : front ≠ []) (hparts : parts ≠ [])
    (h : Sound (front ++ parts))
    (hlexed : Lexed (baseOf (front ++ parts))) : Trivia.trailing (render (baseOf parts)) = 0 := by
  obtain ⟨before, last, rfl⟩ := (List.eq_nil_or_concat' front).resolve_left hfront
  rw [List.append_assoc] at h hlexed
  have own := h.of_append
  have ownLexed := lexed_baseOf_of_append h (by simp) hlexed
  cases last with
  | plain token =>
    exact @Token.Lexed.trailing_eq_zero [token] _ ownLexed (List.cons_ne_nil _ _) (baseOf_ne_nil own.2 hparts)
  | fixed form tokens => exact Trivia.trailing_of_breaks own.1.breaks
  | moved form kept tokens => exact own.1.quiet

end SwiftTemplate.Repair
