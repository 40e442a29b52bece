import SwiftTemplate.Swift.Token

/-!
# Source location directives

A directive `#sourceLocation(file: "name", line: N)` tells the compiler which line of which file
the following line is. It is ten tokens long. The form `#sourceLocation()`, three tokens long,
returns to the program's own lines.
-/
namespace SwiftTemplate.Swift

inductive Directive
  | located
  | reset
  deriving DecidableEq, Repr

namespace Directive

def name : List Char := "#sourceLocation".toList

def size : Directive → Nat
  | located => 10
  | reset => 3

/-- The place of the line number among the tokens of a directive. -/
def lineToken : Nat := 8

def render (file : List Char) (line : Nat) : List Char :=
  name ++ "(file: ".toList ++ Literal.quote file ++ ", line: ".toList ++ Text.Decimal.write line ++ [')']

/-- Whether a token begins a directive, well formed or not. -/
def begins (token : Token) : Bool := token.kind = .pound && token.text = name

def isLabel (label : String) (token : Token) : Bool :=
  token.kind = .identifier && token.text = label.toList

/-- Whether tokens begin with the arguments of a directive behind its opening parenthesis. -/
def locates : List Token → Bool
  | file :: fileColon :: path :: comma :: line :: lineColon :: number :: close :: _ =>
    isLabel "file" file && fileColon.kind = .colon && path.kind = .string && !path.unterminated
      && comma.kind = .comma && isLabel "line" line && lineColon.kind = .colon
      && number.kind = .integer && close.kind = .closer .paren
  | _ => false

/-- The directive that the first of some tokens begins, if it is well formed. -/
def first? : List Token → Option Directive
  | head :: paren :: arguments =>
    if begins head && paren.kind = .opener .paren then
      if arguments.head?.any (·.kind = .closer .paren) then some reset
      else if locates arguments then some located
      else none
    else none
  | _ => none

/-- The bound of the lines that a directive can announce, 2^64. -/
def lineBound : Nat := 0x10000000000000000

/-- The line that the directive at the start of some tokens announces. There is none in the form
without arguments, and none if the number is not a decimal one below the bound. -/
def announced? (tokens : List Token) : Option Nat :=
  if first? tokens = some located then
    match tokens[lineToken]? with
    | none => none
    | some number => (Text.Decimal.read? (number.text.filter (· ≠ '_'))).filter (· < lineBound)
  else none

/-- The places and forms of the directives among tokens, where the first token has the place
`index`. The tokens of a directive begin no other. -/
def places (index : Nat) : List Token → List (Nat × Directive)
  | [] => []
  | token :: tokens =>
    match first? (token :: tokens) with
    | none => places (index + 1) tokens
    | some form => (index, form) :: places (index + form.size) (tokens.drop (form.size - 1))
termination_by tokens => tokens.length
decreasing_by all_goals (simp only [List.length_drop, List.length_cons]; omega)

theorem size_pos (form : Directive) : 0 < form.size := by cases form <;> decide

theorem kind_of_begins {token : Token} (h : begins token = true) : token.kind = .pound :=
  of_decide_eq_true (Bool.and_eq_true_iff.1 h).1

theorem text_of_begins {token : Token} (h : begins token = true) : token.text = name :=
  of_decide_eq_true (Bool.and_eq_true_iff.1 h).2

theorem begins_of_first? {tokens : List Token} {form : Directive} (h : first? tokens = some form) :
    ∃ head rest, tokens = head :: rest ∧ begins head = true := by
  unfold first? at h
  split at h
  · next head paren arguments =>
    split at h
    · next both => exact ⟨head, paren :: arguments, rfl, (Bool.and_eq_true_iff.1 both).1⟩
    · cases h
  · cases h

/-- Every place that is listed holds a directive. -/
theorem first?_drop_of_mem_places {start : Nat} {tokens : List Token} {index : Nat} {form : Directive}
    (h : (index, form) ∈ places start tokens) :
    start ≤ index ∧ first? (tokens.drop (index - start)) = some form := by
  fun_induction places start tokens with
  | case1 => simp at h
  | case2 start token tokens hnone ih =>
    obtain ⟨hle, hform⟩ := ih h
    refine ⟨by omega, ?_⟩
    rwa [show index - start = index - (start + 1) + 1 by omega, List.drop_succ_cons]
  | case3 start token tokens found hsome ih =>
    rcases List.mem_cons.1 h with heq | hmem
    · cases heq; exact ⟨Nat.le_refl _, by simpa using hsome⟩
    · obtain ⟨hle, hform⟩ := ih hmem
      have := size_pos found
      refine ⟨by omega, ?_⟩
      rw [show index - start = (found.size - 1 + (index - (start + found.size))) + 1 by omega,
        List.drop_succ_cons, ← List.drop_drop]
      exact hform

end Directive

end SwiftTemplate.Swift
