import SwiftTemplate.Swift.Directive
import SwiftTemplate.Swift.Nesting

/-!
# Diagnostics

What is wrong with the shape of a program. Delimiters, pending statement headers and the token
before a place are enough to tell whether a source location directive stands where a statement may
begin, and to see the damage that a misplaced one does behind it.
-/
namespace SwiftTemplate.Swift

/-- Why a directive may not stand where it does. -/
inductive Misplacement
  | sharesLineBefore
  | sharesLineBehind
  | insideDelimiters
  | insideHeader
  | insideStatement
  | beforeRepeatCondition
  deriving DecidableEq, Repr

def Misplacement.message : Misplacement → String
  | sharesLineBefore => "must begin a line"
  | sharesLineBehind => "must end its line"
  | insideDelimiters => "cannot appear inside parentheses or brackets"
  | insideHeader => "cannot appear inside a statement header"
  | insideStatement => "interrupts an unfinished statement"
  | beforeRepeatCondition => "cannot separate `repeat` from its `while`"

inductive Complaint
  | unterminated
  | malformedDirective
  | unexpectedCloser
  | unclosed
  | strayElse
  | strayCatch
  | misplacedDirective (reasons : List Misplacement)
  | statementExpected
  deriving DecidableEq, Repr

def Complaint.message : Complaint → String
  | unterminated => "unterminated string literal or comment"
  | malformedDirective => "malformed #sourceLocation directive"
  | unexpectedCloser => "unexpected closing delimiter"
  | unclosed => "unclosed delimiter"
  | strayElse => "`else` must follow the closing brace of an `if`"
  | strayCatch => "`catch` must follow the closing brace of a `do`"
  | misplacedDirective reasons => "#sourceLocation " ++ ", ".intercalate (reasons.map Misplacement.message)
  | statementExpected => "expected a statement after #sourceLocation"

structure Diagnostic where
  first : Nat
  /-- The place behind the last token. -/
  stop : Nat
  complaint : Complaint
  deriving DecidableEq, Repr

namespace Diagnostic

def single (index : Nat) (complaint : Complaint) : Diagnostic := ⟨index, index + 1, complaint⟩

def singleIf (cause : Bool) (index : Nat) (complaint : Complaint) : List Diagnostic :=
  if cause then [single index complaint] else []

/-- Whether an operator stands right behind its operand, as in `x!` and `y?`. -/
def followsOperand (token : Token) : Bool :=
  (token.text = ['!'] || token.text = ['?']) && token.leading.isEmpty

/-- Whether an operator stands right before its operand, as in `-x` and `..<n`. -/
def precedesOperand (token : Token) : Bool :=
  ["-".toList, "+".toList, "!".toList, "~".toList, "&".toList, "..<".toList, "...".toList].contains token.text
    && token.trailing.isEmpty

/-- Whether a statement that has come to `token` must go on behind it, in the body of the header
`header`. A colon ends a case label of a `switch`. -/
def needsMore (header : Option Keyword) (token : Token) : Bool :=
  match token.kind with
  | .comma | .equal | .arrow | .dot | .atSign | .backslash | .opener .paren | .opener .square => true
  | .colon => header ≠ some .switchKw
  | .operator => !followsOperand token
  | .keyword word =>
    match word with
    | .letKw | .varKw | .asKw | .isKw | .tryKw | .awaitKw | .importKw | .typealiasKw | .whereKw
    | .caseKw | .defaultKw | .elseKw => true
    | _ => false
  | _ => false

/-- Whether no statement can begin with `token`. The words `else` and `catch` have checks of their own. -/
def cannotBegin (token : Token) : Bool :=
  match token.kind with
  | .closer .paren | .closer .square | .comma | .colon | .equal | .arrow | .dot | .opener .brace => true
  | .keyword word =>
    match word with
    | .whereKw | .inKw | .asKw | .isKw => true
    | _ => false
  | .operator => !precedesOperand token
  | _ => false

structure State where
  nesting : Nesting
  /-- The keyword of the header whose body the token just read closed. -/
  closed : Option Keyword
  deriving DecidableEq, Repr

def State.start : State := ⟨Nesting.file, none⟩

def isKind (kind : Kind) (token : Option Token) : Bool := token.any (·.kind = kind)

def misplacements (state : State) (previous : Option Token) (head : Token) (behind : Option Token) :
    List Misplacement :=
  let onlyIf (cause : Bool) (reason : Misplacement) := if cause then [reason] else []
  onlyIf (previous.isSome && !head.startsLine) .sharesLineBefore
    ++ onlyIf (behind.any fun token => token.kind ≠ .endOfText && !token.startsLine) .sharesLineBehind
    ++ (if !state.nesting.holdsStatements then [.insideDelimiters]
        else onlyIf state.nesting.awaiting.isSome .insideHeader)
    ++ onlyIf (previous.any (needsMore state.nesting.header)) .insideStatement
    ++ onlyIf (state.closed = some .repeatKw) .beforeRepeatCondition

def ofDirective (state : State) (index : Nat) (form : Directive) (previous : Option Token) (head : Token)
    (behind : Option Token) : List Diagnostic :=
  let reasons := misplacements state previous head behind
  (if reasons.isEmpty then [] else [⟨index, index + form.size, .misplacedDirective reasons⟩])
    ++ singleIf (behind.any cannotBegin) (index + form.size) .statementExpected

/-- The scopes behind the keyword of a header. It opens no header where no statement can stand,
behind a point, and in the condition of a `repeat`. -/
def beginHeader (word : Keyword) (previous : Option Token) (state : State) : Nesting :=
  let repeats := word = .whileKw && isKind (.closer .brace) previous && state.closed = some .repeatKw
  if !state.nesting.holdsStatements || isKind .dot previous || repeats then state.nesting
  else state.nesting.await (some word)

/-- What is wrong with one token that begins no directive, and what is known behind it. -/
def ofToken (state : State) (index : Nat) (previous : Option Token) (token : Token) : List Diagnostic × State :=
  match token.kind with
  | .pound => (singleIf (Directive.begins token) index .malformedDirective, ⟨state.nesting, none⟩)
  | .opener bracket => ([], ⟨state.nesting.enter bracket index, none⟩)
  | .closer bracket =>
    match state.nesting.match? bracket with
    | none => ([single index .unexpectedCloser], ⟨state.nesting, none⟩)
    | some (inside, frame, around) =>
      (inside.reverse.map fun frame => single frame.index .unclosed,
        ⟨{ state.nesting with frames := around }, frame.header⟩)
  | .semicolon => ([], ⟨state.nesting.await none, none⟩)
  | .keyword .elseKw =>
    (singleIf (!isKind (.closer .brace) previous && state.nesting.awaiting ≠ some .guardKw) index .strayElse,
      ⟨state.nesting, none⟩)
  | .keyword word =>
    if word.opensHeader then
      (singleIf (word = .catchKw && !isKind (.closer .brace) previous) index .strayCatch,
        ⟨beginHeader word previous state, none⟩)
    else ([], ⟨state.nesting, none⟩)
  | .endOfText =>
    (state.nesting.frames.reverse.map fun frame => single frame.index .unclosed,
      ⟨{ state.nesting with frames := [] }, none⟩)
  | _ => ([], ⟨state.nesting, none⟩)

/-- The diagnostics of tokens in the order in which they are found, where the first token has the
place `index` and stands behind `previous`. -/
def ofTokensFrom (state : State) (index : Nat) (previous : Option Token) : List Token → List Diagnostic
  | [] => []
  | token :: tokens =>
    let broken := singleIf token.unterminated index .unterminated
    match Directive.first? (token :: tokens) with
    | some form =>
      let behind := tokens.drop (form.size - 1)
      broken ++ ofDirective state index form previous token behind.head?
        ++ ofTokensFrom ⟨state.nesting, none⟩ (index + form.size) (token :: tokens)[form.size - 1]? behind
    | none =>
      let (found, state') := ofToken state index previous token
      broken ++ found ++ ofTokensFrom state' (index + 1) (some token) tokens
termination_by tokens => tokens.length
decreasing_by all_goals (simp only [List.length_drop, List.length_cons]; omega)

def ofTokens (tokens : List Token) : List Diagnostic := ofTokensFrom State.start 0 none tokens

end Diagnostic

end SwiftTemplate.Swift
