/-!
# Keywords

The reserved words of Swift. The ones that shape statements are told apart; all others are one kind.
-/
namespace SwiftTemplate.Swift

inductive Keyword
  | ifKw | elseKw | guardKw | whileKw | repeatKw | forKw | inKw | switchKw | caseKw | defaultKw
  | doKw | catchKw | whereKw | funcKw | initKw | structKw | classKw | enumKw | extensionKw
  | protocolKw | letKw | varKw | asKw | isKw | tryKw | awaitKw | importKw | typealiasKw
  | other
  deriving DecidableEq, Repr

namespace Keyword

/-- The words that shape statements, by spelling. -/
def spellings : List (List Char × Keyword) :=
  [("if".toList, ifKw), ("else".toList, elseKw), ("guard".toList, guardKw),
   ("while".toList, whileKw), ("repeat".toList, repeatKw), ("for".toList, forKw),
   ("in".toList, inKw), ("switch".toList, switchKw), ("case".toList, caseKw),
   ("default".toList, defaultKw), ("do".toList, doKw), ("catch".toList, catchKw),
   ("where".toList, whereKw), ("func".toList, funcKw), ("init".toList, initKw),
   ("struct".toList, structKw), ("class".toList, classKw), ("enum".toList, enumKw),
   ("extension".toList, extensionKw), ("protocol".toList, protocolKw), ("let".toList, letKw),
   ("var".toList, varKw), ("as".toList, asKw), ("is".toList, isKw), ("try".toList, tryKw),
   ("await".toList, awaitKw), ("import".toList, importKw), ("typealias".toList, typealiasKw)]

/-- The reserved words that play no part in the shape of a statement. -/
def others : List (List Char) :=
  ["break", "continue", "return", "throw", "fallthrough", "defer", "deinit", "subscript",
   "operator", "associatedtype", "static", "private", "fileprivate", "internal", "public", "open",
   "inout", "throws", "rethrows", "true", "false", "nil", "self", "Self", "super", "Any"].map
    String.toList

def ofName? (name : List Char) : Option Keyword :=
  match spellings.lookup name with
  | some word => some word
  | none => if others.contains name then some other else none

/-- Whether the word opens a statement header, which is complete only where its `{` body begins. -/
def opensHeader : Keyword → Bool
  | ifKw | guardKw | whileKw | forKw | switchKw | funcKw | initKw | structKw | classKw | enumKw
  | extensionKw | protocolKw | repeatKw | doKw | catchKw => true
  | _ => false

end Keyword

end SwiftTemplate.Swift
