import SwiftTemplate.Template.Node
import SwiftTemplate.Text.Decimal

/-!
# Dumps

The nodes of a template as a JSON text, indented by two spaces.
-/
namespace SwiftTemplate.Cli

open Template (Node)

def hexDigit (n : Nat) : Char := if n < 10 then Char.ofNat (48 + n) else Char.ofNat (87 + n)

def jsonChar (c : Char) : List Char :=
  if c = '"' then ['\\', '"']
  else if c = '\\' then ['\\', '\\']
  else if c = '\n' then ['\\', 'n']
  else if c = '\r' then ['\\', 'r']
  else if c = '\t' then ['\\', 't']
  else if c = '\x08' then ['\\', 'b']
  else if c = '\x0C' then ['\\', 'f']
  else if c.toNat < 32 then ['\\', 'u', '0', '0', hexDigit (c.toNat / 16), hexDigit (c.toNat % 16)]
  else [c]

def jsonString (text : List Char) : List Char := '"' :: (text.flatMap jsonChar ++ ['"'])

/-- A member of a JSON object, on a line of its own. -/
def jsonMember (name : String) (value : List Char) : List Char :=
  "    ".toList ++ jsonString name.toList ++ [':', ' '] ++ value

def jsonNode (node : Node) : List Char :=
  let members :=
    match node.content with
    | .output (.literal text) => [jsonMember "kind" (jsonString "literal".toList), jsonMember "text" (jsonString text)]
    | .output (.expression code) =>
      [jsonMember "kind" (jsonString "substitution".toList), jsonMember "expression" (jsonString code)]
    | .code text => [jsonMember "kind" (jsonString "code".toList), jsonMember "text" (jsonString text)]
  let members := members ++ [jsonMember "offset" (Text.Decimal.write node.offset)]
  "  \x7b\n".toList ++ [',', '\n'].intercalate members ++ "\n  \x7d".toList

def dump (nodes : List Node) : List Char :=
  if nodes.isEmpty then "[]\n".toList
  else "[\n".toList ++ [',', '\n'].intercalate (nodes.map jsonNode) ++ "\n]\n".toList

end SwiftTemplate.Cli
