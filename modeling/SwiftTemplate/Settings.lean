import SwiftTemplate.Text.Utf8
import SwiftTemplate.Toolchain.Run
import SwiftTemplate.Yaml.Value

/-!
# Settings

The commands and output defaults that a user keeps in a file. Every entry may be left out, and
entries that are not known are passed over.
-/
namespace SwiftTemplate

structure Settings where
  commands : Toolchain.Commands
  marker : Option (List Char)
  deriving DecidableEq, Repr

inductive SettingsError
  | unreadable (kind : Toolchain.SystemErrorKind)
  | malformed
  deriving DecidableEq, Repr

namespace Settings

open Yaml (Value)

def standard : Settings := ⟨.standard, none⟩

def defaultPath (home : String) : String := home ++ "/.stitch/config.yaml"

/-- The text of a scalar. Numbers and truth values are texts where a text is wanted. -/
def text? : Value → Option (List Char)
  | .scalar _ text => some text
  | _ => none

/-- The texts of a sequence, which may be left out. -/
def texts? : Value → Option (List (List Char))
  | .sequence items => items.mapM text?
  | .scalar true [] => some []
  | _ => none

/-- The text of a scalar that may be null. -/
def nullable? : Value → Option (Option (List Char))
  | .scalar plain text =>
    let isNull := text.isEmpty || ["~", "null", "Null", "NULL"].contains (String.ofList text)
    some (if plain && isNull then none else some text)
  | _ => none

/-- A truth value, which is a plain scalar. -/
def truth? : Value → Option Bool
  | .scalar true text =>
    if ["true", "True", "TRUE"].contains (String.ofList text) then some true
    else if ["false", "False", "FALSE"].contains (String.ofList text) then some false
    else none
  | _ => none

def set (settings : Settings) (name : String) (value : Value) : Option Settings :=
  let commands := settings.commands
  match name with
  | "swift" => do return { settings with commands := { commands with interpreter := ← text? value } }
  | "swiftc" => do return { settings with commands := { commands with compiler := ← text? value } }
  | "compiler_flags" => do return { settings with commands := { commands with compilerFlags := ← texts? value } }
  | "line_directive" => do return { settings with marker := ← nullable? value }
  | "force_compile" => do return { settings with commands := { commands with forceCompile := ← truth? value } }
  | _ => some settings

def names : List String := ["swift", "swiftc", "compiler_flags", "line_directive", "force_compile"]

/-- The settings with some entries put in, none of them twice. -/
def setAll (settings : Settings) (seen : List String) : List (Value × Value) → Option Settings
  | [] => some settings
  | (key, value) :: entries => do
    let name := String.ofList (← text? key)
    if names.contains name && seen.contains name then none
    else setAll (← settings.set name value) (name :: seen) entries

def ofValue? : Value → Option Settings
  | .mapping entries => standard.setAll [] entries
  | .scalar true [] => some standard
  | _ => none

def ofBytes (bytes : List UInt8) : Except SettingsError Settings :=
  match Text.Utf8.decode? bytes with
  | none => .error (.unreadable .invalidData)
  | some text =>
    match (Yaml.read? text).bind ofValue? with
    | none => .error .malformed
    | some settings => .ok settings

/-- The settings of a file that was asked for, given by its content if it exists. -/
def ofFile (file : Option (List UInt8)) : Except SettingsError Settings :=
  match file with
  | none => .error (.unreadable .notFound)
  | some bytes => ofBytes bytes

/-- The settings of the default file, which need not exist. -/
def ofDefaultFile (file : Option (List UInt8)) : Except SettingsError Settings :=
  match file with
  | none => .ok standard
  | some bytes => ofBytes bytes

end Settings

end SwiftTemplate
