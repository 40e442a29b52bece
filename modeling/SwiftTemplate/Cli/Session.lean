import SwiftTemplate.Cli.Arguments
import SwiftTemplate.Cli.Dump
import SwiftTemplate.Rendering
import SwiftTemplate.Settings

/-!
# Sessions

One run of the command: what it reads, what it prints or writes, and how it ends.
-/
namespace SwiftTemplate.Cli

open Toolchain (Failure Host SystemErrorKind)

structure Environment where
  stdin : List UInt8
  read : List Char → Except SystemErrorKind (List UInt8)
  writable : List Char → Bool
  /-- The content of the default settings file, if it exists. -/
  settings : Option (List UInt8)
  host : Host

inductive SessionError
  | usage (error : UsageError)
  | settings (error : SettingsError)
  | unreadable (path : List Char) (kind : SystemErrorKind)
  | unwritable (path : List Char)
  | failed (failure : Failure)

namespace SessionError

def exitStatus : SessionError → Nat
  | usage _ => 2
  | _ => 1

/-- The word that an error is reported under. -/
def className : SessionError → String
  | failed failure => failure.classify.name
  | _ => "error"

end SessionError

inductive Result
  | printed (text : List Char)
  | wrote (path text : List Char)

def versionText : List Char := "stitch 0.1.0\n".toList

def loadSettings (environment : Environment) (config : Option (List Char)) : Except SessionError Settings :=
  let loaded :=
    match config with
    | none => Settings.ofDefaultFile environment.settings
    | some path =>
      match environment.read path with
      | .error kind => .error (.unreadable kind)
      | .ok bytes => Settings.ofBytes bytes
  loaded.mapError .settings

/-- The template of a run, from standard input if its path is `-`. -/
def loadTemplate (environment : Environment) (path : List Char) : Except SessionError (List Char) := do
  let bytes ← if path = ['-'] then .ok environment.stdin
    else (environment.read path).mapError (.unreadable path)
  match Text.Utf8.decode? bytes with
  | none => .error (.unreadable path .invalidData)
  | some text => .ok text

def templateName (path : List Char) (request : Request) : List Char :=
  request.templateName.getD (if path = ['-'] then "stdin".toList else path)

def process (environment : Environment) (settings : Settings) (request : Request) (name template : List Char) :
    Except SessionError (List Char) :=
  let options : Program.Options := ⟨name, request.bindings, request.marker <|> settings.marker⟩
  let commands := { settings.commands with forceCompile := settings.commands.forceCompile || request.compile }
  if request.dump then .ok (dump (Template.Node.ofText template))
  else if request.dumpCode then .ok (generate template options)
  else (render template options commands environment.host).mapError .failed

/-- Puts a text where a request wants it: on standard output if the path is `-`, or in a file. -/
def deliver (environment : Environment) (request : Request) (text : List Char) : Except SessionError Result :=
  let path := request.output.getD ['-']
  if path = ['-'] then .ok (.printed text)
  else if environment.writable path then .ok (.wrote path text)
  else .error (.unwritable path)

def run (environment : Environment) (arguments : List (List Char)) : Except SessionError Result := do
  match ← (Command.ofArguments arguments).mapError .usage with
  | .version => return .printed versionText
  | .process path request =>
    let settings ← loadSettings environment request.config
    let template ← loadTemplate environment path
    let text ← process environment settings request (templateName path request) template
    deliver environment request text

end SwiftTemplate.Cli
