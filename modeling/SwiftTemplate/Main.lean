import SwiftTemplate.Cli.Session

/-!
# The command

Reads the files that a run needs, and prints or writes what it leaves. It starts no other programs,
so that here every command of the toolchain counts as one that cannot be started.
-/
namespace SwiftTemplate.Cli

open Toolchain (SystemErrorKind)

def readFile (path : List Char) : IO (Except SystemErrorKind (List UInt8)) := do
  try
    return .ok (← IO.FS.readBinFile (String.ofList path)).toList
  catch
    | .noFileOrDirectory .. => return .error .notFound
    | _ => return .error .other

/-- The surroundings of a run that reads the given files. -/
def surroundings (paths : List (List Char)) : IO Environment := do
  let contents ← paths.mapM fun path => return (path, ← readFile path)
  let home := (← IO.getEnv "HOME").getD "."
  let settings ← readFile (Settings.defaultPath home).toList
  let stdin ← if paths.contains ['-'] then (← IO.getStdin).readBinToEnd else pure ByteArray.empty
  return {
    stdin := stdin.toList
    read := fun path => (contents.lookup path).getD (.error .notFound)
    writable := fun _ => true
    settings := settings.toOption
    host := ⟨"/tmp".toList, fun _ => .notStarted .notFound⟩ }

def namedFiles (arguments : List (List Char)) : List (List Char) :=
  match Command.ofArguments arguments with
  | .ok (.process template request) => template :: request.config.toList
  | _ => []

end SwiftTemplate.Cli

open SwiftTemplate.Cli in
def main (arguments : List String) : IO UInt32 := do
  let arguments := arguments.map String.toList
  match run (← surroundings (namedFiles arguments)) arguments with
  | .ok (.printed text) =>
    IO.print (String.ofList text)
    return 0
  | .ok (.wrote path text) =>
    try
      IO.FS.writeFile (String.ofList path) (String.ofList text)
      return 0
    catch error =>
      IO.eprintln ("error: " ++ toString error)
      return 1
  | .error error =>
    let detail := match error with
      | .failed failure => ": " ++ String.ofList failure.message
      | _ => ""
    IO.eprintln (error.className ++ detail)
    return UInt32.ofNat error.exitStatus
