import SwiftTemplate.Program.Binding

/-!
# Arguments

The command line: one template, and options before or behind it. A long option takes its value
behind `=` or as the next argument, a short one also right behind its letter, and short options
without a value can be run together.
-/
namespace SwiftTemplate.Cli

inductive Setting
  | output
  | define
  | lineDirective
  | dump
  | dumpCode
  | compile
  | templateName
  | config
  | verbose
  | version
  deriving DecidableEq, Repr

namespace Setting

def takesValue : Setting → Bool
  | output | define | lineDirective | templateName | config => true
  | dump | dumpCode | compile | verbose | version => false

def repeatable : Setting → Bool
  | define | verbose => true
  | _ => false

def longNames : List (List Char × Setting) :=
  [("output".toList, output), ("line-directive".toList, lineDirective), ("dump".toList, dump),
   ("dump-code".toList, dumpCode), ("compile".toList, compile), ("template-name".toList, templateName),
   ("config".toList, config), ("verbose".toList, verbose), ("version".toList, version)]

def letters : List (Char × Setting) := [('o', output), ('D', define), ('v', verbose), ('V', version)]

end Setting

inductive UsageError
  | unknownOption (text : List Char)
  | missingValue (setting : Setting)
  | unexpectedValue (setting : Setting)
  | emptyValue (setting : Setting)
  | repeated (setting : Setting)
  | binding (error : Program.BindingError)
  | unexpectedArgument (text : List Char)
  | missingTemplate
  /-- Both forms of a dump are asked for. -/
  | conflict
  deriving DecidableEq, Repr

inductive Item
  | flag (setting : Setting)
  | option (setting : Setting) (value : List Char)
  | positional (text : List Char)
  | wrong (error : UsageError)
  deriving DecidableEq, Repr

namespace Item

/-- Whether an argument cannot be the value of the option before it. -/
def isOptionLike (argument : List Char) : Bool := argument.head? = some '-' && argument ≠ ['-']

/-- The items of the letters behind a dash, and the option among them that still wants its value. -/
def ofLetters : List Char → List Item × Option Setting
  | [] => ([], none)
  | c :: letters =>
    match Setting.letters.lookup c with
    | none => ([.wrong (.unknownOption [c])], none)
    | some setting =>
      if setting.takesValue then
        match letters with
        | [] => ([], some setting)
        | '=' :: value => ([.option setting value], none)
        | value => ([.option setting value], none)
      else
        let (items, waiting) := ofLetters letters
        (.flag setting :: items, waiting)

/-- The items of a long option, and whether it still wants its value. -/
def ofLong (text : List Char) : List Item × Option Setting :=
  let (name, value) :=
    match Text.cutAt? '=' text with
    | none => (text, none)
    | some (name, value) => (name, some value)
  match Setting.longNames.lookup name, value with
  | none, _ => ([.wrong (.unknownOption text)], none)
  | some setting, none => if setting.takesValue then ([], some setting) else ([.flag setting], none)
  | some setting, some value =>
    ([if setting.takesValue then .option setting value else .wrong (.unexpectedValue setting)], none)

/-- The items of an argument that is read as options or as the template. -/
def ofArgument : List Char → List Item × Option Setting
  | '-' :: '-' :: name => ofLong name
  | '-' :: c :: letters => ofLetters (c :: letters)
  | argument => ([.positional argument], none)

/-- The items of some arguments, where `waiting` is the option before them that wants its value. -/
def ofArguments (waiting : Option Setting) : List (List Char) → List Item
  | [] => waiting.toList.map fun setting => .wrong (.missingValue setting)
  | argument :: arguments =>
    match waiting with
    | some setting =>
      if isOptionLike argument then [.wrong (.missingValue setting)]
      else .option setting argument :: ofArguments none arguments
    | none =>
      if argument = ['-', '-'] then arguments.map .positional
      else
        let (items, waiting) := ofArgument argument
        items ++ ofArguments waiting arguments

end Item

structure Request where
  template : Option (List Char) := none
  output : Option (List Char) := none
  bindings : List Program.Binding := []
  marker : Option (List Char) := none
  templateName : Option (List Char) := none
  config : Option (List Char) := none
  dump : Bool := false
  dumpCode : Bool := false
  compile : Bool := false
  given : List Setting := []

namespace Request

/-- The request with an option counted as given, unless it is given twice and may not be. -/
def note (setting : Setting) (request : Request) : Except UsageError Request :=
  if !setting.repeatable && request.given.contains setting then .error (.repeated setting)
  else .ok { request with given := setting :: request.given }

def setFlag (setting : Setting) (request : Request) : Except UsageError Request := do
  let request ← request.note setting
  return match setting with
    | .dump => { request with dump := true }
    | .dumpCode => { request with dumpCode := true }
    | .compile => { request with compile := true }
    | _ => request

def setOption (setting : Setting) (value : List Char) (request : Request) : Except UsageError Request := do
  let request ← request.note setting
  match setting with
  | .output => return { request with output := some value }
  | .lineDirective => return { request with marker := some value }
  | .templateName => return { request with templateName := some value }
  | .config => if value.isEmpty then .error (.emptyValue setting) else return { request with config := some value }
  | .define =>
    match Program.Binding.read value with
    | .error error => .error (.binding error)
    | .ok binding => return { request with bindings := request.bindings ++ [binding] }
  | _ => return request

/-- The request of some items. There is none if the version is asked for before anything is wrong. -/
def ofItems (request : Request) : List Item → Except UsageError (Option Request)
  | [] => .ok (some request)
  | .wrong error :: _ => .error error
  | .flag .version :: _ => .ok none
  | .flag setting :: items => do ofItems (← request.setFlag setting) items
  | .option setting value :: items => do ofItems (← request.setOption setting value) items
  | .positional text :: items =>
    if request.template.isSome then .error (.unexpectedArgument text)
    else ofItems { request with template := some text } items

end Request

inductive Command
  | version
  | process (template : List Char) (request : Request)

def Command.ofArguments (arguments : List (List Char)) : Except UsageError Command := do
  match ← Request.ofItems {} (Item.ofArguments none arguments) with
  | none => return .version
  | some request =>
    match request.template with
    | none => .error .missingTemplate
    | some template =>
      if request.dump && request.dumpCode then .error .conflict else return .process template request

end SwiftTemplate.Cli
