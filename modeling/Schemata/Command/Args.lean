import Schemata.Command.Options
import Schemata.Text.Split

/-!
Reading the command line. Options stand before the name of a command or after it; what stands after
it counts more.
-/

namespace Schemata.Command

inductive UsageError where
  | unknownOption (name : String)
  | unexpectedValue (option : String)
  | missingValue (option : String)
  | invalidValue (option value : String)
  | repeated (option : String)
  | conflict (option other : String)
  | missing (what : String)
  | unexpectedArgument (text : String)
  | unknownCommand (name : String)
  | missingCommand
  deriving DecidableEq, Repr

def UsageError.message : UsageError → String
  | unknownOption name => "unexpected option '" ++ name ++ "'"
  | unexpectedValue option => "option '" ++ option ++ "' takes no value"
  | missingValue option => "option '" ++ option ++ "' needs a value"
  | invalidValue option value => "invalid value '" ++ value ++ "' for '" ++ option ++ "'"
  | repeated option => "option '" ++ option ++ "' is given more than once"
  | conflict option other => "option '" ++ option ++ "' cannot be used with '" ++ other ++ "'"
  | missing what => "missing " ++ what
  | unexpectedArgument text => "unexpected argument '" ++ text ++ "'"
  | unknownCommand name => "unknown command '" ++ name ++ "'"
  | missingCommand => "a command is needed"

/-- Why no command is run. -/
inductive Stop where
  | usage (error : UsageError)
  | help
  | version (program : String)
  deriving DecidableEq, Repr

/-- A number that fits into 32 bits; it may have a sign. -/
def word32? (text : String) : Option Nat :=
  let (negative, digits) := match text.toList with
    | '-' :: cs => (true, cs)
    | '+' :: cs => (false, cs)
    | cs => (false, cs)
  let value := digits.foldl (fun n c => 10 * n + (c.toNat - '0'.toNat)) 0
  if digits.isEmpty ∨ !digits.all Char.isDigit then none
  else if negative then (if value = 0 then some 0 else none)
  else if value < 0x100000000 then some value
  else none

def ValueKind.accepts : ValueKind → String → Bool
  | text, _ => true
  | path, value => value != ""
  | oneOf choices, value => choices.contains value
  | word32, value => (word32? value).isSome

namespace OptionSpec

def text (s : OptionSpec) : String :=
  "--" ++ s.names.head?.getD ""

end OptionSpec

/-- What has been read of the arguments before or after the name of a command. An option whose
values are still coming is pending. -/
structure Level where
  given : List (OptionId × List String) := []
  arguments : List String := []
  pending : Option (OptionSpec × List String) := none
  deriving DecidableEq, Repr

/-- What may stand in a level, and the name of the program there. -/
structure Layout where
  program : String
  specs : List OptionSpec
  commands : List String := []
  maxArguments : Option Nat := some 0
  argumentKind : ValueKind := .path
  deriving DecidableEq, Repr

namespace Level

def has (l : Level) (id : OptionId) : Bool :=
  l.given.any fun entry => entry.1 == id

def values (l : Level) (id : OptionId) : List String :=
  (l.given.filter fun entry => entry.1 == id).flatMap (·.2)

def value? (l : Level) (id : OptionId) : Option String :=
  (l.values id).getLast?

/-- Whether the next argument is a value of the pending option, if it is no option itself. -/
def wantsValue (l : Level) : Bool :=
  match l.pending with
  | none => false
  | some (spec, values) => spec.takes == .list || values.isEmpty

/-- An option with its values, complete. -/
def settle (program : String) (l : Level) (spec : OptionSpec) (values : List String) :
    Except Stop Level := do
  if spec.takes ≠ .nothing ∧ values.isEmpty then throw (.usage (.missingValue spec.text))
  match spec.id with
  | .help => throw .help
  | .version => throw (.version program)
  | id =>
    if !spec.repeats && l.has id then throw (.usage (.repeated spec.text))
    match values.find? fun value => !spec.kind.accepts value with
    | some value => throw (.usage (.invalidValue spec.text value))
    | none => return { l with given := l.given ++ [(id, values)] }

/-- Completes the pending option. -/
def settlePending (program : String) (l : Level) : Except Stop Level :=
  match l.pending with
  | none => .ok l
  | some (spec, values) => settle program { l with pending := none } spec values

/-- An option whose value, if any, stands in the same argument. -/
def addOption (program : String) (l : Level) (spec : OptionSpec) (attached : Option String) :
    Except Stop Level := do
  let l ← settlePending program l
  match spec.takes, attached with
  | .nothing, _ => settle program l spec []
  | _, some value => settle program l spec [value]
  | _, none => return { l with pending := some (spec, []) }

/-- Letters after a single dash. The first option that takes a value takes the rest as its value. -/
def addLetters (layout : Layout) : Level → List Char → Except Stop Level
  | l, [] => .ok l
  | l, c :: cs => do
    match layout.specs.find? fun s => s.letter == some c with
    | none => throw (.usage (.unknownOption (String.ofList ['-', c])))
    | some spec =>
      if spec.takes = .nothing then addLetters layout (← addOption layout.program l spec none) cs
      else
        match cs with
        | [] => addOption layout.program l spec none
        | '=' :: value | value => addOption layout.program l spec (some (String.ofList value))

/-- A name after two dashes, with its value after an equals sign. -/
def addLong (layout : Layout) (l : Level) (cs : List Char) : Except Stop Level := do
  let name := String.ofList (cs.takeWhile (· != '='))
  match layout.specs.find? fun s => s.names.contains name, cs.dropWhile (· != '=') with
  | none, _ => throw (.usage (.unknownOption ("--" ++ name)))
  | some spec, [] => addOption layout.program l spec none
  | some spec, _ :: value =>
    if spec.takes = .nothing then throw (.usage (.unexpectedValue spec.text))
    else addOption layout.program l spec (some (String.ofList value))

def addArgument (layout : Layout) (l : Level) (text : String) : Except Stop Level := do
  let l ← settlePending layout.program l
  if layout.maxArguments.any (· ≤ l.arguments.length) then
    throw (.usage (.unexpectedArgument text))
  if !layout.argumentKind.accepts text then throw (.usage (.invalidValue "argument" text))
  return { l with arguments := l.arguments ++ [text] }

/-- Reads up to the name of a command, which comes with the arguments after it, or to the end. -/
def read (layout : Layout) :
    Level → List String → Except Stop (Level × Option (String × List String))
  | l, [] => .ok (l, none)
  | l, arg :: rest => do
    if !l.wantsValue && layout.commands.contains arg then return (l, some (arg, rest))
    match arg.toList with
    | ['-', '-'] => return (← rest.foldlM (addArgument layout) l, none)
    | '-' :: '-' :: cs => read layout (← addLong layout l cs) rest
    | '-' :: c :: cs => read layout (← addLetters layout l (c :: cs)) rest
    | _ =>
      match l.wantsValue, l.pending with
      | true, some (spec, values) =>
        read layout { l with pending := some (spec, values ++ [arg]) } rest
      | _, _ => read layout (← addArgument layout l arg) rest

/-- Completes a level: two options that exclude each other must not both be there. -/
def finish (layout : Layout) (configVariable : Option String) (l : Level) :
    Except Stop Level := do
  let l ← settlePending layout.program l
  if !l.has .config && configVariable = some "" then
    throw (.usage (.invalidValue "--config" ""))
  if l.has .quiet && l.has .verbose then throw (.usage (.conflict "--quiet" "--verbose"))
  if l.has .outputFile && l.has .outputDir then
    throw (.usage (.conflict "--output-file" "--output-dir"))
  return l

/-- The values of an option that has to be there. -/
def required (l : Level) (id : OptionId) (what : String) : Except Stop (List String) :=
  if l.has id then .ok (l.values id) else .error (.usage (.missing what))

end Level

inductive OutputFormat where
  | human
  | json
  | plain
  deriving DecidableEq, Repr

def OutputFormat.ofName : String → OutputFormat
  | "json" => json
  | "plain" => plain
  | _ => human

/-- Options that hold for every command. -/
structure Settings where
  config : Option String := none
  format : OutputFormat := .human
  verbose : Bool := false
  quiet : Bool := false
  deriving DecidableEq, Repr

structure GenerateArgs where
  sources : List String
  generators : List String := []
  outputFile : Option String := none
  outputDir : Option String := none
  deriving DecidableEq, Repr

structure DiffArgs where
  fromSources : List String
  toSources : List String
  oldVersion : Nat
  generator : Option String := none
  outputFile : Option String := none
  additional : List String := []
  versionTable : Option String := none
  versionColumn : Option String := none
  deriving DecidableEq, Repr

inductive Action where
  | parse (sources : List String) (print : Bool)
  | generate (args : GenerateArgs)
  | diff (args : DiffArgs)
  | dialects
  | completions (shell : Shell)
  deriving DecidableEq, Repr

def programName : String := "meta-forge"

def programVersion : String := "0.3.0"

def commandNames : List String :=
  ["parse", "generate", "diff", "dialects", "completions"]

def topLayout : Layout :=
  { program := programName, specs := OptionSpec.everywhere, commands := commandNames ++ ["help"] }

/-- The layout after the name of a command. -/
def commandLayout (name : String) : Layout :=
  let base : Layout := { program := programName ++ "-" ++ name, specs := OptionSpec.everywhere }
  match name with
  | "parse" => { base with specs := base.specs ++ OptionSpec.ofParse, maxArguments := none }
  | "generate" => { base with specs := base.specs ++ OptionSpec.ofGenerate }
  | "diff" => { base with specs := base.specs ++ OptionSpec.ofDiff }
  | "completions" =>
    { base with maxArguments := some 1, argumentKind := .oneOf (Shell.all.map Shell.name) }
  | _ => base

/-- The command with its arguments, from what stands after its name. -/
def commandOf (name : String) (l : Level) : Except Stop Action := do
  match name with
  | "parse" =>
    if l.arguments.isEmpty then throw (.usage (.missing "sources"))
    return .parse l.arguments (l.has .print)
  | "generate" =>
    return .generate
      { sources := ← l.required .sources "--sql"
        generators := (l.values .generator).flatMap (splitText ',')
        outputFile := l.value? .outputFile, outputDir := l.value? .outputDir }
  | "diff" =>
    let version := (← l.required .oldVersion "--old-version").getLast?
    return .diff
      { fromSources := ← l.required .fromSources "--from"
        toSources := ← l.required .toSources "--to"
        oldVersion := (version.bind word32?).getD 0
        generator := l.value? .generator, outputFile := l.value? .outputFile
        additional := l.values .additional
        versionTable := l.value? .versionTable, versionColumn := l.value? .versionColumn }
  | "completions" =>
    match l.arguments.head?.bind Shell.ofName? with
    | some shell => return .completions shell
    | none => throw (.usage (.missing "shell"))
  | _ => return .dialects

/-- What holds for the command: options after its name, else before it, else the variable. -/
def settingsOf (configVariable : Option String) (top own : Level) : Settings :=
  let pick (id : OptionId) : Option String := (own.value? id).or (top.value? id)
  { config := (pick .config).or configVariable
    format := ((pick .format).map OutputFormat.ofName).getD .human
    verbose := own.has .verbose || top.has .verbose
    quiet := own.has .quiet || top.has .quiet }

/-- Help on nothing in particular or on one command. -/
def helpOn : List String → Stop
  | [] => .help
  | [name] => if topLayout.commands.contains name then .help else .usage (.unknownCommand name)
  | _ :: name :: _ => .usage (.unknownCommand name)

/-- Reads the arguments after the name of the program. -/
def readArgs (configVariable : Option String) (args : List String) :
    Except Stop (Settings × Action) := do
  match ← Level.read topLayout {} (expandSingleDash args) with
  | (_, some ("help", rest)) => throw (helpOn rest)
  | (top, some (name, rest)) =>
    let layout := commandLayout name
    match ← Level.read layout {} rest with
    | (own, _) =>
      let own ← own.finish layout configVariable
      let command ← commandOf name own
      let top ← top.finish topLayout configVariable
      return (settingsOf configVariable top own, command)
  | (top, none) =>
    let _ ← top.finish topLayout configVariable
    throw (.usage .missingCommand)

end Schemata.Command
