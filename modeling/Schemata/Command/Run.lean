import Schemata.Command.Args
import Schemata.Command.Sources
import Schemata.FullScript
import Schemata.Schema.Print
import Schemata.Diagnostic

/-!
The commands. Scripts and results go to files or to standard output, all that is said about them to
standard error. A script is written only when every script of the run has been made.
-/

namespace Schemata.Command

variable {m : Type → Type} [Monad m]

/-! ### What is said -/

/-- A line about the progress, for a person who has not asked for quiet. -/
def status (fs : FileOps m) (s : Settings) (line : String) : ExceptT CommandError m Unit :=
  if s.format = .human ∧ !s.quiet then liftM (fs.printErr (line ++ "\n")) else pure ()

def success (fs : FileOps m) (s : Settings) (line : String) : ExceptT CommandError m Unit :=
  status fs s ("ok " ++ line)

/-- A line that is shown on request only. -/
def detail (fs : FileOps m) (s : Settings) (line : String) : ExceptT CommandError m Unit :=
  if s.verbose then status fs s line else pure ()

def printJson (fs : FileOps m) (j : Json) : ExceptT CommandError m Unit :=
  liftM (fs.printOut (j.pretty ++ "\n"))

/-- The lines that tell of a failure. -/
def failureLines (format : OutputFormat) (e : CommandError) : List String :=
  match format, e with
  | .json, _ => [e.toJson.compact]
  | .plain, .mistakes sources list =>
    (sources.mistakesByFile list).flatMap fun g => g.items.map fun entry =>
      g.path ++ "\t" ++ toString entry.span.start ++ "\terror\t" ++ entry.item.message
  | .plain, _ => ["error\t" ++ e.message]
  | .human, .mistakes sources list =>
    (sources.diagnostics list).map (fun d => d.item.message) ++ ["error: " ++ e.message]
  | .human, _ => ["error: " ++ e.message]

def reportFailure (fs : FileOps m) (s : Settings) (e : CommandError) : m Unit :=
  fs.printErr (String.join ((failureLines s.format e).map (· ++ "\n")))

/-! ### Commands -/

def schemaJson (files : Nat) (schema : Schema) : Json :=
  .object [("files", .nat files),
    ("tables", .array (schema.tables.map fun t => .object [("name", t.name),
      ("columns", .nat t.columns.length), ("foreign_keys", .nat t.foreignKeys.length),
      ("indexes", .nat t.indexes.length)])),
    ("views", .nat schema.views.length), ("statements", .nat schema.statements.length),
    ("errors", .nat 0)]

/-- Checks sources, and prints them back on request. -/
def runParse (fs : FileOps m) (s : Settings) (config : Config) (paths : List String)
    (print : Bool) : ExceptT CommandError m Unit := do
  let sources ← loadSources fs config paths
  let schema ← parseSources sources
  let files := sources.files.length
  let counts := [schema.tables.length, schema.views.length, schema.statements.length]
  if print then fs.printOut schema.print
  match s.format with
  | .human =>
    for t in schema.tables do
      detail fs s ("  table " ++ t.name ++ " .... " ++ toString t.columns.length ++ " columns")
    let parts := List.zipWith (fun n what => toString n ++ what) counts
      [" tables, ", " views, ", " statements parsed from "]
    success fs s (String.join parts ++ toString files ++ " files, 0 errors")
  | .json => printJson fs (schemaJson files schema)
  | .plain =>
    if !print then
      fs.printOut ("\t".intercalate ((files :: counts ++ [0]).map toString) ++ "\n")

/-- A script that has been made for a dialect. -/
structure DialectScript where
  dialect : Dialect
  statements : Nat
  text : String
  deriving DecidableEq, Repr

def makeScript (schema : Schema) (d : Dialect) : Except CommandError DialectScript :=
  match d.fullScript schema with
  | .ok script => .ok ⟨d, script.executableCount, script.render d.delimiter⟩
  | .error e => .error (.generation e)

def writeFile (fs : FileOps m) (path text : String) : ExceptT CommandError m Unit := do
  match ← fs.write path text with
  | .ok () => return ()
  | .error fault => throw (.unwritable path fault)

def makeDirectory (fs : FileOps m) (path : String) : ExceptT CommandError m Unit := do
  match ← fs.ensureDirs path with
  | .ok () => return ()
  | .error fault => throw (.unwritable path fault)

/-- The file that a script goes to, if it does not go to standard output. -/
def GenerateArgs.target? (args : GenerateArgs) (d : Dialect) : Option String :=
  args.outputFile.or (args.outputDir.map fun dir => Path.join dir (d.id ++ ".sql"))

def writeScript (fs : FileOps m) (s : Settings) (args : GenerateArgs) (script : DialectScript) :
    ExceptT CommandError m Unit := do
  match args.target? script.dialect with
  | some path =>
    writeFile fs path script.text
    status fs s ("  " ++ script.dialect.productName ++ " .... " ++ path)
  | none => fs.printOut script.text

def writeScripts (fs : FileOps m) (s : Settings) (args : GenerateArgs) :
    List DialectScript → ExceptT CommandError m Unit
  | [] => return ()
  | script :: scripts => do
    writeScript fs s args script
    writeScripts fs s args scripts

def scriptsJson (args : GenerateArgs) (scripts : List DialectScript) : Json :=
  .object [("scripts", .array (scripts.map fun script =>
    .object [("dialect", script.dialect.id), ("statements", .nat script.statements),
      ("path", Json.orNull Json.string (args.target? script.dialect))]))]

/-- The scripts that were asked for, all of them or none. -/
def prepareScripts (fs : FileOps m) (config : Config) (args : GenerateArgs) :
    ExceptT CommandError m (List DialectScript) := do
  let dialects ← chooseDialects args.generators config.dialect
  if args.outputFile.isSome && dialects.length > 1 then
    throw (.severalDialectsForFile dialects.length)
  let schema ← loadSchema fs config args.sources
  dialects.mapM fun d => makeScript schema d

/-- Creation scripts for one or more dialects. -/
def runGenerate (fs : FileOps m) (s : Settings) (config : Config) (args : GenerateArgs) :
    ExceptT CommandError m Unit := do
  let scripts ← prepareScripts fs config args
  match args.outputDir with
  | some dir => makeDirectory fs dir
  | none => pure ()
  writeScripts fs s args scripts
  if args.outputFile.isSome || args.outputDir.isSome then
    match s.format with
    | .human => success fs s (toString scripts.length ++ " script(s) written")
    | .json => printJson fs (scriptsJson args scripts)
    | .plain => pure ()

/-- The version after another one; the last one has none. -/
def nextVersion (version : Nat) : Except CommandError Nat :=
  if version + 1 < 0x100000000 then .ok (version + 1)
  else .error (.badConfig ("--old-version " ++ toString version ++ " has no successor"))

/-- A migration script between two versions of a schema. -/
def runDiff (fs : FileOps m) (s : Settings) (config : Config) (args : DiffArgs) :
    ExceptT CommandError m Unit := do
  let dialects ← chooseDialects args.generator.toList config.dialect
  let d ← match dialects with
    | [] => throw .noDialect
    | d :: _ => pure d
  let version ← nextVersion args.oldVersion
  let old ← loadSchema fs config args.fromSources
  let new ← loadSchema fs config args.toSources
  let additional ← if args.additional.isEmpty then pure none
    else some <$> loadSchema fs config args.additional
  let options : MigrationOptions :=
    { versionTable := args.versionTable.getD config.versionTable
      versionColumn := args.versionColumn.getD config.versionColumn
      additional }
  let script ← match d.migrationScript old new version options with
    | .ok script => pure script
    | .error e => throw (.generation e)
  let text := script.render d.delimiter
  match args.outputFile with
  | none => fs.printOut text
  | some path =>
    writeFile fs path text
    match s.format with
    | .human =>
      success fs s ("migration " ++ toString args.oldVersion ++ " -> " ++ toString version ++
        " for " ++ d.productName ++ " written to " ++ path)
    | .json =>
      printJson fs (.object [("dialect", d.id), ("from", .nat args.oldVersion),
        ("to", .nat version), ("statements", .nat script.executableCount), ("path", path)])
    | .plain => pure ()

def dialectLine (d : Dialect) : String :=
  d.id ++ String.ofList (List.replicate (12 - d.id.length) ' ') ++ " " ++ d.productName

def dialectJson (d : Dialect) : Json :=
  .object [("id", d.id), ("name", d.productName), ("hint_keyword", d.keyword),
    ("inline_foreign_keys", d.capabilities.inlineForeignKeys),
    ("drop_column", d.capabilities.dropColumn)]

/-- The list of dialects. -/
def runDialects (fs : FileOps m) (s : Settings) : ExceptT CommandError m Unit := do
  match s.format with
  | .human => fs.printOut (String.join (Dialect.all.map fun d => dialectLine d ++ "\n"))
  | .json => printJson fs (.array (Dialect.all.map dialectJson))
  | .plain => fs.printOut (String.join (Dialect.all.map fun d => d.id ++ "\n"))

/-- A line that completes the names of the commands, for shells that take one. -/
def completionLine : Shell → String
  | .bash => "complete -W \"" ++ " ".intercalate commandNames ++ "\" " ++ programName ++ "\n"
  | .fish => "complete -c " ++ programName ++ " -f -a \"" ++ " ".intercalate commandNames ++ "\"\n"
  | .zsh => "compctl -k \"(" ++ " ".intercalate commandNames ++ ")\" " ++ programName ++ "\n"
  | .elvish | .powershell => ""

def runAction (fs : FileOps m) (s : Settings) (action : Action) :
    ExceptT CommandError m Unit := do
  let config ← loadConfig fs s.config
  match action with
  | .parse sources print => runParse fs s config sources print
  | .generate args => runGenerate fs s config args
  | .diff args => runDiff fs s config args
  | .dialects => runDialects fs s
  | .completions shell => fs.printOut (completionLine shell)

def usageLine : String :=
  "usage: " ++ programName ++ " [options] <" ++ "|".intercalate commandNames ++ "> [arguments]\n"

/-- Runs the command line and gives its exit status. -/
def run (fs : FileOps m) (args : List String) : m Nat := do
  match readArgs (← fs.lookupEnv "META_FORGE_CONFIG") args with
  | .error .help => do
    fs.printOut usageLine
    return 0
  | .error (.version program) => do
    fs.printOut (program ++ " " ++ programVersion ++ "\n")
    return 0
  | .error (.usage e) => do
    fs.printErr ("error: " ++ e.message ++ "\n\n" ++ usageLine)
    return 2
  | .ok (s, action) =>
    match ← (runAction fs s action).run with
    | .ok () => return 0
    | .error e => do
      reportFailure fs s e
      return e.exitCode

end Schemata.Command
