import Schemata.Command.Error
import Schemata.Config
import Schemata.Glob

/-!
Finding and reading what a command works on: its configuration and its source files.
-/

namespace Schemata.Command

variable {m : Type → Type} [Monad m]

def readFile (fs : FileOps m) (path : String) : ExceptT CommandError m String := do
  match ← fs.read path with
  | .ok text => return text
  | .error fault => throw (.unreadable path fault)

def readConfig (fs : FileOps m) (path : String) : ExceptT CommandError m Config := do
  match Config.parse? (← readFile fs path) with
  | some config => return config
  | none => throw (.badConfig ("failed to parse " ++ path))

/-- The first of the paths that exists. -/
def firstExisting (fs : FileOps m) : List String → ExceptT CommandError m (Option String)
  | [] => return none
  | path :: paths => do
    if ← fs.pathExists path then return some path else firstExisting fs paths

/-- Where a configuration is looked for: in the working directory, then in the directories of the
user. -/
def configPlaces (fs : FileOps m) : ExceptT CommandError m (List String) := do
  let shared ← fs.lookupEnv "XDG_CONFIG_HOME"
  let home ← fs.lookupEnv "HOME"
  return ["meta-forge.toml"] ++
    shared.toList.map (fun base => Path.join base "meta-forge/config.toml") ++
    home.toList.map (fun base => Path.join base ".config/meta-forge/config.toml")

/-- The configuration of the path that is given, or of the first one found. -/
def loadConfig (fs : FileOps m) (path : Option String) : ExceptT CommandError m Config := do
  match path with
  | some path => readConfig fs path
  | none =>
    match ← firstExisting fs (← configPlaces fs) with
    | some path => readConfig fs path
    | none => return {}

/-- One more path at the end, unless it is there. -/
def addPath (paths : List String) (path : String) : List String :=
  if paths.any (Path.same path) then paths else paths ++ [path]

/-- The sources below a directory, in the order of their paths. -/
def sourcesBelow (fs : FileOps m) (directory extension : String) :
    ExceptT CommandError m (List String) := do
  let pattern := directory ++ "/**/*." ++ extension
  match Glob.compile? pattern with
  | none => throw (.badConfig ("invalid source pattern " ++ pattern))
  | some compiled =>
    match ← (Glob.paths fs pattern compiled).run with
    | .ok found => return found.mergeSort Path.le
    | .error (path, fault) => throw (.unreadable path fault)

/-- The source files of the arguments. A file stands for itself and a directory for the sources
below it; a file that comes twice counts where it comes first. -/
def findSources (fs : FileOps m) (extension : String) :
    List String → List String → ExceptT CommandError m (List String)
  | found, [] => return found
  | found, path :: paths => do
    if ← fs.isFile path then findSources fs extension (addPath found path) paths
    else if ← fs.isDir path then
      let below ← sourcesBelow fs path extension
      findSources fs extension (below.foldl addPath found) paths
    else throw (.noSources path)

def readSources (fs : FileOps m) : List String → ExceptT CommandError m (List SourceFile)
  | [] => return []
  | path :: paths => do
    let text ← readFile fs path
    return ⟨path, text⟩ :: (← readSources fs paths)

def loadSources (fs : FileOps m) (config : Config) (paths : List String) :
    ExceptT CommandError m SourceSet := do
  let found ← findSources fs config.sourceExtension [] paths
  if found.isEmpty then throw (.noSources (paths.head?.getD "."))
  return ⟨← readSources fs found⟩

def parseSources (sources : SourceSet) : Except CommandError Schema :=
  match sources.parse with
  | .ok schema => .ok schema
  | .error list => .error (.mistakes sources list)

def loadSchema (fs : FileOps m) (config : Config) (paths : List String) :
    ExceptT CommandError m Schema := do
  parseSources (← loadSources fs config paths)

end Schemata.Command
