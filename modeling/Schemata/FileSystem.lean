import Schemata.Path

/-!
What a command does with files. The operations are a record over some monad, so that a command can
run on the files of a machine and, all the same, on a tree of files in memory.
-/

namespace Schemata

/-- Why an operation on a file fails. -/
inductive FileFault where
  | notFound
  | notDirectory
  | isDirectory
  | alreadyExists
  | nameTooLong
  | other (text : String)
  deriving DecidableEq, Repr

def FileFault.message : FileFault → String
  | notFound => "No such file or directory (os error 2)"
  | notDirectory => "Not a directory (os error 20)"
  | isDirectory => "Is a directory (os error 21)"
  | alreadyExists => "File exists (os error 17)"
  | nameTooLong => "File name too long (os error 36)"
  | other text => text

/-- The operations; no path leads through more than `maxDepth` directories. -/
structure FileOps (m : Type → Type) where
  isFile : String → m Bool
  isDir : String → m Bool
  pathExists : String → m Bool
  list : String → m (Except FileFault (List String))
  read : String → m (Except FileFault String)
  write : String → String → m (Except FileFault Unit)
  createDir : String → m (Except FileFault Unit)
  printOut : String → m Unit
  printErr : String → m Unit
  lookupEnv : String → m (Option String)
  maxDepth : Nat

namespace FileOps

variable {m : Type → Type} [Monad m]

/-- Makes a directory, unless it is there. -/
def ensureDir (fs : FileOps m) (path : String) : m (Except FileFault Unit) := do
  match ← fs.createDir path with
  | .ok () => return .ok ()
  | .error e => return if ← fs.isDir path then .ok () else .error e

/-- Makes the first directory. Where it is not found, those after it come first. -/
def ensureFirst (fs : FileOps m) : List String → m (Except FileFault Unit)
  | [] => return .ok ()
  | path :: above => do
    match ← fs.ensureDir path with
    | .error .notFound =>
      match ← ensureFirst fs above with
      | .ok () => fs.ensureDir path
      | .error e => return .error e
    | result => return result

/-- Makes a directory and what is missing above it. A dot at the end of the path stands for a
directory that has to be there already. -/
def ensureDirs (fs : FileOps m) (path : String) : m (Except FileFault Unit) :=
  ensureFirst fs (path :: Path.ancestors path)

end FileOps

/-- What is found at a place. All that is written to the null device is lost. -/
inductive FileEntry where
  | file (text : String)
  | directory
  | nullDevice
  deriving DecidableEq, Repr

/-- Files and directories by the names that lead to them from the working directory, which is the
place without names. Above it there are dots, and places from the root on begin with a slash. -/
structure FileTree where
  files : List (List String × String) := []
  dirs : List (List String) := []
  deriving DecidableEq, Repr

namespace FileTree

/-- The working directory, what is above it, and the way to the null device. -/
def isFixedDir (place : List String) : Bool :=
  place.all (· == "..") || place == ["/"] || place == ["/", "dev"]

def entry? (t : FileTree) (place : List String) : Option FileEntry :=
  match t.files.lookup place with
  | some text => some (.file text)
  | none =>
    if isFixedDir place || t.dirs.contains place then some .directory
    else if place = ["/", "dev", "null"] then some .nullDevice
    else none

/-- The place of the directory above; there is none above the root. -/
def placeAbove (place : List String) : List String :=
  if place.all (· == "..") then place ++ [".."]
  else if place = ["/"] then place
  else place.dropLast

/-- The bytes that a name may have. -/
def maxNameSize : Nat := 255

/-- The bytes that a path may have. -/
def maxPathSize : Nat := 4095

/-- Goes on from a place, piece by piece. Only a directory can be left or entered. -/
def walk (t : FileTree) (place : List String) : List String → Except FileFault (List String)
  | [] => .ok place
  | piece :: pieces =>
    match t.entry? place with
    | none => .error .notFound
    | some .directory =>
      if piece = "" ∨ piece = "." then walk t place pieces
      else if piece = ".." then walk t (placeAbove place) pieces
      else if maxNameSize < piece.utf8ByteSize then .error .nameTooLong
      else walk t (place ++ [piece]) pieces
    | some _ => .error .notDirectory

/-- Goes along some pieces of a path. -/
def follow (t : FileTree) (path : String) (pieces : List String) :
    Except FileFault (List String) :=
  if path = "" then .error .notFound
  else if maxPathSize < path.utf8ByteSize then .error .nameTooLong
  else t.walk (if Path.isAbsolute path then ["/"] else []) pieces

def stat (t : FileTree) (path : String) : Except FileFault FileEntry := do
  match t.entry? (← t.follow path (splitText '/' path)) with
  | some entry => return entry
  | none => throw .notFound

def isFile (t : FileTree) (path : String) : Bool :=
  match t.stat path with
  | .ok (.file _) => true
  | _ => false

def isDir (t : FileTree) (path : String) : Bool :=
  match t.stat path with
  | .ok .directory => true
  | _ => false

def pathExists (t : FileTree) (path : String) : Bool :=
  (t.stat path).isOk

def read (t : FileTree) (path : String) : Except FileFault String := do
  match ← t.stat path with
  | .file text => return text
  | .directory => throw .isDirectory
  | .nullDevice => return ""

/-- The last name of a place right below another one. -/
def childName? (place child : List String) : Option String :=
  if child.dropLast = place then child.getLast? else none

/-- The most names that lead to a file or directory. -/
def depth (t : FileTree) : Nat :=
  ((t.files.map (·.1) ++ t.dirs).map List.length).foldl max 0

/-- Names of what is in a directory. -/
def list (t : FileTree) (path : String) : Except FileFault (List String) := do
  let place ← t.follow path (splitText '/' path)
  match t.entry? place with
  | some .directory =>
    return (t.files.map (·.1) ++ t.dirs).filterMap (childName? place)
  | some _ => throw .notDirectory
  | none => throw .notFound

def setFile (t : FileTree) (place : List String) (text : String) : FileTree :=
  { t with files := t.files.filter (fun f => f.1 != place) ++ [(place, text)] }

/-- Whether a path ends in a slash or in dots, so that it can only be one of a directory. -/
def namesDirectory (path : String) : Bool :=
  ((splitText '/' path).getLast?.getD "") ∈ ["", ".", ".."]

/-- Writes a file, which may be new, in a directory that is there. -/
def write (t : FileTree) (path text : String) : Except FileFault FileTree := do
  let directory ← t.follow path ((Path.pieces path).dropLast ++ ["."])
  if namesDirectory path then throw .isDirectory
  let place ← t.walk directory (splitText '/' path).getLast?.toList
  match t.entry? place with
  | some .directory => throw .isDirectory
  | some .nullDevice => return t
  | _ => return t.setFile place text

/-- Makes a directory in one that is there. -/
def createDir (t : FileTree) (path : String) : Except FileFault FileTree := do
  let place ← t.follow path (Path.pieces path)
  if (t.entry? place).isSome then throw .alreadyExists
  return { t with dirs := t.dirs ++ [place] }

/-- A tree with a directory and those above it. -/
def addDir (t : FileTree) (place : List String) : FileTree :=
  let above := (List.range place.length).map fun n => place.take (n + 1)
  { t with dirs := t.dirs ++ above.filter fun p => (t.entry? p).isNone }

/-- The names of a path below the working directory. -/
def placeOf (path : String) : List String :=
  (splitText '/' path).filter fun piece => piece != "" && piece != "."

/-- A tree with some directories and files. -/
def ofPaths (dirs : List String) (files : List (String × String)) : FileTree :=
  let withDirs := dirs.foldl (fun t path => t.addDir (placeOf path)) {}
  files.foldl (fun t (path, text) =>
    (t.addDir (placeOf path).dropLast).setFile (placeOf path) text) withDirs

/-- The files below the working directory. -/
def localFiles (t : FileTree) : List (List String × String) :=
  t.files.filter fun file => file.1.head? ∉ [some "..", some "/"]

end FileTree

/-- Files in memory, what has been printed, and the environment of the command. -/
structure World where
  tree : FileTree := {}
  out : String := ""
  err : String := ""
  environment : List (String × String) := []
  deriving DecidableEq, Repr

namespace World

/-- Replaces the tree by the result of an operation, if it succeeds. -/
def update (f : FileTree → Except FileFault FileTree) : StateM World (Except FileFault Unit) := do
  let w ← get
  match f w.tree with
  | .ok tree => do
    set { w with tree }
    return .ok ()
  | .error e => return .error e

/-- The operations on files in memory. -/
def ops (maxDepth : Nat) : FileOps (StateM World) where
  isFile path := return (← get).tree.isFile path
  isDir path := return (← get).tree.isDir path
  pathExists path := return (← get).tree.pathExists path
  list path := return (← get).tree.list path
  read path := return (← get).tree.read path
  write path text := update fun t => t.write path text
  createDir path := update fun t => t.createDir path
  printOut text := modify fun w => { w with out := w.out ++ text }
  printErr text := modify fun w => { w with err := w.err ++ text }
  lookupEnv name := return (← get).environment.lookup name
  maxDepth := maxDepth

end World

end Schemata
