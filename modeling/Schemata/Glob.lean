import Schemata.FileSystem

/-!
Patterns of file names, and the search for the files that match one. A star stands for any
characters, a question mark for one, brackets for one of a set; two stars on their own stand for any
directories.
-/

namespace Schemata

/-- The characters from one to another. -/
structure CharRange where
  first : Char
  last : Char
  deriving DecidableEq, Repr

def CharRange.contains (r : CharRange) (c : Char) : Bool :=
  decide (r.first ≤ c) && decide (c ≤ r.last)

inductive GlobToken where
  | char (c : Char)
  | anyChar
  | anySequence
  | anyDirectories
  | within (ranges : List CharRange)
  | outside (ranges : List CharRange)
  deriving DecidableEq, Repr

abbrev GlobPattern := List GlobToken

namespace GlobPattern

/-- The set between brackets: single characters and ranges with a dash. -/
def ranges : List Char → List CharRange
  | a :: '-' :: b :: rest => ⟨a, b⟩ :: ranges rest
  | a :: rest => ⟨a, a⟩ :: ranges rest
  | [] => []

/-- The first characters up to a closing bracket, of which the first may be one itself, and what
follows the bracket. -/
def bracketed : List Char → Option (List Char × List Char)
  | [] => none
  | c :: cs =>
    match cs.dropWhile (· != ']') with
    | [] => none
    | _ :: rest => some (c :: cs.takeWhile (· != ']'), rest)

/-- The set after an opening bracket, and what follows it. -/
def bracketToken : List Char → Option (GlobToken × List Char)
  | '!' :: cs => (bracketed cs).map fun (set, rest) => (.outside (ranges set), rest)
  | cs => (bracketed cs).map fun (set, rest) => (.within (ranges set), rest)

/-- Reads a pattern of which `fuel` bounds the length. `fresh` says whether a piece of a path begins
here; two stars are the whole of such a piece, and there are never more of them. -/
def parseFrom : Nat → Bool → List Char → Option GlobPattern
  | 0, _, _ => some []
  | _, _, [] => some []
  | fuel + 1, fresh, '*' :: '*' :: rest =>
    if !fresh then none
    else
      match rest with
      | [] => some [.anyDirectories]
      | '/' :: rest => (parseFrom fuel true rest).map (.anyDirectories :: ·)
      | _ => none
  | fuel + 1, _, '*' :: rest => (parseFrom fuel false rest).map (.anySequence :: ·)
  | fuel + 1, _, '?' :: rest => (parseFrom fuel false rest).map (.anyChar :: ·)
  | fuel + 1, _, '[' :: rest => do
    let (token, rest) ← bracketToken rest
    return token :: (← parseFrom fuel false rest)
  | fuel + 1, _, c :: rest => (parseFrom fuel (c == '/') rest).map (.char c :: ·)

def parse? (pattern : String) : Option GlobPattern :=
  parseFrom pattern.length true pattern.toList

/-- Whether a name matches. -/
def matchChars : GlobPattern → List Char → Bool
  | [], cs => cs.isEmpty
  | .anySequence :: ts, cs | .anyDirectories :: ts, cs =>
    matchChars ts cs ||
      match cs with
      | [] => false
      | _ :: rest => matchChars (.anySequence :: ts) rest
  | _ :: _, [] => false
  | .char c :: ts, d :: cs => c == d && matchChars ts cs
  | .anyChar :: ts, _ :: cs => matchChars ts cs
  | .within set :: ts, d :: cs => set.any (·.contains d) && matchChars ts cs
  | .outside set :: ts, d :: cs => !set.any (·.contains d) && matchChars ts cs
termination_by ts cs => ts.length + cs.length

def accepts (p : GlobPattern) (name : String) : Bool :=
  matchChars p name.toList

/-- The one name that a pattern without wildcards matches. -/
def literal? (p : GlobPattern) : Option String :=
  String.ofList <$> List.mapM (fun
    | .char c => some c
    | _ => none) p

def isRecursive (p : GlobPattern) : Bool :=
  List.contains p .anyDirectories

end GlobPattern

namespace Glob

/-- A path below another one; below the working directory, however it is spelled, its own dot is
left out. -/
def below (path name : String) : String :=
  if Path.same path "." then name else Path.join path name

variable {m : Type → Type} [Monad m]

/-- What has been reached, if no pieces of the pattern are left. -/
def reach (again : String → List GlobPattern → ExceptT (String × FileFault) m (List String))
    (path : String) : List GlobPattern → ExceptT (String × FileFault) m (List String)
  | [] => return [path]
  | rest => again path rest

/-- A child whose name the next piece has to match. -/
def descend (again : String → List GlobPattern → ExceptT (String × FileFault) m (List String))
    (child name : String) : List GlobPattern → ExceptT (String × FileFault) m (List String)
  | [] => return []
  | p :: rest => if p.accepts name then reach again child rest else return []

/-- A child of a directory. Below a recursive piece the child may match the piece after it, and a
directory is then searched with the recursive piece once more. -/
def visit (fs : FileOps m)
    (again : String → List GlobPattern → ExceptT (String × FileFault) m (List String))
    (child name : String) (p : GlobPattern) (rest : List GlobPattern) :
    ExceptT (String × FileFault) m (List String) := do
  if !p.isRecursive then descend again child name (p :: rest)
  else
    let rest := rest.dropWhile GlobPattern.isRecursive
    if ← fs.isDir child then
      let here ← if rest.isEmpty then pure [child] else descend again child name rest
      let inside ← again child (p :: rest)
      return here ++ inside
    else descend again child name rest

/-- The dot names that a piece with a dot in front matches, the longer one first. -/
def dotNames (p : GlobPattern) : List String :=
  match p with
  | .char '.' :: _ => ["..", "."].filter p.accepts
  | _ => []

/-- The paths below `path` that match the pieces: first those through dot names, then the others in
the order of the names. `fuel` bounds how far it goes. -/
def search (fs : FileOps m) :
    Nat → String → List GlobPattern → ExceptT (String × FileFault) m (List String)
  | 0, _, _ | _, _, [] => return []
  | fuel + 1, path, p :: rest => do
    match p.literal? with
    | some name =>
      let next := below path name
      let found ← if name = "." ∨ name = ".." then fs.isDir path else fs.pathExists next
      if found then reach (search fs fuel) next rest else return []
    | none =>
      if !(← fs.isDir path) then return []
      match ← fs.list path with
      | .error e => throw (path, e)
      | .ok names =>
        let dots ← (dotNames p).mapM fun name =>
          reach (search fs fuel) (Path.join path name) rest
        let inside ← (names.mergeSort fun a b => decide (a ≤ b)).mapM fun name =>
          visit fs (search fs fuel) (below path name) name p rest
        return dots.flatten ++ inside.flatten

/-- The pieces of a pattern; nothing after a slash at the end does not count. -/
def pieces (pattern : String) : List String :=
  match (splitText '/' pattern).reverse with
  | "" :: before => before.reverse
  | all => all.reverse

/-- A pattern with its pieces, if it and each of them is well formed. -/
def compile? (pattern : String) : Option (List GlobPattern) := do
  let _ ← GlobPattern.parse? pattern
  let relative := if Path.isAbsolute pattern then String.ofList (pattern.toList.drop 1) else pattern
  (pieces relative).mapM GlobPattern.parse?

/-- The paths that match a compiled pattern. A slash at its end asks for directories. -/
def paths (fs : FileOps m) (pattern : String) (compiled : List GlobPattern) :
    ExceptT (String × FileFault) m (List String) := do
  let start := if Path.isAbsolute pattern then "/" else "."
  let found ← search fs ((fs.maxDepth + 2) * (compiled.length + 1)) start compiled
  if pattern.toList.getLast? = some '/' then found.filterM fun path => fs.isDir path
  else return found

end Glob

end Schemata
