import Schemata.Command.Run

/-!
The program: the command line on the files of the machine.
-/

namespace Schemata.Command

/-- Why an operation of the machine has failed. -/
def faultOf : IO.Error → FileFault
  | .noFileOrDirectory _ _ _ => .notFound
  | .alreadyExists _ _ _ => .alreadyExists
  | .inappropriateType _ _ _ => .notDirectory
  | .invalidArgument _ 36 _ => .nameTooLong
  | e => .other (toString e)

def attempt {α : Type} (action : IO α) : IO (Except FileFault α) := do
  match ← action.toBaseIO with
  | .ok a => return .ok a
  | .error e => return .error (faultOf e)

/-- A file operation that fails on a directory. -/
def onFile {α : Type} (path : String) (action : IO α) : IO (Except FileFault α) := do
  if ← ((← IO.currentDir) / path).isDir then return .error .isDirectory
  attempt action

/-- The operations on the files of the machine. -/
def machine : FileOps IO where
  isFile path := do
    let place := (← IO.currentDir) / path
    return (← place.pathExists) && !(← place.isDir)
  isDir path := do ((← IO.currentDir) / path).isDir
  pathExists path := do ((← IO.currentDir) / path).pathExists
  list path := attempt do
    return (← ((← IO.currentDir) / path).readDir).toList.map (·.fileName)
  read path := onFile path (IO.FS.readFile path)
  write path text := onFile path (IO.FS.writeFile path text)
  createDir path := attempt (IO.FS.createDir path)
  printOut text := IO.print text
  printErr text := IO.eprint text
  lookupEnv name := IO.getEnv name
  maxDepth := 4096

end Schemata.Command

def main (args : List String) : IO UInt32 := do
  let exit ← Schemata.Command.run Schemata.Command.machine args
  (← IO.getStdout).flush
  return exit.toUInt32
