import Schemata.FileSystem
import Schemata.GenerateError
import Schemata.Json
import Schemata.SourceSet

/-!
How a command can fail, with the text, the exit status and the JSON form of each failure.
-/

namespace Schemata

inductive CommandError where
  | mistakes (sources : SourceSet) (list : List Mistake)
  | generation (error : GenerateError)
  | unreadable (path : String) (fault : FileFault)
  | unwritable (path : String) (fault : FileFault)
  | badConfig (reason : String)
  | unknownDialect (name : String)
  | noDialect
  | severalDialectsForFile (count : Nat)
  | noSources (path : String)
  deriving DecidableEq, Repr

namespace CommandError

def message : CommandError → String
  | mistakes sources list =>
    let paths := sources.files.map (·.path)
    toString list.length ++ " syntax error(s) in " ++
      (if paths.isEmpty then "input" else ", ".intercalate paths)
  | generation error => "generation failed: " ++ error.message
  | unreadable path fault | unwritable path fault =>
    "cannot access " ++ path ++ ": " ++ fault.message
  | badConfig reason => "invalid configuration: " ++ reason
  | unknownDialect name =>
    "unknown dialect '" ++ name ++ "' (run 'meta-forge dialects' for the supported names)"
  | noDialect => "no target dialect given: pass --generator or set [generate] dialect"
  | severalDialectsForFile count =>
    "--output-file takes a single dialect, got " ++ toString count ++ "; use --output-dir"
  | noSources path => "no .meta sources found at " ++ path

def exitCode : CommandError → Nat
  | mistakes _ _ => 3
  | generation _ => 4
  | unreadable _ _ | unwritable _ _ => 1
  | _ => 2

def mistakeJson (path : String) (entry : Located Mistake) : Json :=
  .object [("file", path), ("start", .nat entry.span.start), ("end", .nat entry.span.stop),
    ("message", entry.item.message)]

def toJson (e : CommandError) : Json :=
  match e with
  | mistakes sources list =>
    .object [("error", "parse_error"),
      ("errors", .array ((sources.mistakesByFile list).flatMap fun g =>
        g.items.map (mistakeJson g.path)))]
  | generation error => .object [("error", "generation_error"), ("message", error.message)]
  | unreadable path fault | unwritable path fault =>
    .object [("error", "io_error"), ("path", path), ("message", fault.message)]
  | badConfig reason => .object [("error", "config_error"), ("message", reason)]
  | _ => .object [("error", "usage_error"), ("message", e.message)]

end CommandError

/-- The dialects that are asked for, each once, in the order of their first names. Without a request
the configured dialect counts. -/
def chooseDialects (requested : List String) (configured : Option String) :
    Except CommandError (List Dialect) := do
  let names := if requested.isEmpty then configured.toList else requested
  let dialects ← names.mapM fun name =>
    match Dialect.ofName? name with
    | some d => .ok d
    | none => .error (.unknownDialect name)
  if dialects.isEmpty then throw .noDialect
  return dialects.foldl (fun chosen d => if d ∈ chosen then chosen else chosen ++ [d]) []

end Schemata
