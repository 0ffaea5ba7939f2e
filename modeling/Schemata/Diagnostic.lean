import Schemata.SourceSet

/-!
Mistakes explained to a person: what is wrong, a label for the place, and what to do about it.
-/

namespace Schemata

structure Diagnostic where
  message : String
  label : String
  help : Option String := none
  deriving DecidableEq, Repr

def SchemaError.help? : SchemaError → Option String
  | missingPrimaryKey table =>
    some ("Add PRIMARY KEY to a column of " ++ table ++ " or a PRIMARY KEY (...) element.")
  | multiplePrimaryKeys table =>
    some ("Keep a single primary key on " ++ table ++ "; list every key column in it.")
  | unknownColumn table column _ _ =>
    some ("Declare column '" ++ column ++ "' in " ++ table ++ " or fix the name.")
  | emptyTrigger _ => some "Add at least one statement inside ON DELETE ( ... )."
  | viewArity _ expected _ =>
    some ("Each SELECT must yield exactly " ++ toString expected ++ " value(s).")
  | insertArity _ _ _ => some "List one value per column in the INSERT."
  | _ => none

def HintKey.targets (key : HintKey) : List HintTarget :=
  HintTarget.all.filter key.allowedOn

def Fault.diagnostic : Fault → Diagnostic
  | invalidToken text =>
    { message := "invalid token '" ++ text ++ "'", label := "unrecognized token"
      help := some "Check for typos or unsupported characters." }
  | unexpectedToken expected found =>
    { message := "unexpected token: expected " ++ expected ++ ", found " ++ found
      label := "expected " ++ expected }
  | unexpectedEnd expected =>
    { message := "unexpected end of input: expected " ++ expected, label := "input ended here"
      help := some ("Add " ++ expected ++ " to complete the definition.") }
  | invalidInteger text =>
    { message := "invalid integer literal '" ++ text ++ "'", label := "value out of range" }
  | unknownDialect name =>
    { message := "unknown dialect '" ++ name ++ "'", label := "not a dialect name"
      help := some ("Use ALL or one of: " ++
        ", ".intercalate (Dialect.all.map Dialect.keyword) ++ ".") }
  | unknownHint key =>
    { message := "unknown hint '" ++ key ++ "'", label := "not a hint key"
      help := some ("Valid hint keys: " ++
        ", ".intercalate (HintKey.all.map HintKey.keyword) ++ ".") }
  | misplacedHint key target =>
    { message := "hint '" ++ key.keyword ++ "' is not allowed on a " ++ target.text
      label := "not valid on a " ++ target.text
      help := some (key.keyword ++ " may be used on: " ++
        ", ".intercalate (key.targets.map HintTarget.text) ++ ".") }
  | missingHintValue key =>
    { message := "hint '" ++ key.keyword ++ "' requires a value", label := "value missing"
      help := some ("Write " ++ key.keyword ++ " = '...'.") }
  | unexpectedHintValue key =>
    { message := "hint '" ++ key.keyword ++ "' does not take a value", label := "unexpected value"
      help := some ("Remove the value and write " ++ key.keyword ++ " alone.") }
  | duplicate kind name =>
    { message := "duplicate " ++ kind.text ++ " '" ++ name ++ "'", label := "already defined"
      help := some ("Rename one of the " ++ kind.text ++ "s named '" ++ name ++ "'.") }
  | invalidSchema error =>
    { message := "schema validation error: " ++ error.message, label := "validation failed"
      help := error.help? }

/-- The diagnostics of mistakes, file by file, each with its place in the file. -/
def SourceSet.diagnostics (s : SourceSet) (mistakes : List Mistake) : List (Located Diagnostic) :=
  (s.mistakesByFile mistakes).flatMap fun g =>
    g.items.map fun entry => ⟨entry.span, entry.item.fault.diagnostic⟩

end Schemata
