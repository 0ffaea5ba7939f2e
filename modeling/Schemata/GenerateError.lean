import Schemata.Dialect
import Schemata.SchemaError

/-!
Why no script can be written for a schema.
-/

namespace Schemata

inductive GenerateError where
  | unresolvedTable (source table : String)
  | unresolvedColumn (source table column : String)
  | unsupportedAlter (dialect : Dialect) (table column reason : String)
  | unsupportedOperation (dialect : Dialect) (operation artifact : String)
  | malformed (artifact reason : String)
  | invalidSchema (error : SchemaError)
  deriving DecidableEq, Repr

namespace GenerateError

def message : GenerateError → String
  | unresolvedTable source table => source ++ " references unknown table '" ++ table ++ "'"
  | unresolvedColumn source table column =>
    source ++ " references unknown column '" ++ table ++ "." ++ column ++ "'"
  | unsupportedAlter dialect table column reason =>
    "cannot alter column '" ++ table ++ "." ++ column ++ "' for " ++ dialect.productName ++ ": " ++
      reason
  | unsupportedOperation dialect operation artifact =>
    dialect.productName ++ " does not support " ++ operation ++ " (" ++ artifact ++ ")"
  | malformed artifact reason => artifact ++ ": " ++ reason
  | invalidSchema error => "schema error: " ++ error.message

/-- A reference that names nothing is a cause of its own. -/
def ofSchemaError : SchemaError → GenerateError
  | .unresolvedTable source table => unresolvedTable source table
  | .unresolvedColumn source table column => unresolvedColumn source table column
  | error => invalidSchema error

end GenerateError

end Schemata
