import Schemata.Name

/-!
What can be wrong with a schema, apart from how its text is written.
-/

namespace Schemata

/-- The kinds of table constraints that list columns. -/
inductive KeyKind where
  | primaryKey
  | unique
  | index
  | foreignKey
  deriving DecidableEq, Repr

def KeyKind.label : KeyKind → String
  | .primaryKey => "primary key"
  | .unique => "unique constraint"
  | .index => "index"
  | .foreignKey => "foreign key"

inductive SchemaError where
  | invalidIdentifier (text : String)
  | duplicateTable (name : String)
  | duplicateView (name : String)
  | duplicateStatement (name : String)
  | duplicateColumn (table column : String)
  | duplicateConstraint (table name : String)
  | emptyTable (table : String)
  | missingPrimaryKey (table : String)
  | multiplePrimaryKeys (table : String)
  | unknownColumn (table column : String) (kind : KeyKind) (name : String)
  | emptyColumnList (table name : String)
  | emptyTrigger (table : String)
  | emptyView (view : String)
  | viewArity (view : String) (expected found : Nat)
  | insertArity (table : String) (columns values : Nat)
  | unresolvedTable (source table : String)
  | unresolvedColumn (source table column : String)
  | invalidScale (precision scale : Nat)
  | invalidLength (length : Nat)
  deriving DecidableEq, Repr

namespace SchemaError

def message : SchemaError → String
  | invalidIdentifier text =>
    "invalid identifier '" ++ text ++ "': must match [A-Za-z_][A-Za-z0-9_]*"
  | duplicateTable name => "duplicate table '" ++ name ++ "'"
  | duplicateView name => "duplicate view '" ++ name ++ "'"
  | duplicateStatement name => "duplicate statement '" ++ name ++ "'"
  | duplicateColumn table column =>
    "duplicate column '" ++ column ++ "' in table '" ++ table ++ "'"
  | duplicateConstraint table name =>
    "duplicate constraint or index '" ++ name ++ "' in table '" ++ table ++ "'"
  | emptyTable table => "table '" ++ table ++ "' must have at least one column"
  | missingPrimaryKey table => "table '" ++ table ++ "' has no primary key"
  | multiplePrimaryKeys table => "table '" ++ table ++ "' declares more than one primary key"
  | unknownColumn table column kind name =>
    "unknown column '" ++ column ++ "' in " ++ kind.label ++ " " ++ name ++ " of table '" ++
      table ++ "'"
  | emptyColumnList table name => "'" ++ name ++ "' on table '" ++ table ++ "' lists no columns"
  | emptyTrigger table => "ON DELETE block of table '" ++ table ++ "' contains no statements"
  | emptyView view => "view '" ++ view ++ "' must declare columns and a select"
  | viewArity view expected found =>
    "view '" ++ view ++ "' declares " ++ toString expected ++ " columns but a select yields " ++
      toString found
  | insertArity table columns values =>
    "insert into '" ++ table ++ "' lists " ++ toString columns ++ " columns but " ++
      toString values ++ " values"
  | unresolvedTable source table => source ++ " references unknown table '" ++ table ++ "'"
  | unresolvedColumn source table column =>
    source ++ " references unknown column '" ++ table ++ "." ++ column ++ "'"
  | invalidScale precision scale =>
    "invalid scale " ++ toString scale ++ ": must not exceed precision " ++ toString precision
  | invalidLength length => "invalid length " ++ toString length ++ ": must be >= 1"

end SchemaError

/-- Passes over an identifier and refuses any other text. -/
def checkIdentifier (text : String) : Except SchemaError Unit :=
  if isIdentifier text then .ok () else .error (.invalidIdentifier text)

end Schemata
