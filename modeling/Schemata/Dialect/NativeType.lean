import Schemata.DataType
import Schemata.Dialect
import Schemata.Schema

/-!
The native spelling of the column types in each dialect.
-/

namespace Schemata

/-- A name with a size in parentheses. -/
def sizedType (name : String) (n : Nat) : String :=
  name ++ "(" ++ toString n ++ ")"

def scaledType (name : String) (precision scale : Nat) : String :=
  DataType.numericText name (some precision) (some scale)

/-- A number whose precision may be missing: `fallback` stands in for it. -/
def numberType (name : String) (fallback : Option Nat) (precision scale : Option Nat) : String :=
  DataType.numericText name (precision.or fallback) scale

/-- The spellings of one dialect. That of a text may depend on whether the column is in a key. -/
structure TypeNames where
  bit : String
  integer : String
  bigInt : String := "BIGINT"
  float : String
  decimal : Nat → Nat → String := scaledType "DECIMAL"
  number : Option Nat → Option Nat → String
  char : Nat → String := sizedType "CHAR"
  varchar : Bool → Nat → String := fun _ => sizedType "VARCHAR"
  clob : String
  date : String := "DATE"
  time : String := "TIME"
  dateTime : String
  blob : String

/-- Texts are stored as bytes, four for a character, unless an index has to hold them. -/
def byteVarchar (inKey : Bool) (length : Nat) : String :=
  let bytes := if inKey then length else 4 * length
  if 8000 < bytes then "VARCHAR(MAX)" else sizedType "VARCHAR" bytes

namespace Dialect

def typeNames : Dialect → TypeNames
  | oracle => {
      bit := "NUMBER(1)", integer := "NUMBER(10)", bigInt := "NUMBER(19)", float := "FLOAT"
      decimal := scaledType "NUMBER", number := numberType "NUMBER" none
      char := fun n => "CHAR(" ++ toString n ++ " CHAR)"
      varchar := fun _ n => "VARCHAR2(" ++ toString n ++ " CHAR)"
      clob := "CLOB", time := "DATE", dateTime := "TIMESTAMP", blob := "BLOB" }
  | sqlServer => {
      bit := "BIT", integer := "INT", float := "FLOAT", number := numberType "NUMERIC" (some 38)
      char := sizedType "NCHAR", varchar := byteVarchar
      clob := "VARCHAR(MAX)", dateTime := "DATETIME2", blob := "VARBINARY(MAX)" }
  | sybase => {
      bit := "BIT", integer := "INT", float := "FLOAT", number := numberType "NUMERIC" (some 38)
      clob := "TEXT", dateTime := "DATETIME", blob := "IMAGE" }
  | postgreSql => {
      bit := "SMALLINT", integer := "INTEGER", float := "DOUBLE PRECISION"
      decimal := scaledType "NUMERIC", number := numberType "NUMERIC" none
      clob := "TEXT", dateTime := "TIMESTAMP", blob := "BYTEA" }
  | mySql => {
      bit := "TINYINT(1)", integer := "INT", float := "DOUBLE"
      number := numberType "DECIMAL" (some 65)
      clob := "LONGTEXT", dateTime := "DATETIME", blob := "LONGBLOB" }
  | db2 | derby => {
      bit := "SMALLINT", integer := "INTEGER", float := "DOUBLE"
      number := numberType "DECIMAL" (some 31)
      clob := "CLOB", dateTime := "TIMESTAMP", blob := "BLOB" }
  | hsqldb => {
      bit := "TINYINT", integer := "INTEGER", float := "DOUBLE"
      number := numberType "DECIMAL" (some 128)
      clob := "CLOB", dateTime := "TIMESTAMP", blob := "BLOB" }
  | sqlite => {
      bit := "INTEGER", integer := "INTEGER", bigInt := "INTEGER", float := "REAL"
      decimal := fun _ _ => "NUMERIC", number := fun _ _ => "NUMERIC"
      char := fun _ => "TEXT", varchar := fun _ _ => "TEXT"
      clob := "TEXT", date := "TEXT", time := "TEXT", dateTime := "TEXT", blob := "BLOB" }

/-- The native spelling of a type. -/
def nativeType (d : Dialect) (inKey : Bool) : DataType → String
  | .bit => d.typeNames.bit
  | .integer => d.typeNames.integer
  | .bigInt => d.typeNames.bigInt
  | .float => d.typeNames.float
  | .decimal p s => d.typeNames.decimal p s
  | .number p s => d.typeNames.number p s
  | .char n => d.typeNames.char n
  | .varchar n => d.typeNames.varchar inKey n
  | .clob => d.typeNames.clob
  | .date => d.typeNames.date
  | .time => d.typeNames.time
  | .dateTime => d.typeNames.dateTime
  | .blob => d.typeNames.blob

/-- The native type of a column; a hint for the dialect comes first. -/
def columnType (d : Dialect) (inKey : Bool) (c : Column) : String :=
  (c.hints.columnType? d).getD (d.nativeType inKey c.dataType)

end Dialect

/-- Whether a column is in a key, index or foreign key of its table, or is the target of one. -/
def Schema.isKeyColumn (s : Schema) (t : Table) (column : String) : Bool :=
  t.isKeyColumn column || s.isReferenced t.name column

end Schemata
