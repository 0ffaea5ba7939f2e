import Schemata.Dialect.Ddl

/-!
Changing the type of a column by way of a copy: a second column is filled with the converted values
and takes the place of the first.
-/

namespace Schemata

/-- A change to the columns of one table. -/
inductive ColumnEdit where
  | add (column spelling : String)
  | fill (column value : String)
  | drop (column : String)
  | rename (column newName : String)
  | requireValue (column : String)
  | setDefault (column value : String)
  | comment (column text : String)
  deriving DecidableEq, Repr

namespace Dialect

/-- A clause that restates one property of a column. -/
def modifyColumn (d : Dialect) (table clause : String) : Statement :=
  d.alterTable table ("MODIFY (" ++ clause ++ ")")

def editStatement (d : Dialect) (table : String) : ColumnEdit → Statement
  | .add column spelling => d.alterTable table ("ADD (" ++ d.quote column ++ " " ++ spelling ++ ")")
  | .fill column value =>
    .plain ("UPDATE " ++ d.quote table ++ " SET " ++ d.quote column ++ " = " ++ value)
  | .drop column => d.alterTable table ("DROP COLUMN " ++ d.quote column)
  | .rename column newName =>
    d.alterTable table ("RENAME COLUMN " ++ d.quote column ++ " TO " ++ d.quote newName)
  | .requireValue column => d.modifyColumn table (d.quote column ++ " NOT NULL")
  | .setDefault column value => d.modifyColumn table (d.quote column ++ " DEFAULT " ++ value)
  | .comment column text =>
    .plain ("COMMENT ON COLUMN " ++ d.quote table ++ "." ++ d.quote column ++ " IS " ++
      d.stringLiteral text)

/-- The name of the second column. -/
def copyName (d : Dialect) (column : String) : String :=
  d.naming.shorten (column ++ "_TMP")

/-- The value of a column in another type. -/
def conversion (column spelling : String) (source target : DataType) : String :=
  match source.family, target.family with
  | _, .largeCharacter => "TO_CLOB(" ++ column ++ ")"
  | .largeCharacter, .character =>
    "DBMS_LOB.SUBSTR(" ++ column ++ ", " ++ toString (target.length?.getD 4000) ++ ", 1)"
  | .largeCharacter, _ => "CAST(DBMS_LOB.SUBSTR(" ++ column ++ ", 4000, 1) AS " ++ spelling ++ ")"
  | _, _ => "CAST(" ++ column ++ " AS " ++ spelling ++ ")"

/-- Add, fill, drop, rename; then what the new column does not have yet. -/
def copyEdits (d : Dialect) (inKey : Bool) (before after : Column) : List ColumnEdit :=
  let spelling := d.columnType inKey after
  let copy := d.copyName after.name
  [.add copy spelling,
    .fill copy (conversion (d.quote after.name) spelling before.dataType after.dataType),
    .drop after.name, .rename copy after.name] ++
    (if after.nullable then [] else [.requireValue after.name]) ++
    (after.default.map fun v => ColumnEdit.setDefault after.name (d.defaultText v)).toList ++
    (after.comment.map (ColumnEdit.comment after.name)).toList

end Dialect

end Schemata
