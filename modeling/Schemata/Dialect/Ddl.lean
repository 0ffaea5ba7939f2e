import Schemata.Dialect.NativeType
import Schemata.Dialect.Profile
import Schemata.GenerateError

/-!
Statements that create, change and drop columns, keys, indexes and foreign keys in each dialect.
-/

namespace Schemata

/-- Statements, unless the dialect cannot express what is asked for. -/
abbrev Emit := Except GenerateError (List Statement)

/-- Statements for every element in turn; the first failure ends it. -/
def emitAll {α : Type} (f : α → Emit) (items : List α) : Emit :=
  List.flatten <$> items.mapM f

namespace Dialect

def alterTable (d : Dialect) (table clause : String) : Statement :=
  .plain ("ALTER TABLE " ++ d.quote table ++ " " ++ clause)

/-- Nullability, where it is stated in any case. -/
def nullText (nullable : Bool) : String :=
  if nullable then "NULL" else "NOT NULL"

/-- Nullability in a column definition. -/
def nullClause (d : Dialect) (nullable : Bool) : String :=
  match d with
  | sybase => " " ++ nullText nullable
  | _ => if nullable then "" else " NOT NULL"

/-- Name, type, default and nullability of a column, as a table or an added column needs them. -/
def columnDefinition (d : Dialect) (inKey : Bool) (c : Column) : String :=
  d.quote c.name ++ " " ++ d.columnType inKey c ++
    (c.default.map fun v => " DEFAULT " ++ d.defaultText v).getD "" ++ d.nullClause c.nullable ++
    match d.commentStyle, c.comment with
    | .inline, some text => " COMMENT " ++ d.stringLiteral text
    | _, _ => ""

/-- The storage clause for a tablespace, if the dialect has one. -/
def tablespaceClause? (d : Dialect) (target : HintTarget) (tablespace : String) : Option String :=
  match d with
  | oracle | postgreSql => some ("TABLESPACE " ++ tablespace)
  | db2 => if target = .table then some ("IN " ++ tablespace) else none
  | _ => none

/-- The storage clause that hints ask for, after a blank. -/
def storageClause (d : Dialect) (target : HintTarget) (hints : Hints) : String :=
  (((hints.tablespace? d).bind (d.tablespaceClause? target)).map (" " ++ ·)).getD ""

/-- An action of a foreign key. What a reference does without any clause is never written. -/
def actionClause (d : Dialect) (clause : String) (supported : Bool) (foreignKey : String) :
    Option ReferentialAction → Except GenerateError String
  | none => .ok ""
  | some action =>
    if action.isDefault then .ok ""
    else if supported then .ok (" " ++ clause ++ " " ++ action.text)
    else .error (.unsupportedOperation d (clause ++ " " ++ action.text)
      ("foreign key " ++ foreignKey))

def referencesClause (d : Dialect) (f : ForeignKey) : Except GenerateError String := do
  let onDelete ← d.actionClause "ON DELETE" d.capabilities.deleteActions f.name f.reference.onDelete
  let onUpdate ← d.actionClause "ON UPDATE" d.capabilities.updateActions f.name f.reference.onUpdate
  return "REFERENCES " ++ d.quote f.reference.table ++ " (" ++ d.quote f.reference.column ++ ")" ++
    onDelete ++ onUpdate

def primaryKeyClause (d : Dialect) (k : PrimaryKey) : String :=
  "CONSTRAINT " ++ d.objectName k.name ++ " PRIMARY KEY (" ++ d.quotedList k.columns ++ ")"

def uniqueClause (d : Dialect) (u : UniqueConstraint) : String :=
  "CONSTRAINT " ++ d.objectName u.name ++ " UNIQUE (" ++ d.quotedList u.columns ++ ")"

def foreignKeyClause (d : Dialect) (f : ForeignKey) : Except GenerateError String := do
  return "CONSTRAINT " ++ d.objectName f.name ++ " FOREIGN KEY (" ++ d.quote f.column ++ ") " ++
    (← d.referencesClause f)

/-- Refuses a change of constraints of an existing table where the dialect has none. -/
def requireAlterConstraints (d : Dialect) (operation constraint : String) :
    Except GenerateError Unit :=
  if d.capabilities.alterConstraints then .ok ()
  else .error (.unsupportedOperation d (operation ++ " on an existing table")
    ("constraint " ++ constraint))

def dropConstraint (d : Dialect) (table name : String) : Statement :=
  d.alterTable table ("DROP CONSTRAINT " ++ d.objectName name)

def addPrimaryKey (d : Dialect) (table : String) (k : PrimaryKey) : Emit := do
  d.requireAlterConstraints "ADD PRIMARY KEY" k.name
  return [d.alterTable table ("ADD " ++ d.primaryKeyClause k)]

def dropPrimaryKey (d : Dialect) (table : String) (k : PrimaryKey) : Emit :=
  match d with
  | mySql => .ok [d.alterTable table "DROP PRIMARY KEY"]
  | _ => do
    d.requireAlterConstraints "DROP PRIMARY KEY" k.name
    return [d.dropConstraint table k.name]

def addUnique (d : Dialect) (table : String) (u : UniqueConstraint) : Emit := do
  d.requireAlterConstraints "ADD UNIQUE" u.name
  return [d.alterTable table ("ADD " ++ d.uniqueClause u)]

def dropUnique (d : Dialect) (table : String) (u : UniqueConstraint) : Emit :=
  match d with
  | mySql => .ok [d.alterTable table ("DROP INDEX " ++ d.objectName u.name)]
  | _ => do
    d.requireAlterConstraints "DROP UNIQUE" u.name
    return [d.dropConstraint table u.name]

def addForeignKey (d : Dialect) (table : String) (f : ForeignKey) : Emit := do
  d.requireAlterConstraints "ADD FOREIGN KEY" f.name
  return [d.alterTable table ("ADD " ++ (← d.foreignKeyClause f))]

def dropForeignKey (d : Dialect) (table : String) (f : ForeignKey) : Emit :=
  match d with
  | mySql => .ok [d.alterTable table ("DROP FOREIGN KEY " ++ d.objectName f.name)]
  | _ => do
    d.requireAlterConstraints "DROP FOREIGN KEY" f.name
    return [d.dropConstraint table f.name]

def createIndex (d : Dialect) (table : String) (i : Index) : Statement :=
  .plain ("CREATE INDEX " ++ d.objectName i.name ++ " ON " ++ d.quote table ++ " (" ++
    d.quotedList i.columns ++ ")" ++ d.storageClause .index i.hints)

def dropIndex (d : Dialect) (table : String) (i : Index) : Statement :=
  .plain <| match d with
    | sqlServer | mySql => "DROP INDEX " ++ d.objectName i.name ++ " ON " ++ d.quote table
    | sybase => "DROP INDEX " ++ d.quote table ++ "." ++ d.objectName i.name
    | _ => "DROP INDEX " ++ d.objectName i.name

def dropTable (d : Dialect) (table : String) : Statement :=
  .plain ("DROP TABLE " ++ d.quote table)

def dropView (d : Dialect) (view : String) : Statement :=
  .plain ("DROP VIEW " ++ d.quote view)

end Dialect

end Schemata
