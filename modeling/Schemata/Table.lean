import Schemata.DataType
import Schemata.Hint
import Schemata.Dml

/-!
Tables: columns, keys, indexes, foreign keys and the statements run for each deleted row. A table
is first drafted piece by piece; `TableDraft.build` checks the draft as a whole.
-/

namespace Schemata

/-- What happens to rows that refer to a row which changes. -/
inductive ReferentialAction where
  | cascade
  | setNull
  | noAction
  | restrict
  deriving DecidableEq, Repr

def ReferentialAction.text : ReferentialAction → String
  | cascade => "CASCADE"
  | setNull => "SET NULL"
  | noAction => "NO ACTION"
  | restrict => "RESTRICT"

/-- The actions that a reference without any clause has too. -/
def ReferentialAction.isDefault : ReferentialAction → Bool
  | noAction | restrict => true
  | _ => false

structure Reference where
  table : String
  column : String
  onDelete : Option ReferentialAction := none
  onUpdate : Option ReferentialAction := none
  deriving DecidableEq, Repr

def Reference.text (r : Reference) : String :=
  r.table ++ "(" ++ r.column ++ ")"

structure PrimaryKey where
  name : String
  columns : List String
  deriving DecidableEq, Repr

structure UniqueConstraint where
  name : String
  columns : List String
  deriving DecidableEq, Repr

structure Index where
  name : String
  columns : List String
  hints : Hints := []
  deriving DecidableEq, Repr

structure ForeignKey where
  name : String
  column : String
  reference : Reference
  deriving DecidableEq, Repr

structure Column where
  name : String
  dataType : DataType
  nullable : Bool := true
  default : Option DefaultValue := none
  reference : Option Reference := none
  comment : Option String := none
  hints : Hints := []
  deriving DecidableEq, Repr

/-- The column, provided its name is an identifier. -/
def Column.build (c : Column) : Except SchemaError Column := do
  checkIdentifier c.name
  return c

structure Table where
  name : String
  columns : List Column
  primaryKey : PrimaryKey
  uniques : List UniqueConstraint := []
  indexes : List Index := []
  declaredForeignKeys : List ForeignKey := []
  onDelete : List Dml := []
  comment : Option String := none
  hints : Hints := []
  deriving DecidableEq, Repr

namespace Table

def findColumn? (t : Table) (name : String) : Option Column :=
  t.columns.find? fun c => c.name == name

/-- The foreign key that a column's own reference stands for. -/
def shorthandForeignKey? (table : String) (c : Column) : Option ForeignKey :=
  c.reference.map fun r => ⟨foreignKeyName table c.name, c.name, r⟩

/-- All foreign keys: those of the columns in column order, then the declared ones. -/
def foreignKeys (t : Table) : List ForeignKey :=
  t.columns.filterMap (shorthandForeignKey? t.name) ++ t.declaredForeignKeys

def hasTrigger (t : Table) : Bool :=
  !t.onDelete.isEmpty

/-- Names of the keys, indexes and foreign keys that a column takes part in. -/
def constraintsTouching (t : Table) (column : String) : List String :=
  (if t.primaryKey.columns.contains column then [t.primaryKey.name] else []) ++
    (t.uniques.filter fun u => u.columns.contains column).map (·.name) ++
    (t.indexes.filter fun i => i.columns.contains column).map (·.name) ++
    (t.foreignKeys.filter fun f => f.column == column).map (·.name)

def isKeyColumn (t : Table) (column : String) : Bool :=
  !(t.constraintsTouching column).isEmpty

end Table

/-- The first element that also stands earlier in the list. -/
def firstRepeat? : List String → Option String
  | names => go [] names
where
  go (seen : List String) : List String → Option String
    | [] => none
    | n :: ns => if seen.contains n then some n else go (n :: seen) ns

/-- A table in the making; the number of primary keys is not settled yet. -/
structure TableDraft where
  name : String
  columns : List Column := []
  primaryKeys : List PrimaryKey := []
  uniques : List UniqueConstraint := []
  indexes : List Index := []
  foreignKeys : List ForeignKey := []
  onDelete : Option (List Dml) := none
  comment : Option String := none
  hints : Hints := []
  deriving DecidableEq, Repr

namespace TableDraft

def addColumn (d : TableDraft) (c : Column) : TableDraft :=
  { d with columns := d.columns ++ [c] }

/-- A key without a name gets the table's default one. -/
def addPrimaryKey (d : TableDraft) (name : Option String) (columns : List String) : TableDraft :=
  { d with primaryKeys := d.primaryKeys ++ [⟨name.getD (primaryKeyName d.name), columns⟩] }

def addUnique (d : TableDraft) (name : Option String) (columns : List String) : TableDraft :=
  { d with uniques := d.uniques ++ [⟨name.getD (uniqueName d.name columns), columns⟩] }

def addIndex (d : TableDraft) (index : Index) : TableDraft :=
  { d with indexes := d.indexes ++ [index] }

def addForeignKey (d : TableDraft) (name : Option String) (column : String)
    (reference : Reference) : TableDraft :=
  { d with
    foreignKeys := d.foreignKeys ++
      [⟨name.getD (foreignKeyName d.name column), column, reference⟩] }

/-- A column list names at least one column, and only columns that exist. -/
def checkColumnList (table : String) (known : List String) (kind : KeyKind) (name : String)
    (columns : List String) : Except SchemaError Unit :=
  if columns.isEmpty then .error (.emptyColumnList table name)
  else
    match columns.find? fun c => !known.contains c with
    | some c => .error (.unknownColumn table c kind name)
    | none => .ok ()

/-- Every constraint name is an identifier that no earlier constraint has. -/
def checkNames (table : String) : List String → List String → Except SchemaError Unit
  | _, [] => .ok ()
  | seen, n :: ns => do
    checkIdentifier n
    if seen.contains n then .error (.duplicateConstraint table n)
    else checkNames table (n :: seen) ns

/-- Names of all constraints: primary key, unique, index, declared and column foreign keys. -/
def constraintNames (d : TableDraft) (primaryKey : PrimaryKey) : List String :=
  primaryKey.name :: (d.uniques.map (·.name) ++ d.indexes.map (·.name) ++
    d.foreignKeys.map (·.name) ++
    (d.columns.filterMap (Table.shorthandForeignKey? d.name)).map (·.name))

def thePrimaryKey (d : TableDraft) : Except SchemaError PrimaryKey :=
  match d.primaryKeys with
  | [] => .error (.missingPrimaryKey d.name)
  | [key] => .ok key
  | _ => .error (.multiplePrimaryKeys d.name)

/-- An action block that is written holds at least one statement. -/
def checkedOnDelete (d : TableDraft) : Except SchemaError (List Dml) :=
  match d.onDelete with
  | some [] => .error (.emptyTrigger d.name)
  | some statements => .ok statements
  | none => .ok []

/-- The finished table, or the first thing that is wrong with the draft. -/
def build (d : TableDraft) : Except SchemaError Table := do
  checkIdentifier d.name
  if d.columns.isEmpty then throw (.emptyTable d.name)
  let known := d.columns.map (·.name)
  if let some c := firstRepeat? known then throw (.duplicateColumn d.name c)
  let primaryKey ← d.thePrimaryKey
  checkColumnList d.name known .primaryKey primaryKey.name primaryKey.columns
  d.uniques.forM fun u => checkColumnList d.name known .unique u.name u.columns
  d.indexes.forM fun i => checkColumnList d.name known .index i.name i.columns
  d.foreignKeys.forM fun f => checkColumnList d.name known .foreignKey f.name [f.column]
  checkNames d.name [] (d.constraintNames primaryKey)
  let onDelete ← d.checkedOnDelete
  return {
    name := d.name, columns := d.columns, primaryKey, uniques := d.uniques, indexes := d.indexes,
    declaredForeignKeys := d.foreignKeys, onDelete, comment := d.comment, hints := d.hints }

end TableDraft

end Schemata
