import Schemata.Schema

/-!
Migration plans: ordered lists of steps, each of which changes one thing in a database.
-/

namespace Schemata

/-- Which objects have to be dropped before, and created again after, a change of the type or
nullability of a column that they include. -/
structure RecreateOptions where
  foreignKeys : Bool := false
  primaryKeys : Bool := false
  uniques : Bool := false
  indexes : Bool := false
  defaults : Bool := false
  deriving DecidableEq, Repr

namespace RecreateOptions

def all : RecreateOptions := ⟨true, true, true, true, true⟩

def none : RecreateOptions := {}

def foreignKeysOnly : RecreateOptions := { foreignKeys := true }

end RecreateOptions

/-- In what two versions of a column differ. -/
structure ColumnChange where
  dataType : Bool := false
  nullability : Bool := false
  default : Bool := false
  deriving DecidableEq, Repr

namespace ColumnChange

def between (before after : Column) : ColumnChange where
  dataType := before.dataType != after.dataType
  nullability := before.nullable != after.nullable
  default := before.default != after.default

def isEmpty (c : ColumnChange) : Bool :=
  !(c.dataType || c.nullability || c.default)

/-- A new type or nullability, which objects on the column may not survive. -/
def isStructural (c : ColumnChange) : Bool :=
  c.dataType || c.nullability

def text (c : ColumnChange) : String :=
  commaSeparated <|
    (if c.dataType then ["type"] else []) ++ (if c.nullability then ["nullability"] else []) ++
      (if c.default then ["default"] else [])

end ColumnChange

/-- One change. A table that is created gets its columns, keys and indexes, but neither foreign
keys nor trigger. -/
inductive Step where
  | dropView (view : View)
  | dropTrigger (table : Table)
  | dropForeignKey (table : String) (foreignKey : ForeignKey)
  | dropUnique (table : String) (unique : UniqueConstraint)
  | dropIndex (table : String) (index : Index)
  | dropPrimaryKey (table : String) (primaryKey : PrimaryKey)
  | dropTable (table : Table)
  | createTable (table : Table)
  | alterColumn (table : String) (before after : Column) (change : ColumnChange)
  | addColumn (table : String) (column : Column)
  | dropColumn (table : String) (column : Column)
  | addPrimaryKey (table : String) (primaryKey : PrimaryKey)
  | addUnique (table : String) (unique : UniqueConstraint)
  | addIndex (table : String) (index : Index)
  | addForeignKey (table : String) (foreignKey : ForeignKey)
  | createTrigger (table : Table)
  | createView (view : View)
  deriving DecidableEq, Repr

namespace Step

/-- Whether the step creates something that depends on columns. -/
def createsDependent : Step → Bool
  | addPrimaryKey _ _ | addUnique _ _ | addIndex _ _ | addForeignKey _ _ | createTrigger _
  | createView _ => true
  | _ => false

/-- The table that the step changes. -/
def table? : Step → Option String
  | dropView _ | createView _ => none
  | dropTrigger t | dropTable t | createTable t | createTrigger t => some t.name
  | dropForeignKey t _ | dropUnique t _ | dropIndex t _ | dropPrimaryKey t _
  | alterColumn t _ _ _ | addColumn t _ | dropColumn t _ | addPrimaryKey t _ | addUnique t _
  | addIndex t _ | addForeignKey t _ => some t

def quoted (name : String) : String :=
  "'" ++ name ++ "'"

def text : Step → String
  | dropView v => "DROP view " ++ quoted v.name
  | dropTrigger t => "DROP trigger on " ++ quoted t.name
  | dropForeignKey t f => "DROP foreign key " ++ quoted f.name ++ " on " ++ quoted t
  | dropUnique t u => "DROP unique " ++ quoted u.name ++ " on " ++ quoted t
  | dropIndex t i => "DROP index " ++ quoted i.name ++ " on " ++ quoted t
  | dropPrimaryKey t k => "DROP primary key " ++ quoted k.name ++ " on " ++ quoted t
  | dropTable t => "DROP table " ++ quoted t.name
  | createTable t =>
    "CREATE table " ++ quoted t.name ++ " with " ++ toString t.columns.length ++ " columns"
  | alterColumn t _ after change =>
    "ALTER column " ++ quoted (t ++ "." ++ after.name) ++ " (" ++ change.text ++ ")"
  | addColumn t c => "ADD column " ++ quoted (t ++ "." ++ c.name)
  | dropColumn t c => "DROP column " ++ quoted (t ++ "." ++ c.name)
  | addPrimaryKey t k => "ADD primary key " ++ quoted k.name ++ " on " ++ quoted t
  | addUnique t u => "ADD unique " ++ quoted u.name ++ " on " ++ quoted t
  | addIndex t i => "ADD index " ++ quoted i.name ++ " on " ++ quoted t
  | addForeignKey t f =>
    "ADD foreign key " ++ quoted f.name ++ " on " ++ quoted t ++ " -> " ++ f.reference.text
  | createTrigger t => "CREATE trigger on " ++ quoted t.name
  | createView v => "CREATE view " ++ quoted v.name

end Step

abbrev Plan := List Step

namespace Plan

/-- Puts further steps before the first one that creates something which depends on columns. -/
def insertAlters (plan : Plan) (alters : List Step) : Plan :=
  List.takeWhile (fun s => !s.createsDependent) plan ++ alters ++
    List.dropWhile (fun s => !s.createsDependent) plan

def createdTables (plan : Plan) : List String :=
  List.filterMap (fun
    | .createTable t => some t.name
    | _ => none) plan

def droppedTables (plan : Plan) : List String :=
  List.filterMap (fun
    | .dropTable t => some t.name
    | _ => none) plan

/-- The steps as numbered lines under a heading. -/
def text (plan : Plan) : String :=
  "Migration plan (" ++ toString plan.length ++ " steps)\n" ++
    String.join ((List.zipIdx plan 1).map fun (step, n) =>
      "  " ++ toString n ++ ". " ++ step.text ++ "\n")

end Plan

end Schemata
