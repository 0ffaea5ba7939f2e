import Schemata.View

/-!
A schema: tables, views and statement templates, each in declaration order.
-/

namespace Schemata

structure Schema where
  tables : List Table := []
  views : List View := []
  statements : List DmlStatement := []
  deriving DecidableEq, Repr

namespace Schema

def empty : Schema := {}

def isEmpty (s : Schema) : Bool :=
  s.tables.isEmpty && s.views.isEmpty && s.statements.isEmpty

def findTable? (s : Schema) (name : String) : Option Table :=
  s.tables.find? fun t => t.name == name

def tablePosition? (s : Schema) (name : String) : Option Nat :=
  s.tables.findIdx? fun t => t.name == name

def findView? (s : Schema) (name : String) : Option View :=
  s.views.find? fun v => v.name == name

def findStatement? (s : Schema) (name : String) : Option DmlStatement :=
  s.statements.find? fun d => d.name == name

def findColumn? (s : Schema) (table column : String) : Option Column :=
  (s.findTable? table).bind fun t => t.findColumn? column

def addTable (s : Schema) (t : Table) : Schema :=
  { s with tables := s.tables ++ [t] }

def addView (s : Schema) (v : View) : Schema :=
  { s with views := s.views ++ [v] }

def addStatement (s : Schema) (d : DmlStatement) : Schema :=
  { s with statements := s.statements ++ [d] }

/-- The table and column that a reference names; `source` says who refers. -/
def resolveReference (s : Schema) (source : String) (r : Reference) :
    Except SchemaError (Table × Column) :=
  match s.findTable? r.table with
  | none => .error (.unresolvedTable source r.table)
  | some t =>
    match t.findColumn? r.column with
    | none => .error (.unresolvedColumn source r.table r.column)
    | some c => .ok (t, c)

/-- Whether some foreign key of the schema targets the column. -/
def isReferenced (s : Schema) (table column : String) : Bool :=
  s.tables.any fun t => t.foreignKeys.any fun f =>
    f.reference.table == table && f.reference.column == column

/-- Tables, views and statements each have names of their own. -/
def build (s : Schema) : Except SchemaError Schema := do
  if let some n := firstRepeat? (s.tables.map (·.name)) then throw (.duplicateTable n)
  if let some n := firstRepeat? (s.views.map (·.name)) then throw (.duplicateView n)
  if let some n := firstRepeat? (s.statements.map (·.name)) then throw (.duplicateStatement n)
  return s

end Schema

end Schemata
