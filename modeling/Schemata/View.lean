import Schemata.Table

/-!
Views: named queries with declared columns, drafted and then checked like tables.
-/

namespace Schemata

/-- A table or view that a select reads, under its own name or an alias. -/
structure TableRef where
  table : String
  otherName : Option String := none
  deriving DecidableEq, Repr

/-- The name that qualifies its columns. -/
def TableRef.binding (t : TableRef) : String :=
  t.otherName.getD t.table

def TableRef.render (s : Style) (t : TableRef) : String :=
  match t.otherName with
  | some other => s.identifier t.table ++ " " ++ s.identifier other
  | none => s.identifier t.table

inductive JoinKind where
  | inner
  | left
  deriving DecidableEq, Repr

def JoinKind.text : JoinKind → String
  | inner => "JOIN"
  | left => "LEFT JOIN"

structure Join where
  kind : JoinKind
  table : TableRef
  on : Expr
  deriving DecidableEq, Repr

structure Select where
  items : List Expr
  source : TableRef
  joins : List Join := []
  filter : Option Expr := none
  deriving DecidableEq, Repr

namespace Select

/-- What the select reads, in reading order. -/
def tables (s : Select) : List TableRef :=
  s.source :: s.joins.map (·.table)

/-- Items, then join conditions, then the filter. -/
def expressions (s : Select) : List Expr :=
  s.items ++ s.joins.map (·.on) ++ s.filter.toList

def joinText (s : Style) (j : Join) : String :=
  " " ++ j.kind.text ++ " " ++ j.table.render s ++ " ON " ++ j.on.render s

/-- The select on one line. -/
def render (s : Style) (q : Select) : String :=
  "SELECT " ++ commaSeparated (q.items.map (Expr.render s)) ++ " FROM " ++ q.source.render s ++
    String.join (q.joins.map (joinText s)) ++ Expr.renderOption s " WHERE " q.filter

end Select

inductive UnionKind where
  | distinct
  | all
  deriving DecidableEq, Repr

def UnionKind.text : UnionKind → String
  | distinct => "UNION"
  | all => "UNION ALL"

structure Query where
  first : Select
  unions : List (UnionKind × Select) := []
  deriving DecidableEq, Repr

def Query.selects (q : Query) : List Select :=
  q.first :: q.unions.map (·.2)

structure View where
  name : String
  columns : List String
  query : Query
  comment : Option String := none
  hints : Hints := []
  deriving DecidableEq, Repr

/-- The distinct elements of a list, each where it first stands. -/
def distinctNames : List String → List String
  | [] => []
  | n :: ns => n :: (distinctNames ns).filter (· != n)

/-- Names of the tables and views read, each where it is first used. -/
def View.referencedTables (v : View) : List String :=
  distinctNames ((v.query.selects.flatMap Select.tables).map (·.table))

structure ViewDraft where
  name : String
  columns : List String := []
  selects : List (Option UnionKind × Select) := []
  comment : Option String := none
  hints : Hints := []
  deriving DecidableEq, Repr

namespace ViewDraft

/-- The first select has no use for a union kind. -/
def addSelect (d : ViewDraft) (union : Option UnionKind) (select : Select) : ViewDraft :=
  { d with selects := d.selects ++ [(union, select)] }

/-- Every column is an identifier that no earlier column has. -/
def checkColumns (view : String) : List String → List String → Except SchemaError Unit
  | _, [] => .ok ()
  | seen, c :: cs => do
    checkIdentifier c
    if seen.contains c then .error (.duplicateColumn view c)
    else checkColumns view (c :: seen) cs

/-- The finished view, or the first thing that is wrong with the draft. -/
def build (d : ViewDraft) : Except SchemaError View := do
  checkIdentifier d.name
  match d.columns, d.selects with
  | [], _ | _, [] => throw (.emptyView d.name)
  | columns, (_, first) :: others =>
    checkColumns d.name [] columns
    if let some s := ((first :: others.map (·.2)).find? fun s => s.items.length != columns.length)
    then throw (.viewArity d.name columns.length s.items.length)
    return {
      name := d.name, columns, comment := d.comment, hints := d.hints
      query := ⟨first, others.map fun (union, select) => (union.getD .distinct, select)⟩ }

end ViewDraft

end Schemata
