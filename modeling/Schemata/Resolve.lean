import Schemata.Dialect.Profile
import Schemata.GenerateError
import Schemata.Schema

/-!
Resolution: every table and column that a schema refers to exists. It is checked right before a
script is written, so that an incomplete schema can be read and printed.
-/

namespace Schemata

/-- A table or view that a select reads: the name it goes by, its own name and its columns. -/
structure Binding where
  name : String
  table : String
  columns : List String
  deriving DecidableEq, Repr

namespace Schema

/-- The columns of a table, or else of a view, with that name. -/
def sourceColumns? (s : Schema) (name : String) : Option (List String) :=
  match s.findTable? name with
  | some t => some (t.columns.map (·.name))
  | none => (s.findView? name).map (·.columns)

def bind (s : Schema) (source : String) (t : TableRef) : Except GenerateError Binding :=
  match s.sourceColumns? t.table with
  | some columns => .ok ⟨t.binding, t.table, columns⟩
  | none => .error (.unresolvedTable source t.table)

end Schema

namespace Resolve

/-- A column of a select: a qualifier names the first binding that goes by it, and without one any
binding may have the column. -/
def selectColumn (source fallback : String) (bindings : List Binding) :
    Option String × String → Except GenerateError Unit
  | (some qualifier, name) =>
    match bindings.find? fun b => b.name == qualifier with
    | none => .error (.unresolvedTable source qualifier)
    | some b =>
      if b.columns.contains name then .ok () else .error (.unresolvedColumn source b.table name)
  | (none, name) =>
    if bindings.any fun b => b.columns.contains name then .ok ()
    else .error (.unresolvedColumn source fallback name)

def select (s : Schema) (source : String) (q : Select) : Except GenerateError Unit := do
  let bindings ← q.tables.mapM (s.bind source)
  (q.expressions.flatMap Expr.columnRefs).forM (selectColumn source q.source.table bindings)

def view (s : Schema) (v : View) : Except GenerateError Unit :=
  v.query.selects.forM (select s ("view " ++ v.name))

def tableColumn (source : String) (t : Table) (name : String) : Except GenerateError Unit :=
  if (t.findColumn? name).isSome then .ok () else .error (.unresolvedColumn source t.name name)

/-- The table that a qualifier names. Inside an action block `OLD` is the table that has it. -/
def qualifiedTable (s : Schema) (source : String) (owner : Option Table) (qualifier : String) :
    Except GenerateError Table :=
  match owner, qualifier == oldRowQualifier with
  | some t, true => .ok t
  | _, _ =>
    match s.findTable? qualifier with
    | some t => .ok t
    | none => .error (.unresolvedTable source qualifier)

/-- A column of a statement; without a qualifier it belongs to the table that changes. -/
def statementColumn (s : Schema) (source : String) (owner : Option Table) (target : Table) :
    Option String × String → Except GenerateError Unit
  | (some qualifier, name) => do
    tableColumn source (← qualifiedTable s source owner qualifier) name
  | (none, name) => tableColumn source target name

def dml (s : Schema) (source : String) (owner : Option Table) (statement : Dml) :
    Except GenerateError Unit :=
  match s.findTable? statement.table with
  | none => .error (.unresolvedTable source statement.table)
  | some target => do
    statement.targetColumns.forM (tableColumn source target)
    (statement.expressions.flatMap Expr.columnRefs).forM (statementColumn s source owner target)

def reference (s : Schema) (source : String) (r : Reference) : Except GenerateError Unit :=
  match s.resolveReference source r with
  | .ok _ => .ok ()
  | .error e => .error (.ofSchemaError e)

/-- Foreign keys, then the action block. -/
def table (s : Schema) (t : Table) : Except GenerateError Unit := do
  t.foreignKeys.forM fun f => reference s ("table " ++ t.name) f.reference
  t.onDelete.forM (dml s ("ON DELETE of table " ++ t.name) (some t))

/-- Templates, which may come from another schema. -/
def statements (s : Schema) (templates : List DmlStatement) : Except GenerateError Unit :=
  templates.forM fun d => dml s ("statement " ++ d.name) none d.body

end Resolve

/-- Checks tables, then views, then statement templates; the first fault is reported. -/
def Schema.resolve (s : Schema) : Except GenerateError Unit := do
  s.tables.forM (Resolve.table s)
  s.views.forM (Resolve.view s)
  Resolve.statements s s.statements

end Schemata
