import Schemata.Dialect.ColumnChange
import Schemata.Dialect.Trigger
import Schemata.Resolve

/-!
The script that creates a whole schema: tables, primary keys, foreign keys, unique constraints,
indexes, comments, views, triggers and at last the rows that the schema comes with.
-/

namespace Schemata.Dialect

/-- The keys and foreign keys that stand inside the table where the dialect declares them inline. -/
def inlineClauses (d : Dialect) (t : Table) : Except GenerateError (List String) :=
  if d.capabilities.inlineForeignKeys then do
    let foreignKeys ← t.foreignKeys.mapM d.foreignKeyClause
    return d.primaryKeyClause t.primaryKey :: t.uniques.map d.uniqueClause ++ foreignKeys
  else return []

def tableComment (d : Dialect) (t : Table) : String :=
  match d.commentStyle, t.comment with
  | .inline, some text => " COMMENT=" ++ d.stringLiteral text
  | _, _ => ""

/-- The options that hints ask for, after a lead. -/
def optionsClause (d : Dialect) (lead : String) (hints : Hints) : String :=
  ((hints.options? d).map (lead ++ ·)).getD ""

def createTable (d : Dialect) (s : Schema) (t : Table) : Except GenerateError Statement := do
  let columns := t.columns.map fun c => d.columnDefinition (s.isKeyColumn t c.name) c
  let clauses ← d.inlineClauses t
  return .plain ("CREATE TABLE " ++ d.quote t.name ++ " (\n    " ++
    String.intercalate ",\n    " (columns ++ clauses) ++ "\n)" ++ d.storageClause .table t.hints ++
    d.tableComment t ++ d.optionsClause " " t.hints)

/-- Comments of a table and its columns as lines of the script. -/
def commentLines (t : Table) : List String :=
  (t.comment.map fun text => t.name ++ ": " ++ text).toList ++
    t.columns.filterMap fun c => c.comment.map fun text => t.name ++ "." ++ c.name ++ ": " ++ text

/-- The comments as script lines, where the database does not keep any. -/
def scriptComment (d : Dialect) (t : Table) : List Statement :=
  match d.commentStyle, commentLines t with
  | .scriptOnly, line :: lines => [.comment (String.intercalate "\n" (line :: lines))]
  | _, _ => []

def describe (d : Dialect) (text table : String) (column : Option String) : Statement :=
  .plain ("EXEC sp_addextendedproperty 'MS_Description', " ++ d.stringLiteral text ++
    ", 'SCHEMA', 'dbo', 'TABLE', " ++ d.stringLiteral table ++
    (column.map fun c => ", 'COLUMN', " ++ d.stringLiteral c).getD "")

/-- The comment of a column as a statement, where the database keeps it that way. -/
def storedColumnComment (d : Dialect) (table : String) (c : Column) : List Statement :=
  match d.commentStyle, c.comment with
  | .commentOn, some text =>
    [.plain ("COMMENT ON COLUMN " ++ d.quote table ++ "." ++ d.quote c.name ++ " IS " ++
      d.stringLiteral text)]
  | .extendedProperty, some text => [d.describe text table (some c.name)]
  | _, _ => []

def storedTableComment (d : Dialect) (t : Table) : List Statement :=
  match d.commentStyle, t.comment with
  | .commentOn, some text =>
    [.plain ("COMMENT ON TABLE " ++ d.quote t.name ++ " IS " ++ d.stringLiteral text)]
  | .extendedProperty, some text => [d.describe text t.name none]
  | _, _ => []

/-- Comment statements of a table and its columns. -/
def comments (d : Dialect) (t : Table) : List Statement :=
  d.storedTableComment t ++ t.columns.flatMap (d.storedColumnComment t.name)

/-- The comment of a column that is added to a table. -/
def addedColumnComment (d : Dialect) (table : String) (c : Column) : List Statement :=
  match d.commentStyle, c.comment with
  | .scriptOnly, some text => [.comment (table ++ "." ++ c.name ++ ": " ++ text)]
  | _, _ => d.storedColumnComment table c

/-- A view with its comment above it, one select a line. -/
def createView (d : Dialect) (v : View) : List Statement :=
  (v.comment.map fun text => Statement.comment (v.name ++ ": " ++ text)).toList ++
    [.plain ("CREATE VIEW " ++ d.quote v.name ++ " (" ++ d.quotedList v.columns ++ ") AS\n" ++
      v.query.first.render d.plainStyle ++
      String.join (v.query.unions.map fun (kind, select) =>
        "\n" ++ kind.text ++ "\n" ++ select.render d.plainStyle) ++
      d.optionsClause "\n" v.hints)]

def changeRows (d : Dialect) (dml : Dml) : Statement :=
  .plain (dml.render d.plainStyle)

/-- The table itself, below its comment lines. -/
def tableStatements (d : Dialect) (s : Schema) (t : Table) : Emit := do
  return d.scriptComment t ++ [← d.createTable s t]

/-- All keys, kind after kind, unless the tables declare them. -/
def keyStatements (d : Dialect) (s : Schema) : Emit :=
  if d.capabilities.inlineForeignKeys then .ok []
  else do
    let primaryKeys ← emitAll (fun t => d.addPrimaryKey t.name t.primaryKey) s.tables
    let foreignKeys ← emitAll (fun t => emitAll (d.addForeignKey t.name) t.foreignKeys) s.tables
    let uniques ← emitAll (fun t => emitAll (d.addUnique t.name) t.uniques) s.tables
    return primaryKeys ++ foreignKeys ++ uniques

def indexStatements (d : Dialect) (t : Table) : List Statement :=
  t.indexes.map (d.createIndex t.name)

/-- The statements without parameters; the others are templates for a program. -/
def seedStatements (d : Dialect) (s : Schema) : List Statement :=
  (s.statements.filter fun t => !t.body.hasParameters).map fun t => d.changeRows t.body

def fullHeader (d : Dialect) : Statement :=
  .comment ("Generated by meta-forge for " ++ d.productName)

/-- The script that creates the schema. -/
def fullScript (d : Dialect) (s : Schema) : Except GenerateError Script := do
  s.resolve
  let tables ← emitAll (d.tableStatements s) s.tables
  let keys ← d.keyStatements s
  return d.fullHeader :: tables ++ keys ++ s.tables.flatMap d.indexStatements ++
    s.tables.flatMap d.comments ++ s.views.flatMap d.createView ++
    s.tables.flatMap d.createTrigger ++ d.seedStatements s

end Schemata.Dialect
