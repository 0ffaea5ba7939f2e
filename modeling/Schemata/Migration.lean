import Schemata.FullScript
import Schemata.Plan.Diff

/-!
Migration scripts: the steps of a plan in a dialect, further statements that come with the new
version, and at last the version itself.
-/

namespace Schemata

structure MigrationOptions where
  versionTable : String := "SchemaVersion"
  versionColumn : String := "Version"
  additional : Option Schema := none
  deriving DecidableEq, Repr

namespace Dialect

/-- Whether the native type of an unchanged column follows from its being in a key, which
changed. -/
def changesWidth (d : Dialect) (old new : Schema) (p : TablePair) (c : Column) : Bool :=
  d.columnType (old.isKeyColumn p.old c.name) c != d.columnType (new.isKeyColumn p.new c.name) c

/-- Whether the plan alters the column. -/
def alters (plan : Plan) (table column : String) : Bool :=
  List.any plan fun
    | .alterColumn t _ after _ => t == table && after.name == column
    | _ => false

/-- The columns that a plan leaves alone and that need another native type. -/
def widthAlters (d : Dialect) (old new : Schema) (plan : Plan) : List Step :=
  new.tables.flatMap fun t =>
    match old.findTable? t.name with
    | none => []
    | some oldTable =>
      t.columns.filterMap fun c =>
        match oldTable.findColumn? c.name with
        | none => none
        | some before =>
          if !alters plan t.name c.name && d.changesWidth old new ⟨oldTable, t⟩ c then
            some (.alterColumn t.name before c { dataType := true })
          else none

/-- The plan of a migration in the dialect. -/
def migrationPlan (d : Dialect) (old new : Schema) : Plan :=
  let plan := diff old new d.recreateOptions
  plan.insertAlters (d.widthAlters old new plan)

def migrationHeader (d : Dialect) : Nat → Statement
  | 0 => .comment ("Migration to version 0 for " ++ d.productName)
  | n + 1 =>
    .comment ("Migration from version " ++ toString n ++ " to " ++ toString (n + 1) ++ " for " ++
      d.productName)

/-- Whether columns of the plan may have defaults that have to be looked up by name. -/
def needsDefaultProcedure (d : Dialect) (plan : Plan) : Bool :=
  d == sqlServer && List.any plan fun
    | .alterColumn _ _ _ _ | .dropColumn _ _ => true
    | _ => false

def createDefaultProcedure : Statement :=
  .block ("CREATE PROCEDURE " ++ dropDefaultProcedure ++
    " @table NVARCHAR(128), @column NVARCHAR(128)\n" ++
    "AS\n" ++
    "BEGIN\n" ++
    "    DECLARE @name NVARCHAR(128);\n" ++
    "    DECLARE @sql NVARCHAR(400);\n" ++
    "    SELECT @name = dc.name\n" ++
    "      FROM sys.default_constraints dc\n" ++
    "      JOIN sys.columns c\n" ++
    "        ON c.object_id = dc.parent_object_id AND c.column_id = dc.parent_column_id\n" ++
    "     WHERE dc.parent_object_id = OBJECT_ID(@table) AND c.name = @column;\n" ++
    "    IF @name IS NOT NULL\n" ++
    "    BEGIN\n" ++
    "        SET @sql = N'ALTER TABLE ' + QUOTENAME(@table) + N' DROP CONSTRAINT ' + " ++
    "QUOTENAME(@name);\n" ++
    "        EXEC sp_executesql @sql;\n" ++
    "    END\n" ++
    "END")

/-- What stands before the first step. -/
def prologue (d : Dialect) (plan : Plan) : List Statement :=
  if d.needsDefaultProcedure plan then [createDefaultProcedure] else []

/-- What stands after the last step. -/
def epilogue (d : Dialect) (plan : Plan) : List Statement :=
  if d.needsDefaultProcedure plan then [.plain ("DROP PROCEDURE " ++ dropDefaultProcedure)] else []

/-- Whether a column that a step names is in a key of the new schema. -/
def isNewKeyColumn (new : Schema) (table column : String) : Bool :=
  (new.findTable? table).any fun t => new.isKeyColumn t column

/-- The primary key and the unique constraints of a new table, unless it declares them. -/
def newTableKeys (d : Dialect) (t : Table) : Emit :=
  if d.capabilities.inlineForeignKeys then .ok []
  else do
    let primaryKey ← d.addPrimaryKey t.name t.primaryKey
    let uniques ← emitAll (d.addUnique t.name) t.uniques
    return primaryKey ++ uniques

/-- A new table with its keys, indexes and comments; foreign keys have steps of their own. -/
def createTableStatements (d : Dialect) (new : Schema) (t : Table) : Emit := do
  let table ← d.tableStatements new t
  let keys ← d.newTableKeys t
  return table ++ keys ++ d.indexStatements t ++ d.comments t

/-- The foreign key that is declared together with an added column. -/
def inlineForeignKey? (d : Dialect) (new : Schema) (table column : String) : Option ForeignKey :=
  if d.capabilities.inlineForeignKeys then
    (new.findTable? table).bind fun t => t.foreignKeys.find? fun f => f.column == column
  else none

def addsColumn (plan : Plan) (table column : String) : Bool :=
  List.any plan fun
    | .addColumn t c => t == table && c.name == column
    | _ => false

/-- Whether a foreign key is declared where its table or column is created. -/
def isDeclaredInline (d : Dialect) (plan : Plan) (table : String) (f : ForeignKey) : Bool :=
  d.capabilities.inlineForeignKeys &&
    (plan.createdTables.contains table || addsColumn plan table f.column)

/-- Whether a foreign key goes with its table. -/
def goesWithTable (d : Dialect) (plan : Plan) (table : String) : Bool :=
  !d.capabilities.alterConstraints && plan.droppedTables.contains table

/-- The statements of one step of a plan towards the new schema. -/
def stepStatements (d : Dialect) (new : Schema) (plan : Plan) : Step → Emit
  | .dropView v => .ok [d.dropView v.name]
  | .dropTrigger t => .ok (d.dropTrigger t)
  | .dropForeignKey table f =>
    if d.goesWithTable plan table then .ok [] else d.dropForeignKey table f
  | .dropUnique table u => d.dropUnique table u
  | .dropIndex table i => .ok [d.dropIndex table i]
  | .dropPrimaryKey table k => d.dropPrimaryKey table k
  | .dropTable t => .ok [d.dropTable t.name]
  | .createTable t => d.createTableStatements new t
  | .alterColumn table before after change =>
    d.alterColumn table (isNewKeyColumn new table after.name) before after change
  | .addColumn table c => do
    let added ← d.addColumn table (isNewKeyColumn new table c.name) c
      (d.inlineForeignKey? new table c.name)
    return added ++ d.addedColumnComment table c
  | .dropColumn table c => d.dropColumn table c
  | .addPrimaryKey table k => d.addPrimaryKey table k
  | .addUnique table u => d.addUnique table u
  | .addIndex table i => .ok [d.createIndex table i]
  | .addForeignKey table f =>
    if d.isDeclaredInline plan table f then .ok [] else d.addForeignKey table f
  | .createTrigger t => .ok (d.createTrigger t)
  | .createView v => .ok (d.createView v)

/-- Statements in the order of the tables that they change. -/
def byTable (new : Schema) (templates : List DmlStatement) : List DmlStatement :=
  let position (t : DmlStatement) := (new.tablePosition? t.body.table).getD new.tables.length
  templates.mergeSort fun a b => decide (position a ≤ position b)

def additionalStatement (d : Dialect) (t : DmlStatement) : Except GenerateError Statement :=
  if t.body.hasParameters then
    .error (.malformed ("statement " ++ t.name)
      "additional conversion statements cannot take parameters")
  else .ok (d.changeRows t.body)

/-- The script that turns a database of the old schema into one of the new schema. -/
def migrationScript (d : Dialect) (old new : Schema) (version : Nat) (options : MigrationOptions) :
    Except GenerateError Script := do
  old.resolve
  new.resolve
  let templates := (options.additional.map (·.statements)).getD []
  Resolve.statements new templates
  let plan := d.migrationPlan old new
  let steps ← emitAll (d.stepStatements new plan) plan
  let additional ← (byTable new templates).mapM d.additionalStatement
  return d.migrationHeader version :: d.prologue plan ++ steps ++ d.epilogue plan ++ additional ++
    [.plain ("UPDATE " ++ d.quote options.versionTable ++ " SET " ++
      d.quote options.versionColumn ++ " = " ++ toString version)]

end Dialect

end Schemata
