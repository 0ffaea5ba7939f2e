import Schemata.Dialect.Ddl

/-!
Delete triggers: the statements of a table's action block, run for each deleted row.
-/

namespace Schemata

/-- The forms of a delete trigger. -/
inductive TriggerForm where
  /-- A block before the delete, with `:old`. -/
  | plSql
  /-- A block over all deleted rows at once; `insteadOf` replaces the delete and finishes it. -/
  | transactSql (insteadOf : Bool)
  /-- A function, and the trigger that calls it. -/
  | plPgSql
  /-- A block before the delete, with `OLD`. -/
  | rowBlock
  /-- A block after the delete that names the row `oldrow`. -/
  | db2Sql
  /-- One trigger for each statement, numbered from one. -/
  | singleStatement
  /-- A block after the delete that names the old row `oldrow`. -/
  | atomicBlock
  deriving DecidableEq, Repr

/-- How statements in the trigger refer to the deleted row. -/
def TriggerForm.oldRow : TriggerForm → String
  | plSql => ":old"
  | transactSql _ => "deleted"
  | plPgSql | rowBlock => "OLD"
  | db2Sql | singleStatement | atomicBlock => "oldrow"

def triggerName (table : String) : String :=
  "TRG_" ++ table ++ "_DEL"

namespace Dialect

def triggerForm : Dialect → TriggerForm
  | oracle => .plSql
  | sqlServer => .transactSql true
  | sybase => .transactSql false
  | postgreSql => .plPgSql
  | mySql | sqlite => .rowBlock
  | db2 => .db2Sql
  | derby => .singleStatement
  | hsqldb => .atomicBlock

def oldRow (d : Dialect) : String :=
  d.triggerForm.oldRow

def triggerFunctionName (d : Dialect) (table : String) : String :=
  d.objectName (triggerName table ++ "_FN")

def numberedTriggerName (d : Dialect) (table : String) (n : Nat) : String :=
  d.objectName (triggerName table ++ "_" ++ toString n)

/-- Statements in a trigger body, one a line. -/
def triggerBody (statements : List String) : String :=
  String.join (statements.map fun sql => "    " ++ sql ++ ";\n")

/-- A statement about the deleted row. -/
def rowStatement (d : Dialect) (dml : Dml) : String :=
  dml.render (d.style (some d.oldRow) none)

/-- A statement about all deleted rows, joined to them. A column without a qualifier belongs to the
table that changes; the values of an insert keep theirs as they are. -/
def joinedStatement (d : Dialect) (dml : Dml) : String :=
  let target := d.quote dml.table
  let style := d.style (some d.oldRow) (some dml.table)
  match dml with
  | .insert _ columns values =>
    "INSERT INTO " ++ target ++ " (" ++ d.quotedList columns ++ ") SELECT " ++
      commaSeparated (values.map (Expr.render (d.style (some d.oldRow) none))) ++
      " FROM " ++ d.oldRow
  | .update _ assignments filter =>
    "UPDATE " ++ target ++ " SET " ++ commaSeparated (assignments.map (Dml.assignmentText style)) ++
      " FROM " ++ target ++ ", " ++ d.oldRow ++ Expr.renderOption style " WHERE " filter
  | .delete _ filter =>
    "DELETE " ++ target ++ " FROM " ++ target ++ ", " ++ d.oldRow ++
      Expr.renderOption style " WHERE " filter

/-- The delete that a trigger in its place has to perform. -/
def finishingDelete (d : Dialect) (t : Table) : String :=
  let target := d.quote t.name
  "DELETE " ++ target ++ " FROM " ++ target ++ ", " ++ d.oldRow ++ " WHERE " ++
    String.intercalate " AND " (t.primaryKey.columns.map fun c =>
      target ++ "." ++ d.quote c ++ " = " ++ d.oldRow ++ "." ++ d.quote c)

/-- The statements that create the trigger of a table which has one. -/
def triggerStatements (d : Dialect) (t : Table) : List Statement :=
  let name := d.objectName (triggerName t.name)
  let target := d.quote t.name
  let body := triggerBody (t.onDelete.map d.rowStatement)
  match d.triggerForm with
  | .plSql =>
    [.block ("CREATE OR REPLACE TRIGGER " ++ name ++ "\nBEFORE DELETE ON " ++ target ++
      "\nFOR EACH ROW\nBEGIN\n" ++ body ++ "END;")]
  | .transactSql insteadOf =>
    let joined := "SET NOCOUNT ON" :: t.onDelete.map d.joinedStatement
    [.block ("CREATE TRIGGER " ++ name ++ " ON " ++ target ++ "\n" ++
      (if insteadOf then "INSTEAD OF DELETE" else "FOR DELETE") ++ "\nAS\nBEGIN\n" ++
      triggerBody (joined ++ if insteadOf then [d.finishingDelete t] else []) ++ "END")]
  | .plPgSql =>
    let function := d.triggerFunctionName t.name
    [.block ("CREATE OR REPLACE FUNCTION " ++ function ++ "() RETURNS TRIGGER AS $$\nBEGIN\n" ++
        body ++ "    RETURN OLD;\nEND;\n$$ LANGUAGE plpgsql"),
      .plain ("CREATE TRIGGER " ++ name ++ " BEFORE DELETE ON " ++ target ++
        "\nFOR EACH ROW EXECUTE PROCEDURE " ++ function ++ "()")]
  | .rowBlock =>
    [.block ("CREATE TRIGGER " ++ name ++ " BEFORE DELETE ON " ++ target ++
      "\nFOR EACH ROW\nBEGIN\n" ++ body ++ "END")]
  | .db2Sql =>
    [.block ("CREATE TRIGGER " ++ name ++ "\nAFTER DELETE ON " ++ target ++
      "\nREFERENCING OLD AS oldrow\nFOR EACH ROW MODE DB2SQL\nBEGIN ATOMIC\n" ++ body ++ "END")]
  | .atomicBlock =>
    [.block ("CREATE TRIGGER " ++ name ++ "\nAFTER DELETE ON " ++ target ++
      "\nREFERENCING OLD ROW AS oldrow\nFOR EACH ROW\nBEGIN ATOMIC\n" ++ body ++ "END")]
  | .singleStatement =>
    (t.onDelete.zipIdx 1).map fun (dml, n) =>
      .plain ("CREATE TRIGGER " ++ d.numberedTriggerName t.name n ++
        "\nAFTER DELETE ON " ++ target ++
        "\nREFERENCING OLD AS oldrow\nFOR EACH ROW\n" ++ d.rowStatement dml)

/-- The statements that create the trigger of a table; none without an action block. -/
def createTrigger (d : Dialect) (t : Table) : List Statement :=
  if t.hasTrigger then d.triggerStatements t else []

/-- The statements that drop the trigger which a table has. -/
def dropTrigger (d : Dialect) (t : Table) : List Statement :=
  let name := d.objectName (triggerName t.name)
  match d.triggerForm with
  | .plPgSql =>
    [.plain ("DROP TRIGGER " ++ name ++ " ON " ++ d.quote t.name),
      .plain ("DROP FUNCTION " ++ d.triggerFunctionName t.name ++ "()")]
  | .singleStatement =>
    (t.onDelete.zipIdx 1).map fun (_, n) =>
      .plain ("DROP TRIGGER " ++ d.numberedTriggerName t.name n)
  | _ => [.plain ("DROP TRIGGER " ++ name)]

end Dialect

end Schemata
