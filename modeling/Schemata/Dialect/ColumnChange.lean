import Schemata.Dialect.ColumnCopy

/-!
Adding, changing and dropping columns in each dialect.
-/

namespace Schemata.Dialect

/-- The words between the table and the definition of a new column. -/
def addColumnClause : Dialect → String
  | oracle | sqlServer | sybase => "ADD"
  | _ => "ADD COLUMN"

/-- A new column. Where foreign keys are declared inline, `foreignKey` goes with it. -/
def addColumn (d : Dialect) (table : String) (inKey : Bool) (c : Column)
    (foreignKey : Option ForeignKey) : Emit :=
  match d with
  | sqlite => do
    if !c.nullable && c.default.isNone then
      throw (.unsupportedOperation d "ADD COLUMN ... NOT NULL without a default"
        ("column " ++ table ++ "." ++ c.name))
    let references ← match foreignKey with
      | some f => (" " ++ ·) <$> d.referencesClause f
      | none => pure ""
    return [d.alterTable table
      (d.addColumnClause ++ " " ++ d.columnDefinition inKey c ++ references)]
  | _ => .ok [d.alterTable table (d.addColumnClause ++ " " ++ d.columnDefinition inKey c)]

/-- The procedure that drops the nameless default constraint of a column. -/
def dropDefaultProcedure : String := "DropDefaultConstraint"

def setDefault (d : Dialect) (table column : String) (value : DefaultValue) : Statement :=
  let name := d.quote column
  let text := d.defaultText value
  match d with
  | oracle => d.modifyColumn table (name ++ " DEFAULT " ++ text)
  | sqlServer => d.alterTable table ("ADD DEFAULT " ++ text ++ " FOR " ++ name)
  | sybase => d.alterTable table ("REPLACE " ++ name ++ " DEFAULT " ++ text)
  | derby => d.alterTable table ("ALTER COLUMN " ++ name ++ " DEFAULT " ++ text)
  | _ => d.alterTable table ("ALTER COLUMN " ++ name ++ " SET DEFAULT " ++ text)

def dropDefault (d : Dialect) (table column : String) : Statement :=
  let name := d.quote column
  match d with
  | oracle => d.modifyColumn table (name ++ " DEFAULT NULL")
  | sqlServer =>
    .plain ("EXEC " ++ dropDefaultProcedure ++ " " ++ d.stringLiteral table ++ ", " ++
      d.stringLiteral column)
  | sybase => d.alterTable table ("REPLACE " ++ name ++ " DEFAULT NULL")
  | _ => d.alterTable table ("ALTER COLUMN " ++ name ++ " DROP DEFAULT")

def setNullability (d : Dialect) (table : String) (c : Column) : Statement :=
  let name := d.quote c.name
  match d with
  | oracle => d.modifyColumn table (name ++ " " ++ nullText c.nullable)
  | derby => d.alterTable table ("ALTER COLUMN " ++ name ++ " " ++ nullText c.nullable)
  | hsqldb => d.alterTable table ("ALTER COLUMN " ++ name ++ " SET " ++ nullText c.nullable)
  | _ =>
    d.alterTable table ("ALTER COLUMN " ++ name ++
      if c.nullable then " DROP NOT NULL" else " SET NOT NULL")

/-- Whether a text column gets at least as long as it is. -/
def isLengthening : DataType → DataType → Bool
  | .varchar old, .varchar new => old ≤ new
  | _, _ => false

def retypeColumn (d : Dialect) (table : String) (inKey : Bool) (before after : Column) : Emit :=
  let name := d.quote after.name
  let spelling := d.columnType inKey after
  match d with
  | oracle => .ok [d.modifyColumn table (name ++ " " ++ spelling)]
  | postgreSql =>
    .ok [d.alterTable table ("ALTER COLUMN " ++ name ++ " TYPE " ++ spelling ++ " USING CAST(" ++
      name ++ " AS " ++ spelling ++ ")")]
  | derby =>
    if isLengthening before.dataType after.dataType then
      .ok [d.alterTable table ("ALTER COLUMN " ++ name ++ " SET DATA TYPE " ++ spelling)]
    else
      .error (.unsupportedAlter d table after.name
        ("only VARCHAR columns can be lengthened, not " ++ before.dataType.text ++ " to " ++
          after.dataType.text))
  | _ => .ok [d.alterTable table ("ALTER COLUMN " ++ name ++ " SET DATA TYPE " ++ spelling)]

/-- Sets the default that a column has now, or drops the one it had. -/
def changeDefault (d : Dialect) (table : String) (after : Column) : Statement :=
  match after.default with
  | some value => d.setDefault table after.name value
  | none => d.dropDefault table after.name

/-- The type, then the nullability, then the default, as far as each changes. -/
def alterInSteps (d : Dialect) (table : String) (inKey : Bool) (before after : Column)
    (change : ColumnChange) : Emit := do
  let retyped ← if change.dataType then d.retypeColumn table inKey before after else pure []
  return retyped ++ (if change.nullability then [d.setNullability table after] else []) ++
    if change.default then [d.changeDefault table after] else []

/-- Whether values of one type cannot be turned into the other at all. -/
def isInconvertible (source target : DataType) : Bool :=
  source.family != target.family && (source.family == .binary || target.family == .binary)

/-- A type of another family is reached by way of a copy. -/
def alterByCopy (d : Dialect) (table : String) (inKey : Bool) (before after : Column)
    (change : ColumnChange) : Emit :=
  if change.dataType && isInconvertible before.dataType after.dataType then
    .error (.unsupportedAlter d table after.name
      ("cannot convert " ++ before.dataType.text ++ " to " ++ after.dataType.text))
  else if change.dataType && before.dataType.family != after.dataType.family then
    .ok ((d.copyEdits inKey before after).map (d.editStatement table))
  else d.alterInSteps table inKey before after change

/-- The default is dropped before and added after the type and nullability are restated. -/
def alterAroundDefault (d : Dialect) (table : String) (inKey : Bool) (before after : Column)
    (change : ColumnChange) : List Statement :=
  let touched := change.default || change.isStructural
  (if touched && before.default.isSome then [d.dropDefault table before.name] else []) ++
    (if change.isStructural then
      [d.alterTable table ("ALTER COLUMN " ++ d.quote after.name ++ " " ++
        d.columnType inKey after ++ " " ++ nullText after.nullable)]
    else []) ++
    match after.default with
    | some value => if touched then [d.setDefault table after.name value] else []
    | none => []

/-- The command that a table needs after its rows have changed their form. -/
def reorganize (d : Dialect) (table : String) : Statement :=
  .plain ("CALL SYSPROC.ADMIN_CMD('REORG TABLE " ++
    String.ofList (doubleQuotes '\'' (d.quote table).toList) ++ "')")

/-- A change of type, nullability or default of a column. -/
def alterColumn (d : Dialect) (table : String) (inKey : Bool) (before after : Column)
    (change : ColumnChange) : Emit :=
  match d with
  | oracle => d.alterByCopy table inKey before after change
  | sqlServer => .ok (d.alterAroundDefault table inKey before after change)
  | sybase =>
    .ok ((if change.isStructural then
        [d.alterTable table ("MODIFY " ++ d.quote after.name ++ " " ++ d.columnType inKey after ++
          " " ++ nullText after.nullable)]
      else []) ++
      if change.default then [d.changeDefault table after] else [])
  | mySql => .ok [d.alterTable table ("MODIFY COLUMN " ++ d.columnDefinition inKey after)]
  | db2 => do
    let steps ← d.alterInSteps table inKey before after change
    return steps ++ if change.isStructural then [d.reorganize table] else []
  | sqlite =>
    .error (.unsupportedAlter d table after.name "existing columns cannot be changed")
  | postgreSql | derby | hsqldb => d.alterInSteps table inKey before after change

def dropColumn (d : Dialect) (table : String) (c : Column) : Emit :=
  let dropped := d.alterTable table ("DROP COLUMN " ++ d.quote c.name)
  match d with
  | sqlServer =>
    .ok ((if c.default.isSome then [d.dropDefault table c.name] else []) ++ [dropped])
  | sybase => .ok [d.alterTable table ("DROP " ++ d.quote c.name)]
  | db2 => .ok [dropped, d.reorganize table]
  | _ =>
    if d.capabilities.dropColumn then .ok [dropped]
    else .error (.unsupportedOperation d "DROP COLUMN" ("column " ++ table ++ "." ++ c.name))

end Schemata.Dialect
