import Schemata.Table
import Schemata.Grammar.Hint

/-!
Reading tables. An element, hint or action statement that cannot be read is recorded and skipped,
so that the next one is read too.
-/

namespace Schemata.Grammar

open Reader

/-- The value, or a mistake at `place`. -/
def orInvalid {α : Type} (place : Span) : Except SchemaError α → Reader α
  | .ok a => return a
  | .error e => refuse (.invalidSchema e) place

/-- A precision and maybe a scale: `(p)` or `(p, s)`. -/
def precisionAndScale : Reader (Nat × Option Nat) := do
  expectSymbol .lparen
  let precision ← expectCount
  let scale ← if ← eatSymbol .comma then some <$> expectCount else pure none
  expectSymbol .rparen
  return (precision, scale)

def lengthInParentheses : Reader Nat := do
  expectSymbol .lparen
  let length ← expectCount
  expectSymbol .rparen
  return length

def dataType : Reader DataType := do
  let l ← next "data type"
  match l.token with
  | .keyword .bit => return .bit
  | .keyword .integer => return .integer
  | .keyword .bigInt => return .bigInt
  | .keyword .float => return .float
  | .keyword .clob => return .clob
  | .keyword .date => return .date
  | .keyword .time => return .time
  | .keyword .dateTime => return .dateTime
  | .keyword .blob => return .blob
  | .keyword .decimal =>
    let (precision, scale) ← precisionAndScale
    orInvalid l.span (DataType.decimal? precision (scale.getD 0))
  | .keyword .number =>
    if ← isAt (.symbol .lparen) then
      let (precision, scale) ← precisionAndScale
      discard (orInvalid l.span (DataType.decimal? precision (scale.getD 0)))
      return .number (some precision) scale
    else return .number none none
  | .keyword .char => do
    let length ← lengthInParentheses
    orInvalid l.span (DataType.char? length)
  | .keyword .varchar => do
    let length ← lengthInParentheses
    orInvalid l.span (DataType.varchar? length)
  | _ => refuseLexeme "data type" l

/-- A constant; only a number may have a sign. -/
def literal : Reader Literal := do
  let negative ← eatSymbol .minus
  let l ← next "literal"
  match l.token, negative with
  | .integer _, _ | .decimal _, _ => numberLiteral negative l
  | .keyword .null, false => return .null
  | .string value, false => return .string value
  | _, _ => refuseLexeme "literal" l

def defaultValue : Reader DefaultValue := do
  if ← eatKeyword .currentTimestamp then return .currentTimestamp
  else .literal <$> literal

def referentialAction : Reader ReferentialAction := do
  let l ← next "referential action"
  match l.token with
  | .keyword .cascade => return .cascade
  | .keyword .restrict => return .restrict
  | .keyword .set =>
    expectKeyword .null
    return .setNull
  | .keyword .no =>
    expectKeyword .action
    return .noAction
  | _ => refuseLexeme "CASCADE, SET NULL, NO ACTION, or RESTRICT" l

/-- An `ON DELETE` or `ON UPDATE` with its action, if one begins here. -/
def actionClause? (r : Reference) : Reader (Option Reference) := do
  if ← eatKeyword .on then
    let l ← next "DELETE or UPDATE"
    match l.token with
    | .keyword .delete =>
      let action ← referentialAction
      return some { r with onDelete := some action }
    | .keyword .update =>
      let action ← referentialAction
      return some { r with onUpdate := some action }
    | _ => refuseLexeme "DELETE or UPDATE" l
  else return none

/-- Any number of action clauses; a later one of the same kind wins. -/
def actionClauses (r : Reference) (ts : List Lexeme) :
    Except Refusal (Reference × List Lexeme) :=
  match actionClause? r ts with
  | .error e => .error e
  | .ok (none, rest) => .ok (r, rest)
  | .ok (some r', rest) =>
    if rest.length < ts.length then actionClauses r' rest else .ok (r', rest)
termination_by ts.length

def references : Reader Reference := do
  expectKeyword .references
  let (table, _) ← expectName "referenced table"
  expectSymbol .lparen
  let (column, _) ← expectName "referenced column"
  expectSymbol .rparen
  actionClauses { table, column }

/-- A column being read, and the table that its key options are added to. -/
structure ColumnDraft where
  column : Column
  table : TableDraft

/-- An option of a column, if one begins here; a later one of the same kind wins. -/
def columnOption? (d : ColumnDraft) : Recovering (Option ColumnDraft) := do
  let c := d.column
  match ← peek? with
  | some (.keyword .not) =>
    expectKeyword .not
    expectKeyword .null
    return some { d with column := { c with nullable := false } }
  | some (.keyword .null) =>
    expectKeyword .null
    return some { d with column := { c with nullable := true } }
  | some (.keyword .default) =>
    expectKeyword .default
    let value ← defaultValue
    return some { d with column := { c with default := some value } }
  | some (.keyword .primary) =>
    expectKeyword .primary
    expectKeyword .key
    return some {
      column := { c with nullable := false }, table := d.table.addPrimaryKey none [c.name] }
  | some (.keyword .unique) =>
    expectKeyword .unique
    return some { d with table := d.table.addUnique none [c.name] }
  | some (.keyword .references) =>
    let reference ← references
    return some { d with column := { c with reference := some reference } }
  | some (.keyword .comment) =>
    expectKeyword .comment
    let comment ← expectString
    return some { d with column := { c with comment := some comment } }
  | some (.keyword .dbms) =>
    let hints ← hintBlock .column
    return some { d with column := { c with hints } }
  | _ => return none

def column (table : TableDraft) : Recovering TableDraft := do
  let (name, place) ← expectName "column definition or table constraint"
  let type ← dataType
  let d ← repeatClauses columnOption? ⟨{ name, dataType := type }, table⟩
  let c ← orInvalid place d.column.build
  return d.table.addColumn c

/-- A key or foreign key, which may have a name; `none` if none begins here. -/
def keyElement? (table : TableDraft) (name : Option String) : Reader (Option TableDraft) := do
  match ← peek? with
  | some (.keyword .primary) =>
    expectKeyword .primary
    expectKeyword .key
    let columns ← columnList
    return some (table.addPrimaryKey name columns)
  | some (.keyword .unique) =>
    expectKeyword .unique
    let columns ← columnList
    return some (table.addUnique name columns)
  | some (.keyword .foreign) =>
    expectKeyword .foreign
    expectKeyword .key
    expectSymbol .lparen
    let (column, _) ← expectName "column name"
    expectSymbol .rparen
    let reference ← references
    return some (table.addForeignKey name column reference)
  | _ => return none

def indexElement (table : TableDraft) : Recovering TableDraft := do
  expectKeyword .index
  let (name, _) ← expectName "index name"
  let columns ← columnList
  let hints ← if ← isAt (.keyword .dbms) then hintBlock .index else pure []
  return table.addIndex ⟨name, columns, hints⟩

def tableElement (table : TableDraft) : Recovering TableDraft := do
  if ← eatKeyword .constraint then
    let (name, _) ← expectName "constraint name"
    match ← keyElement? table (some name) with
    | some table => return table
    | none => refuseHere (α := TableDraft) "PRIMARY KEY, UNIQUE, or FOREIGN KEY"
  else
    match ← keyElement? table none with
    | some table => return table
    | none =>
      if ← isAt (.keyword .index) then indexElement table else column table

/-- Statements with a semicolon after each, the last one's optional. -/
def actionStatements (read : List Dml) (ts : List Lexeme) :
    List Refusal × List Dml × List Lexeme :=
  match ts with
  | [] => ([], read, [])
  | l :: following =>
    if l.token = .symbol .rparen then ([], read, l :: following)
    else
      match Recovering.itemOrSkip .semicolon
          (fun (read : List Dml) => do return read ++ [← dml]) read (l :: following) with
      | (recorded, read', s :: rest) =>
        if s.token = .symbol .semicolon ∧ rest.length ≤ following.length then
          let (more, last, left) := actionStatements read' rest
          (recorded ++ more, last, left)
        else (recorded, read', s :: rest)
      | (recorded, read', []) => (recorded, read', [])
termination_by ts.length
decreasing_by simp only [List.length_cons]; omega

def actionBlock : Recovering (List Dml) := do
  expectSymbol .lparen
  let statements ← (fun ts =>
    let (recorded, read, left) := actionStatements [] ts
    ⟨recorded, .ok (read, left)⟩ : Recovering (List Dml))
  expectSymbol .rparen
  return statements

/-- A clause after the elements, if one begins here; a later one of the same kind wins. -/
def tableClause? (table : TableDraft) : Recovering (Option TableDraft) := do
  match ← peek? with
  | some (.keyword .comment) =>
    expectKeyword .comment
    let comment ← expectString
    return some { table with comment := some comment }
  | some (.keyword .on) =>
    expectKeyword .on
    expectKeyword .delete
    let statements ← actionBlock
    return some { table with onDelete := some statements }
  | some (.keyword .dbms) =>
    let hints ← hintBlock .table
    return some { table with hints }
  | _ => return none

/-- A table with the place of its name, or `none` if a mistake was recorded for it. If skipping an
element led past the closing parenthesis, the table ends at the semicolon there. -/
def table : Recovering (Option (Table × Span)) := do
  let (name, place) ← expectName "table name"
  expectSymbol .lparen
  let (elements, clean) ← (Recovering.sepBy1 tableElement { name }).noting
  if !clean && (← isAt (.symbol .semicolon)) then return none
  expectSymbol .rparen
  let (draft, cleanClauses) ← (repeatClauses tableClause? elements).noting
  if !(clean && cleanClauses) then return none
  match draft.build with
  | .ok t => return some (t, place)
  | .error e =>
    Recovering.record (.invalidSchema e) place
    return none

end Schemata.Grammar
