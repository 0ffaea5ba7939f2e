import Schemata.Dml
import Schemata.Grammar.Expr

/-!
Reading statements that change rows.
-/

namespace Schemata.Grammar

open Reader

/-- A filter `WHERE e`, if it is there. -/
def optionalFilter : Reader (Option Expr) := do
  if ← eatKeyword .where then some <$> expr else return none

/-- An insert without one value for each column is a mistake from its table's name to its end. -/
def insertStatement : Reader Dml := do
  expectKeyword .insert
  expectKeyword .into
  let (table, place) ← expectName "table name"
  let columns ← columnList
  expectKeyword .values
  expectSymbol .lparen
  let values ← sepBy1 .comma expr
  let close ← expect (.symbol .rparen)
  match Dml.insert? table columns values with
  | .ok dml => return dml
  | .error e => refuse (.invalidSchema e) (place.cover close.span)

def assignment : Reader (String × Expr) := do
  let (column, _) ← expectName "column name"
  expectSymbol .eq
  let value ← expr
  return (column, value)

def updateStatement : Reader Dml := do
  expectKeyword .update
  let (table, _) ← expectName "table name"
  expectKeyword .set
  let assignments ← sepBy1 .comma assignment
  let filter ← optionalFilter
  return .update table assignments filter

def deleteStatement : Reader Dml := do
  expectKeyword .delete
  expectKeyword .from
  let (table, _) ← expectName "table name"
  let filter ← optionalFilter
  return .delete table filter

def dml : Reader Dml := do
  match ← peek? with
  | some (.keyword .insert) => insertStatement
  | some (.keyword .update) => updateStatement
  | some (.keyword .delete) => deleteStatement
  | _ => refuseHere "INSERT, UPDATE, or DELETE"

/-- A named template, with the place of its name. -/
def template : Reader (DmlStatement × Span) := do
  let (name, place) ← expectName "statement name"
  expectKeyword .as
  let body ← dml
  return (⟨name, body⟩, place)

end Schemata.Grammar
