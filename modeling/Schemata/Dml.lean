import Schemata.SchemaError
import Schemata.Expr.Render

/-!
Statements that change rows, and the named templates made of them.
-/

namespace Schemata

inductive Dml where
  | insert (table : String) (columns : List String) (values : List Expr)
  | update (table : String) (assignments : List (String × Expr)) (filter : Option Expr)
  | delete (table : String) (filter : Option Expr)
  deriving DecidableEq, Repr

namespace Dml

/-- An insert with one value for each column. -/
def insert? (table : String) (columns : List String) (values : List Expr) :
    Except SchemaError Dml :=
  if columns.length = values.length then .ok (.insert table columns values)
  else .error (.insertArity table columns.length values.length)

/-- The table whose rows change. -/
def table : Dml → String
  | insert table _ _ | update table _ _ | delete table _ => table

/-- All expressions, in reading order. -/
def expressions : Dml → List Expr
  | insert _ _ values => values
  | update _ assignments filter => assignments.map (·.2) ++ filter.toList
  | delete _ filter => filter.toList

/-- The columns of the target table that are written. -/
def targetColumns : Dml → List String
  | insert _ columns _ => columns
  | update _ assignments _ => assignments.map (·.1)
  | delete _ _ => []

def hasParameters (dml : Dml) : Bool :=
  dml.expressions.any Expr.hasParameters

def assignmentText (s : Style) (assignment : String × Expr) : String :=
  s.identifier assignment.1 ++ " = " ++ assignment.2.render s

/-- The statement on one line, without a terminator. -/
def render (s : Style) : Dml → String
  | insert table columns values =>
    "INSERT INTO " ++ s.identifier table ++ " (" ++ commaSeparated (columns.map s.identifier) ++
      ") VALUES (" ++ commaSeparated (values.map (Expr.render s)) ++ ")"
  | update table assignments filter =>
    "UPDATE " ++ s.identifier table ++ " SET " ++
      commaSeparated (assignments.map (assignmentText s)) ++ Expr.renderOption s " WHERE " filter
  | delete table filter =>
    "DELETE FROM " ++ s.identifier table ++ Expr.renderOption s " WHERE " filter

end Dml

/-- A named template. -/
structure DmlStatement where
  name : String
  body : Dml
  deriving DecidableEq, Repr

end Schemata
