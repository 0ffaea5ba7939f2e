/-!
Names of tables, columns and constraints, and the names that keys get when none is written.
-/

namespace Schemata

def isNameStart (c : Char) : Bool :=
  c.isAlpha || c == '_'

def isNameChar (c : Char) : Bool :=
  c.isAlphanum || c == '_'

/-- A letter or underscore, then letters, digits and underscores; ASCII only. -/
def isIdentifier (text : String) : Bool :=
  match text.toList with
  | [] => false
  | c :: cs => isNameStart c && cs.all isNameChar

def primaryKeyName (table : String) : String :=
  "PK_" ++ table

def uniqueName (table : String) (columns : List String) : String :=
  "UQ_" ++ table ++ "_" ++ String.intercalate "_" columns

def foreignKeyName (table column : String) : String :=
  "FK_" ++ table ++ "_" ++ column

end Schemata
