import Schemata.Schema
import Schemata.Token.Lexer

/-!
A schema as canonical text. Names that would be read as another token are quoted.
-/

namespace Schemata

/-- A name as the schema language writes it. -/
def nameText (name : String) : String :=
  if isReserved name then "\"" ++ name ++ "\"" else name

/-- Expressions in the schema language. -/
def Style.schema : Style :=
  Style.ofIdentifier nameText

def nameList (names : List String) : String :=
  commaSeparated (names.map nameText)

/-- The text after a lead, if there is a value. -/
def optionalText {α : Type} (lead : String) (text : α → String) : Option α → String
  | none => ""
  | some a => lead ++ text a

def ScopedHint.text (entry : ScopedHint) : String :=
  entry.scope.text ++ " " ++ entry.hint.key.keyword ++
    optionalText " = " quoteText entry.hint.value?

/-- A hint block after a lead, if there are hints. -/
def hintsText (lead : String) (hints : Hints) : String :=
  if hints.isEmpty then ""
  else lead ++ "DBMS HINTS (" ++ commaSeparated (hints.map ScopedHint.text) ++ ")"

def Reference.print (r : Reference) : String :=
  "REFERENCES " ++ nameText r.table ++ "(" ++ nameText r.column ++ ")" ++
    optionalText " ON DELETE " ReferentialAction.text r.onDelete ++
    optionalText " ON UPDATE " ReferentialAction.text r.onUpdate

def Column.print (c : Column) : String :=
  nameText c.name ++ " " ++ c.dataType.text ++ (if c.nullable then "" else " NOT NULL") ++
    optionalText " DEFAULT " DefaultValue.text c.default ++
    optionalText " " Reference.print c.reference ++
    optionalText " COMMENT " quoteText c.comment ++ hintsText " " c.hints

def PrimaryKey.print (k : PrimaryKey) : String :=
  "CONSTRAINT " ++ nameText k.name ++ " PRIMARY KEY (" ++ nameList k.columns ++ ")"

def UniqueConstraint.print (u : UniqueConstraint) : String :=
  "CONSTRAINT " ++ nameText u.name ++ " UNIQUE (" ++ nameList u.columns ++ ")"

def ForeignKey.print (f : ForeignKey) : String :=
  "CONSTRAINT " ++ nameText f.name ++ " FOREIGN KEY (" ++ nameText f.column ++ ") " ++
    f.reference.print

def Index.print (i : Index) : String :=
  "INDEX " ++ nameText i.name ++ " (" ++ nameList i.columns ++ ")" ++ hintsText " " i.hints

namespace Table

/-- Columns, primary key, unique constraints, declared foreign keys, indexes. -/
def printedElements (t : Table) : List String :=
  t.columns.map Column.print ++ [t.primaryKey.print] ++ t.uniques.map UniqueConstraint.print ++
    t.declaredForeignKeys.map ForeignKey.print ++ t.indexes.map Index.print

def printedTrigger (t : Table) : String :=
  if t.onDelete.isEmpty then ""
  else "\nON DELETE (\n" ++
    String.join (t.onDelete.map fun dml => "    " ++ dml.render .schema ++ ";\n") ++ ")"

def print (t : Table) : String :=
  "CREATE TABLE " ++ nameText t.name ++ " (\n" ++
    String.intercalate ",\n" (t.printedElements.map ("    " ++ ·)) ++ "\n)" ++
    optionalText "\nCOMMENT " quoteText t.comment ++ t.printedTrigger ++ hintsText "\n" t.hints ++
    ";\n"

end Table

def View.print (v : View) : String :=
  "CREATE VIEW " ++ nameText v.name ++ " (" ++ nameList v.columns ++ ") AS\n    " ++
    v.query.first.render .schema ++
    String.join (v.query.unions.map fun (kind, s) =>
      "\n    " ++ kind.text ++ "\n    " ++ s.render .schema) ++
    optionalText "\nCOMMENT " quoteText v.comment ++ hintsText "\n" v.hints ++ ";\n"

def DmlStatement.print (d : DmlStatement) : String :=
  "CREATE STATEMENT " ++ nameText d.name ++ " AS\n    " ++ d.body.render .schema ++ ";\n"

/-- Tables, then views, then statements, with a blank line between any two. -/
def Schema.print (s : Schema) : String :=
  String.intercalate "\n"
    (s.tables.map Table.print ++ s.views.map View.print ++ s.statements.map DmlStatement.print)

end Schemata
