import Schemata.Dialect.Naming
import Schemata.Expr.Render
import Schemata.Plan
import Schemata.Script

/-!
What sets the dialects apart besides names and types: delimiters, comments, capabilities, constants
and the form of expressions.
-/

namespace Schemata

/-- Where the comments of tables and columns go. -/
inductive CommentStyle where
  | commentOn
  | inline
  | extendedProperty
  | scriptOnly
  deriving DecidableEq, Repr

/-- What a dialect can express. With `inlineForeignKeys` a foreign key can only be declared where
its table or column is created. -/
structure Capabilities where
  inlineForeignKeys : Bool := false
  alterConstraints : Bool := true
  deleteActions : Bool := true
  updateActions : Bool := true
  dropColumn : Bool := true
  deriving DecidableEq, Repr

/-- The qualifier that names the deleted row inside an action block. -/
def oldRowQualifier : String := "OLD"

namespace Dialect

def delimiter : Dialect → Delimiter
  | oracle => { blockTerminator := "\n/" }
  | sqlServer => { blockTerminator := "", batchSeparator := some "GO" }
  | sybase => { terminator := "", blockTerminator := "", batchSeparator := some "go" }
  | mySql => { blockOpening := some "DELIMITER //\n", blockTerminator := "\n//\nDELIMITER ;" }
  | db2 =>
    { blockOpening := some "--#SET TERMINATOR @\n", blockTerminator := "\n@\n--#SET TERMINATOR ;" }
  | postgreSql | derby | hsqldb | sqlite => {}

def commentStyle : Dialect → CommentStyle
  | sqlServer => .extendedProperty
  | mySql => .inline
  | sybase | derby | sqlite => .scriptOnly
  | oracle | postgreSql | db2 | hsqldb => .commentOn

/-- What a plan for the dialect creates again around a column change. -/
def recreateOptions : Dialect → RecreateOptions
  | oracle | sybase => { RecreateOptions.all with defaults := false }
  | sqlServer => .all
  | sqlite => .none
  | postgreSql | mySql | db2 | derby | hsqldb => .foreignKeysOnly

def capabilities : Dialect → Capabilities
  | oracle | db2 | derby => { updateActions := false }
  | sybase => { deleteActions := false, updateActions := false }
  | sqlite => { inlineForeignKeys := true, alterConstraints := false, dropColumn := false }
  | sqlServer | postgreSql | mySql | hsqldb => {}

def currentTimestamp : Dialect → String
  | oracle => "SYSTIMESTAMP"
  | sybase => "getdate()"
  | db2 => "CURRENT TIMESTAMP"
  | _ => "CURRENT_TIMESTAMP"

def concat (d : Dialect) (left right : String) : String :=
  match d with
  | sqlServer | sybase => left ++ " + " ++ right
  | mySql => "CONCAT(" ++ left ++ ", " ++ right ++ ")"
  | _ => left ++ " || " ++ right

/-- A quoted text; where a backslash escapes, it is doubled too. -/
def stringLiteral (d : Dialect) (text : String) : String :=
  match d with
  | mySql => quoteText (String.ofList (doubleQuotes '\\' text.toList))
  | _ => quoteText text

def literal (d : Dialect) : Literal → String
  | .string text => d.stringLiteral text
  | value => value.text

def defaultText (d : Dialect) : DefaultValue → String
  | .literal value => d.literal value
  | .currentTimestamp => d.currentTimestamp

/-- Expressions in the dialect. `oldRow` names the deleted row in a trigger; a column without a
qualifier gets `qualifier`, if there is one. -/
def style (d : Dialect) (oldRow qualifier : Option String) : Style where
  identifier := d.quote
  column
    | some q, name =>
      match oldRow with
      | some row => (if q = oldRowQualifier then row else d.quote q) ++ "." ++ d.quote name
      | none => d.quote q ++ "." ++ d.quote name
    | none, name =>
      match qualifier with
      | some table => d.quote table ++ "." ++ d.quote name
      | none => d.quote name
  concat := d.concat
  literal := d.literal

/-- Expressions outside of triggers. -/
def plainStyle (d : Dialect) : Style :=
  d.style none none

end Dialect

end Schemata
