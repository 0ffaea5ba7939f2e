import Schemata.Text.Lines

/-!
Scripts: statements in order, and how a dialect ends and separates them.
-/

namespace Schemata

/-- A block is a procedural body with semicolons of its own; a comment is never run. -/
inductive StatementKind where
  | plain
  | block
  | comment
  deriving DecidableEq, Repr

/-- One statement, without what ends it. -/
structure Statement where
  kind : StatementKind
  sql : String
  deriving DecidableEq, Repr

/-- What stands around the statements of a script. -/
structure Delimiter where
  terminator : String := ";"
  blockOpening : Option String := none
  blockTerminator : String := ";"
  batchSeparator : Option String := none
  deriving DecidableEq, Repr

namespace Statement

def plain (sql : String) : Statement := ⟨.plain, sql⟩

def block (sql : String) : Statement := ⟨.block, sql⟩

def comment (text : String) : Statement := ⟨.comment, text⟩

def isComment (s : Statement) : Bool :=
  s.kind == .comment

def commentLine (line : String) : String :=
  if line.isEmpty then "--" else "-- " ++ line

def render (d : Delimiter) (s : Statement) : String :=
  let separator := (d.batchSeparator.map ("\n" ++ ·)).getD ""
  match s.kind with
  | .comment => String.intercalate "\n" ((textLines s.sql).map commentLine)
  | .plain => s.sql ++ d.terminator ++ separator
  | .block => d.blockOpening.getD "" ++ s.sql ++ d.blockTerminator ++ separator

end Statement

abbrev Script := List Statement

namespace Script

/-- The number of statements that are run. -/
def executableCount (script : Script) : Nat :=
  List.countP (fun s => !s.isComment) script

/-- The statements one below the other. What is run is followed by a blank line, a comment stands
right above the next statement. -/
def renderLines (d : Delimiter) : List Statement → String
  | [] => ""
  | [s] => s.render d
  | s :: next :: rest =>
    s.render d ++ (if s.isComment then "\n" else "\n\n") ++ renderLines d (next :: rest)

/-- The script as text; a script that has any ends with a line feed. -/
def render (d : Delimiter) (script : Script) : String :=
  let text := renderLines d script
  if text.isEmpty then "" else text ++ "\n"

end Script

end Schemata
