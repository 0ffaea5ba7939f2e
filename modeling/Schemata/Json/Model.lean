import Schemata.Json.Decode
import Schemata.Schema

/-!
Schemas and their parts as JSON, and back. What is absent or empty is left out.
-/

namespace Schemata

open Json

namespace DataType

/-- The types that have no size. -/
def plainTypes : List (String × DataType) :=
  [("bit", bit), ("integer", integer), ("big_int", bigInt), ("float", float), ("clob", clob),
   ("date", date), ("time", time), ("date_time", dateTime), ("blob", blob)]

def toJson : DataType → Json
  | decimal p s => object [("type", "decimal"), ("precision", Json.nat p), ("scale", Json.nat s)]
  | number p s =>
    object [("type", "number"), ("precision", orNull Json.nat p), ("scale", orNull Json.nat s)]
  | char n => object [("type", "char"), ("length", Json.nat n)]
  | varchar n => object [("type", "varchar"), ("length", Json.nat n)]
  | t => object [("type", orNull (fun entry => string entry.1) (plainTypes.find? (·.2 == t)))]

/-- The type as it is described; sizes are not checked. -/
def ofJson (j : Json) : Decoded DataType := do
  let (kind, body) ← asTagged asString "type" j
  match kind with
  | "decimal" =>
    let r ← asRecord ["precision", "scale"] 2 body
    return decimal (← need (asWord 32) r "precision") (← need (asWord 32) r "scale")
  | "number" =>
    let r ← asRecord ["precision", "scale"] 2 body
    return number (← want (asWord 32) r "precision") (← want (asWord 32) r "scale")
  | "char" => return char (← need (asWord 32) (← asRecord ["length"] 1 body) "length")
  | "varchar" => return varchar (← need (asWord 32) (← asRecord ["length"] 1 body) "length")
  | name =>
    let _ ← asRecord [] 0 body
    match plainTypes.lookup name with
    | some t => return t
    | none => throw .shape

end DataType

namespace Literal

def toJson : Literal → Json
  | null => object [("kind", "null")]
  | integer n => object [("kind", "integer"), ("value", number n)]
  | decimal s => object [("kind", "decimal"), ("value", s)]
  | string s => object [("kind", "string"), ("value", s)]

/-- Integers have 64 bits and a sign. -/
def ofJson (nested : Bool) (j : Json) : Decoded Literal := do
  let (kind, value) ← asTagAndContent nested "kind" "value" j
  match kind with
  | "null" => noContent null value
  | "integer" => integer <$> content (asIntIn (-0x8000000000000000) 0x7fffffffffffffff) value
  | "decimal" => decimal <$> content asString value
  | "string" => string <$> content asString value
  | _ => throw .shape

end Literal

namespace DefaultValue

def toJson : DefaultValue → Json
  | literal value => object [("kind", "literal"), ("value", value.toJson)]
  | currentTimestamp => object [("kind", "current_timestamp")]

def ofJson (j : Json) : Decoded DefaultValue := do
  let (kind, value) ← asTagAndContent false "kind" "value" j
  match kind with
  | "literal" => literal <$> content (Literal.ofJson false) value
  | "current_timestamp" => noContent currentTimestamp value
  | _ => throw .shape

end DefaultValue

namespace ReferentialAction

def code : ReferentialAction → String
  | cascade => "cascade"
  | setNull => "set_null"
  | noAction => "no_action"
  | restrict => "restrict"

def ofJson : Json → Decoded ReferentialAction :=
  asOneOf false [cascade, setNull, noAction, restrict] code

end ReferentialAction

namespace Reference

def toJson (r : Reference) : Json :=
  object ([("table", string r.table), ("column", string r.column)] ++
    memberIfAny "on_delete" (fun a => a.code) r.onDelete ++
    memberIfAny "on_update" (fun a => a.code) r.onUpdate)

def ofJson (j : Json) : Decoded Reference := do
  let r ← asRecord ["table", "column", "on_delete", "on_update"] 2 j
  return ⟨← need asString r "table", ← need asString r "column",
    ← want ReferentialAction.ofJson r "on_delete", ← want ReferentialAction.ofJson r "on_update"⟩

end Reference

def Dialect.ofJson : Json → Decoded Dialect :=
  asOneOf false Dialect.all Dialect.id

namespace HintScope

def toJson : HintScope → Json
  | all => object [("scope", "all")]
  | dialect d => object [("scope", "dialect"), ("dialect", d.id)]

def ofJson (j : Json) : Decoded HintScope := do
  let (scope, about) ← asTagAndContent false "scope" "dialect" j
  match scope with
  | "all" => noContent all about
  | "dialect" => dialect <$> content Dialect.ofJson about
  | _ => throw .shape

end HintScope

def HintKey.code : HintKey → String
  | columnType => "column_type"
  | enumeration => "enumeration"
  | truncate => "truncate_on_write"
  | emptyAsNull => "empty_as_null"
  | tablespace => "tablespace"
  | options => "options"

namespace Hint

def toJson (h : Hint) : Json :=
  object (("hint", string h.key.code) :: memberIfAny "value" string h.value?)

def ofJson (j : Json) : Decoded Hint := do
  let (code, value) ← asTagAndContent false "hint" "value" j
  let key ← byCode HintKey.all HintKey.code code
  let value ← if key.takesValue then some <$> content asString value else noContent none value
  match ofParts? key value with
  | some h => return h
  | none => throw .shape

end Hint

namespace ScopedHint

def toJson (h : ScopedHint) : Json :=
  object [("scope", h.scope.toJson), ("hint", h.hint.toJson)]

def ofJson (j : Json) : Decoded ScopedHint := do
  let r ← asRecord ["scope", "hint"] 2 j
  return ⟨← need HintScope.ofJson r "scope", ← need Hint.ofJson r "hint"⟩

end ScopedHint

namespace Column

def toJson (c : Column) : Json :=
  object ([("name", string c.name), ("data_type", c.dataType.toJson),
      ("nullable", bool c.nullable)] ++
    memberIfAny "default" DefaultValue.toJson c.default ++
    memberIfAny "reference" Reference.toJson c.reference ++
    memberIfAny "comment" string c.comment ++
    membersIfAny "hints" ScopedHint.toJson c.hints)

def ofJson (j : Json) : Decoded Column := do
  let c : Column := {
    name := ← need asString j "name"
    dataType := ← need DataType.ofJson j "data_type"
    nullable := ← wantFlag j "nullable" true
    default := ← want DefaultValue.ofJson j "default"
    reference := ← want Reference.ofJson j "reference"
    comment := ← want asString j "comment"
    hints := ← wantList ScopedHint.ofJson j "hints" }
  .ofSchema c.build

end Column

namespace PrimaryKey

def toJson (k : PrimaryKey) : Json :=
  object [("name", k.name), ("columns", strings k.columns)]

def ofJson (j : Json) : Decoded PrimaryKey := do
  let r ← asRecord ["name", "columns"] 2 j
  return ⟨← need asString r "name", ← need (asList asString) r "columns"⟩

end PrimaryKey

namespace UniqueConstraint

def toJson (u : UniqueConstraint) : Json :=
  object [("name", u.name), ("columns", strings u.columns)]

def ofJson (j : Json) : Decoded UniqueConstraint := do
  let r ← asRecord ["name", "columns"] 2 j
  return ⟨← need asString r "name", ← need (asList asString) r "columns"⟩

end UniqueConstraint

namespace Index

def toJson (i : Index) : Json :=
  object ([("name", string i.name), ("columns", strings i.columns)] ++
    membersIfAny "hints" ScopedHint.toJson i.hints)

def ofJson (j : Json) : Decoded Index := do
  let r ← asRecord ["name", "columns", "hints"] 2 j
  return ⟨← need asString r "name", ← need (asList asString) r "columns",
    ← listIfPresent ScopedHint.ofJson r "hints"⟩

end Index

namespace ForeignKey

def toJson (f : ForeignKey) : Json :=
  object [("name", f.name), ("column", f.column), ("reference", f.reference.toJson)]

def ofJson (j : Json) : Decoded ForeignKey := do
  let r ← asRecord ["name", "column", "reference"] 3 j
  return ⟨← need asString r "name", ← need asString r "column",
    ← need Reference.ofJson r "reference"⟩

end ForeignKey

namespace BinaryOp

def code : BinaryOp → String
  | or => "or"
  | and => "and"
  | eq => "eq"
  | notEq => "not_eq"
  | lt => "lt"
  | ltEq => "lt_eq"
  | gt => "gt"
  | gtEq => "gt_eq"
  | like => "like"
  | plus => "plus"
  | minus => "minus"
  | concat => "concat"
  | multiply => "multiply"
  | divide => "divide"

def ofJson : Json → Decoded BinaryOp :=
  asOneOf true
    [or, and, eq, notEq, lt, ltEq, gt, gtEq, like, plus, minus, concat, multiply, divide] code

end BinaryOp

namespace UnaryOp

def code : UnaryOp → String
  | not => "not"
  | neg => "neg"

def ofJson : Json → Decoded UnaryOp :=
  asOneOf true [not, neg] code

end UnaryOp

namespace Expr

mutual

def toJson : Expr → Json
  | literal value => object [("expr", "literal"), ("value", value.toJson)]
  | column qualifier name =>
    object [("expr", "column"), ("qualifier", orNull string qualifier), ("name", name)]
  | parameter name => object [("expr", "parameter"), ("name", name)]
  | call name args =>
    object [("expr", "function"), ("name", name), ("args", array (toJsonAll args))]
  | caseWhen operand branches otherwise =>
    object [("expr", "case"), ("operand", toJsonOption operand),
      ("branches", array (toJsonBranches branches)), ("otherwise", toJsonOption otherwise)]
  | binary op left right =>
    object [("expr", "binary"), ("op", op.code), ("left", toJson left), ("right", toJson right)]
  | unary op operand => object [("expr", "unary"), ("op", op.code), ("operand", toJson operand)]
  | isNull operand negated =>
    object [("expr", "is_null"), ("operand", toJson operand), ("negated", negated)]

def toJsonAll : List Expr → List Json
  | [] => []
  | e :: es => toJson e :: toJsonAll es

def toJsonOption : Option Expr → Json
  | none => .null
  | some e => toJson e

def toJsonBranches : List (Expr × Expr) → List Json
  | [] => []
  | (a, b) :: rest => array [toJson a, toJson b] :: toJsonBranches rest

end

/-- The kinds of expressions with the fields of each. -/
def kindFields : List (String × List String) :=
  [("literal", ["value"]), ("column", ["qualifier", "name"]), ("parameter", ["name"]),
   ("function", ["name", "args"]), ("case", ["operand", "branches", "otherwise"]),
   ("binary", ["op", "left", "right"]), ("unary", ["op", "operand"]),
   ("is_null", ["operand", "negated"])]

/-- An expression that is nested at most so deep. -/
def ofJsonWithin (nested : Bool) : Nat → Json → Decoded Expr
  | 0, _ => .error .shape
  | depth + 1, j => do
    let inner := ofJsonWithin true depth
    let (kind, body) ← asTagged (asTag nested (kindFields.map (·.1))) "expr" j
    let fields := (kindFields.lookup kind).getD []
    let r ← asRecord fields fields.length body
    match kind with
    | "literal" => return literal (← need (Literal.ofJson true) r "value")
    | "column" => return column (← want asString r "qualifier") (← need asString r "name")
    | "parameter" => return parameter (← need asString r "name")
    | "function" => return call (← need asString r "name") (← need (asList inner) r "args")
    | "case" =>
      return caseWhen (← want inner r "operand") (← need (asList (asPair inner inner)) r "branches")
        (← want inner r "otherwise")
    | "binary" =>
      return binary (← need BinaryOp.ofJson r "op") (← need inner r "left") (← need inner r "right")
    | "unary" => return unary (← need UnaryOp.ofJson r "op") (← need inner r "operand")
    | "is_null" => return isNull (← need inner r "operand") (← need asBool r "negated")
    | _ => throw .shape

def ofJson (j : Json) : Decoded Expr :=
  ofJsonWithin false (j.depth + 1) j

end Expr

namespace Dml

def toJson : Dml → Json
  | insert table columns values =>
    object [("dml", "insert"), ("table", table), ("columns", strings columns),
      ("values", array (values.map Expr.toJson))]
  | update table assignments filter =>
    object [("dml", "update"), ("table", table),
      ("assignments", array (assignments.map fun (c, e) => array [string c, e.toJson])),
      ("filter", orNull Expr.toJson filter)]
  | delete table filter =>
    object [("dml", "delete"), ("table", table), ("filter", orNull Expr.toJson filter)]

def ofJson (j : Json) : Decoded Dml := do
  let table ← need asString j "table"
  match ← need asString j "dml" with
  | "insert" =>
    let columns ← need (asList asString) j "columns"
    let values ← need (asList Expr.ofJson) j "values"
    .ofSchema (insert? table columns values)
  | "update" =>
    return update table (← need (asList (asPair asString Expr.ofJson)) j "assignments")
      (← want Expr.ofJson j "filter")
  | "delete" => return delete table (← want Expr.ofJson j "filter")
  | _ => throw .shape

end Dml

def DmlStatement.toJson (d : DmlStatement) : Json :=
  object [("name", d.name), ("body", d.body.toJson)]

def Table.toJson (t : Table) : Json :=
  object ([("name", string t.name), ("columns", array (t.columns.map Column.toJson)),
      ("primary_key", t.primaryKey.toJson)] ++
    membersIfAny "unique_constraints" UniqueConstraint.toJson t.uniques ++
    membersIfAny "indexes" Index.toJson t.indexes ++
    membersIfAny "foreign_keys" ForeignKey.toJson t.declaredForeignKeys ++
    membersIfAny "on_delete" Dml.toJson t.onDelete ++ memberIfAny "comment" string t.comment ++
    membersIfAny "hints" ScopedHint.toJson t.hints)

namespace TableRef

def toJson (t : TableRef) : Json :=
  object (("table", string t.table) :: memberIfAny "alias" string t.otherName)

def ofJson (j : Json) : Decoded TableRef := do
  let r ← asRecord ["table", "alias"] 1 j
  return ⟨← need asString r "table", ← want asString r "alias"⟩

end TableRef

def JoinKind.code : JoinKind → String
  | inner => "inner"
  | left => "left"

namespace Join

def toJson (join : Join) : Json :=
  object [("kind", join.kind.code), ("table", join.table.toJson), ("on", join.on.toJson)]

def ofJson (j : Json) : Decoded Join := do
  let r ← asRecord ["kind", "table", "on"] 3 j
  return ⟨← need (asOneOf false [JoinKind.inner, JoinKind.left] JoinKind.code) r "kind",
    ← need TableRef.ofJson r "table", ← need Expr.ofJson r "on"⟩

end Join

namespace Select

def toJson (s : Select) : Json :=
  object ([("items", array (s.items.map Expr.toJson)), ("from", s.source.toJson)] ++
    membersIfAny "joins" Join.toJson s.joins ++ memberIfAny "filter" Expr.toJson s.filter)

def ofJson (j : Json) : Decoded Select := do
  let r ← asRecord ["items", "from", "joins", "filter"] 2 j
  return ⟨← need (asList Expr.ofJson) r "items", ← need TableRef.ofJson r "from",
    ← listIfPresent Join.ofJson r "joins", ← want Expr.ofJson r "filter"⟩

end Select

namespace UnionKind

def code : UnionKind → String
  | distinct => "distinct"
  | all => "all"

def ofJson : Json → Decoded UnionKind :=
  asOneOf false [distinct, all] code

end UnionKind

def Query.toJson (q : Query) : Json :=
  object (("first", q.first.toJson) ::
    membersIfAny "unions" (fun (kind, select) => array [string kind.code, select.toJson]) q.unions)

def View.toJson (v : View) : Json :=
  object ([("name", string v.name), ("columns", strings v.columns), ("query", v.query.toJson)] ++
    memberIfAny "comment" string v.comment ++ membersIfAny "hints" ScopedHint.toJson v.hints)

def Schema.toJson (s : Schema) : Json :=
  object (("tables", array (s.tables.map Table.toJson)) ::
    (membersIfAny "views" View.toJson s.views ++
      membersIfAny "statements" DmlStatement.toJson s.statements))

end Schemata
