import Schemata.Json.Model
import Schemata.Plan

/-!
Migration plans as JSON, and the options that shape them.
-/

namespace Schemata

open Json

namespace ColumnChange

def toJson (c : ColumnChange) : Json :=
  object [("data_type", c.dataType), ("nullability", c.nullability), ("default", c.default)]

def ofJson (j : Json) : Decoded ColumnChange := do
  return ⟨← need asBool j "data_type", ← need asBool j "nullability", ← need asBool j "default"⟩

end ColumnChange

namespace RecreateOptions

def toJson (r : RecreateOptions) : Json :=
  object [("foreign_keys", r.foreignKeys), ("primary_keys", r.primaryKeys),
    ("unique_constraints", r.uniques), ("indexes", r.indexes), ("defaults", r.defaults)]

/-- A named choice, or single flags of which a missing one is not set. -/
def ofJson : Json → Decoded RecreateOptions
  | string "all" => .ok all
  | string "none" => .ok none
  | string "foreign_keys" => .ok foreignKeysOnly
  | object members => do
    let j := object members
    return ⟨← wantFlag j "foreign_keys" false, ← wantFlag j "primary_keys" false,
      ← wantFlag j "unique_constraints" false, ← wantFlag j "indexes" false,
      ← wantFlag j "defaults" false⟩
  | _ => .error .shape

end RecreateOptions

namespace Step

/-- The name of the kind of step. -/
def kindName : Step → String
  | dropView _ => "DropView"
  | dropTrigger _ => "DropTrigger"
  | dropForeignKey _ _ => "DropForeignKey"
  | dropUnique _ _ => "DropUnique"
  | dropIndex _ _ => "DropIndex"
  | dropPrimaryKey _ _ => "DropPrimaryKey"
  | dropTable _ => "DropTable"
  | createTable _ => "CreateTable"
  | alterColumn _ _ _ _ => "AlterColumn"
  | addColumn _ _ => "AddColumn"
  | dropColumn _ _ => "DropColumn"
  | addPrimaryKey _ _ => "AddPrimaryKey"
  | addUnique _ _ => "AddUnique"
  | addIndex _ _ => "AddIndex"
  | addForeignKey _ _ => "AddForeignKey"
  | createTrigger _ => "CreateTrigger"
  | createView _ => "CreateView"

/-- What the step acts on. -/
def members : Step → List (String × Json)
  | dropView v | createView v => [("view", v.toJson)]
  | dropTrigger t | dropTable t | createTable t | createTrigger t => [("table", t.toJson)]
  | dropForeignKey t f | addForeignKey t f => [("table", t), ("foreign_key", f.toJson)]
  | dropUnique t u | addUnique t u => [("table", t), ("unique", u.toJson)]
  | dropIndex t i | addIndex t i => [("table", t), ("index", i.toJson)]
  | dropPrimaryKey t k | addPrimaryKey t k => [("table", t), ("primary_key", k.toJson)]
  | alterColumn t before after change =>
    [("table", t), ("before", before.toJson), ("after", after.toJson), ("change", change.toJson)]
  | addColumn t c | dropColumn t c => [("table", t), ("column", c.toJson)]

def toJson (s : Step) : Json :=
  object (("step", string s.kindName) :: s.members)

end Step

def Plan.toJson (plan : Plan) : Json :=
  object [("steps", array (List.map Step.toJson plan))]

end Schemata
