import Schemata.Migration
import Schemata.Toml.Reader

/-!
The configuration: what holds where the command line does not say otherwise.
-/

namespace Schemata

structure Config where
  dialect : Option String := none
  versionTable : String := ({} : MigrationOptions).versionTable
  versionColumn : String := ({} : MigrationOptions).versionColumn
  sourceExtension : String := "meta"
  deriving DecidableEq, Repr

namespace Config

def asText? : Toml.Item → Option String
  | .text value => some value
  | _ => none

/-- The texts that a section gives for its fields. Its members have the names of fields, or it is a
list with the fields in order. -/
def section? (fields : List String) : Option Toml.Item → Option (List (String × String))
  | none => some []
  | some (.table _ members) =>
    members.mapM fun (key, item) => do
      if key ∈ fields then return (key, ← asText? item) else none
  | some (.list items) => do
    let texts ← (items.take fields.length).mapM asText?
    return fields.zip texts
  | some _ => none

/-- The configuration in a TOML text, which holds nothing but known keys. -/
def parse? (text : String) : Option Config := do
  let document ← Toml.parse? text
  if !document.all (fun member => member.1 ∈ ["generate", "migration", "cli"]) then none
  else
    let generate ← section? ["dialect"] (document.lookup "generate")
    let migration ← section? ["version_table", "version_column"] (document.lookup "migration")
    let cli ← section? ["source_extension"] (document.lookup "cli")
    let base : Config := {}
    return { dialect := generate.lookup "dialect"
             versionTable := (migration.lookup "version_table").getD base.versionTable
             versionColumn := (migration.lookup "version_column").getD base.versionColumn
             sourceExtension := (cli.lookup "source_extension").getD base.sourceExtension }

end Config

end Schemata
