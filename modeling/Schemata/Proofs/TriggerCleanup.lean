import Schemata.Proofs.InstalledTriggers
import Schemata.Proofs.Wording
import Mathlib.Data.List.Forall2

/-! What a migration leaves behind of a trigger that the new schema does not have. If the table
stays, every object of the trigger is dropped by its name. If the table goes, its triggers go with
it, but a function that was made for one is no part of the table and stays. -/
namespace Schemata

/-- An object of the database that the trigger of a table is made of. -/
inductive TriggerObject where
  | trigger (name : String)
  | function (name : String)
  deriving DecidableEq, Repr

/-- The statement creates the object, whose name stands behind the opening words. -/
inductive Statement.Makes : Statement → TriggerObject → Prop where
  | trigger {kind : StatementKind} {words rest : String} (name : String)
      (hwords : words = "CREATE TRIGGER " ∨ words = "CREATE OR REPLACE TRIGGER ")
      (hrest : rest.toList.head? = some ' ' ∨ rest.toList.head? = some '\n') :
      Makes ⟨kind, words ++ name ++ rest⟩ (.trigger name)
  | function {rest : String} (name : String) (hrest : "()".toList <+: rest.toList) :
      Makes (.block ("CREATE OR REPLACE FUNCTION " ++ name ++ rest)) (.function name)

open Statement (opensWith_plain)

namespace Dialect

variable {d : Dialect} {o t : Table} {x : TriggerObject}

/-- The objects that the trigger of a table is made of, in the order of their creation. -/
def triggerObjects (d : Dialect) (t : Table) : List TriggerObject :=
  match d.triggerForm with
  | .plPgSql =>
    [.function (d.triggerFunctionName t.name), .trigger (d.objectName (triggerName t.name))]
  | .singleStatement =>
    (t.onDelete.zipIdx 1).map fun (_, n) => .trigger (d.numberedTriggerName t.name n)
  | _ => [.trigger (d.objectName (triggerName t.name))]

/-- The statement that drops an object of a table's trigger by its name. -/
def dropObject (d : Dialect) (table : String) : TriggerObject → Statement
  | .trigger name =>
    .plain ("DROP TRIGGER " ++ name ++
      if d.triggerForm = .plPgSql then " ON " ++ d.quote table else "")
  | .function name => .plain ("DROP FUNCTION " ++ name ++ "()")

/-- The script drops the object by its name, or drops the table which a trigger is a part of. -/
def Removes (d : Dialect) (script : Script) (table : String) (x : TriggerObject) : Prop :=
  d.dropObject table x ∈ script ∨ (∃ name, x = .trigger name) ∧ d.dropTable table ∈ script

theorem makes_trigger {kind : StatementKind} {words name lead rest : String}
    (hwords : words = "CREATE TRIGGER " ∨ words = "CREATE OR REPLACE TRIGGER ")
    (hlead : lead.toList.head? = some ' ' ∨ lead.toList.head? = some '\n') :
    Statement.Makes ⟨kind, words ++ (name ++ (lead ++ rest))⟩ (.trigger name) := by
  rw [← String.append_assoc]
  refine .trigger name hwords ?_
  rw [String.toList_append, List.head?_append]
  rcases hlead with hlead | hlead <;> simp [hlead]

/-- Each statement that creates a trigger makes one of its objects, and all of them are made. -/
theorem triggerStatements_make (d : Dialect) (t : Table) :
    List.Forall₂ Statement.Makes (d.triggerStatements t) (d.triggerObjects t) := by
  unfold triggerStatements triggerObjects
  dsimp only
  cases d.triggerForm with
  | plSql =>
    simp only [String.append_assoc]
    exact .cons (makes_trigger (.inr rfl) (.inr (by decide))) .nil
  | transactSql insteadOf =>
    simp only [String.append_assoc]
    exact .cons (makes_trigger (.inl rfl) (.inl (by decide))) .nil
  | plPgSql =>
    simp only [String.append_assoc]
    refine .cons ?_ (.cons (makes_trigger (.inl rfl) (.inl (by decide))) .nil)
    rw [← String.append_assoc]
    refine .function _ ?_
    rw [String.toList_append]
    exact List.prefix_append_of_prefix (by decide)
  | rowBlock =>
    simp only [String.append_assoc]
    exact .cons (makes_trigger (.inl rfl) (.inl (by decide))) .nil
  | db2Sql =>
    simp only [String.append_assoc]
    exact .cons (makes_trigger (.inl rfl) (.inr (by decide))) .nil
  | atomicBlock =>
    simp only [String.append_assoc]
    exact .cons (makes_trigger (.inl rfl) (.inr (by decide))) .nil
  | singleStatement =>
    rw [List.forall₂_map_left_iff, List.forall₂_map_right_iff, List.forall₂_same]
    rintro ⟨dml, n⟩ _
    simp only [String.append_assoc]
    exact makes_trigger (.inl rfl) (.inr (by decide))

theorem dropObject_mem_dropTrigger (hx : x ∈ d.triggerObjects t) :
    d.dropObject t.name x ∈ d.dropTrigger t := by
  unfold triggerObjects at hx
  unfold dropTrigger dropObject
  cases hform : d.triggerForm with
  | plPgSql =>
    rw [hform] at hx
    simp only [List.mem_cons, List.not_mem_nil, or_false] at hx
    rcases hx with rfl | rfl <;> simp [String.append_assoc]
  | singleStatement =>
    rw [hform] at hx
    obtain ⟨⟨dml, n⟩, hmem, rfl⟩ := List.mem_map.mp hx
    exact List.mem_map.mpr ⟨(dml, n), hmem, by simp⟩
  | _ =>
    rw [hform] at hx
    cases List.mem_singleton.mp hx
    simp

theorem eq_of_function_mem {name : String} (hx : .function name ∈ d.triggerObjects t) :
    d = postgreSql ∧ name = d.triggerFunctionName t.name := by
  unfold triggerObjects at hx
  cases d <;> simp_all [triggerForm]

/-- A step that drops a trigger drops the function of its own table and no other. -/
theorem dropFunction_mem_dropTrigger_iff {name : String} :
    .plain ("DROP FUNCTION " ++ name ++ "()") ∈ postgreSql.dropTrigger t ↔
      postgreSql.triggerFunctionName t.name = name := by
  have htrigger : ∀ rest, Statement.plain ("DROP TRIGGER " ++ rest) ≠
      .plain ("DROP FUNCTION " ++ (name ++ "()")) := fun rest =>
    (opensWith_plain "DROP TRIGGER " rest).ne_plain (by decide) (name ++ "()")
  simp only [dropTrigger, triggerForm, List.mem_cons, List.not_mem_nil, or_false,
    String.append_assoc]
  rw [or_iff_right fun h => htrigger _ h.symm]
  simp [Statement.plain, eq_comm]

section Migration

variable {old new : Schema} {version : Nat} {options : MigrationOptions} {script : Script}

theorem dropTable_mem_script (hs : d.migrationScript old new version options = .ok script)
    (ho : o ∈ old.tables) (hgone : new.findTable? o.name = none) : d.dropTable o.name ∈ script := by
  have hstep : .dropTable o ∈ d.migrationPlan old new :=
    (mem_migrationPlan_iff (by simp)).mpr (Comparison.dropTable_mem_plan.mpr ⟨ho, hgone⟩)
  obtain ⟨statements, hstatements, hsub⟩ := step_emitted hs hstep
  cases hstatements
  exact hsub.subset (List.mem_singleton_self _)

/-- If the new schema has the table with another action block, the old trigger is dropped. -/
theorem dropTrigger_subset_script (hs : d.migrationScript old new version options = .ok script)
    (ht : t ∈ new.tables) (ho : old.findTable? t.name = some o) (htrigger : o.hasTrigger = true)
    (hchange : o.onDelete ≠ t.onDelete) : d.dropTrigger o ⊆ script := by
  have hstep : .dropTrigger o ∈ d.migrationPlan old new := by
    rw [mem_migrationPlan_iff (by simp), Comparison.dropTrigger_mem_plan]
    exact ⟨⟨o, t⟩, Comparison.mem_surviving.mpr ⟨ht, ho⟩, rfl, htrigger, hchange⟩
  obtain ⟨statements, hstatements, hsub⟩ := step_emitted hs hstep
  cases hstatements
  exact hsub.subset

theorem dropTrigger_subset_of_gone (hs : d.migrationScript old new version options = .ok script)
    (ho : old.findTable? o.name = some o) (ht : new.findTable? o.name = some t)
    (htrigger : o.hasTrigger = true) (hgone : t.hasTrigger = false) :
    d.dropTrigger o ⊆ script := by
  have hname : t.name = o.name := by simpa using List.find?_some ht
  refine dropTrigger_subset_script hs (List.mem_of_find?_eq_some ht) (hname ▸ ho) htrigger ?_
  intro hsame
  rw [Table.hasTrigger, hsame] at htrigger
  exact Bool.false_ne_true (hgone.symm.trans htrigger)

/-- Functions are dropped for the tables that stay and get another trigger or none. -/
theorem dropFunction_mem_script_iff {name : String}
    (hs : postgreSql.migrationScript old new version options = .ok script) :
    .plain ("DROP FUNCTION " ++ name ++ "()") ∈ script ↔
      ∃ o t, t ∈ new.tables ∧ old.findTable? t.name = some o ∧ o.hasTrigger = true ∧
        o.onDelete ≠ t.onDelete ∧ postgreSql.triggerFunctionName o.name = name := by
  constructor
  · intro hx
    have hother : ∀ {openings : List String}, openings.all (Statement.partWays "DROP FUNCTION ") →
        ¬ (Statement.plain ("DROP FUNCTION " ++ name ++ "()")).OpensWith openings := by
      intro openings hpart hopens
      rw [String.append_assoc] at hopens
      exact hopens.ne_plain hpart (name ++ "()") rfl
    rcases mem_migrationScript hs hx with
      hx | hx | ⟨e, he, own, hown, hx⟩ | hx | ⟨dml, hx⟩ | ⟨_, hx⟩
    · cases version <;> cases hx
    · cases hx
    · by_cases hdrop : ∃ o, e = .dropTrigger o
      · obtain ⟨o, rfl⟩ := hdrop
        cases hown
        rw [mem_migrationPlan_iff (by simp), Comparison.dropTrigger_mem_plan] at he
        obtain ⟨p, hp, rfl, htrigger, hchange⟩ := he
        obtain ⟨ht, ho⟩ := Comparison.mem_surviving.mp hp
        exact ⟨p.old, p.new, ht, ho, htrigger, hchange, dropFunction_mem_dropTrigger_iff.mp hx⟩
      · have hopens := stepStatements_opens (fun o ho => hdrop ⟨o, ho⟩) hown hx
        exact absurd hopens (hother (by decide))
    · cases hx
    · exact absurd (hx ▸ changeRows_opens _ dml) (hother (by decide))
    · exact absurd (hx ▸ opensWith_plain "UPDATE " _) (hother (by decide))
  · rintro ⟨o, t, ht, ho, htrigger, hchange, hname⟩
    exact dropTrigger_subset_script hs ht ho htrigger hchange
      (dropFunction_mem_dropTrigger_iff.mpr hname)

end Migration

end Dialect

/-- Let a table have a trigger that the new schema does not have. Each object made for it is dropped
by name if the table stays. If the table goes, triggers go with it, but the function of a trigger
is removed only by chance: when another table, which stays and loses or changes its trigger, has a
function of the same name. -/
theorem trigger_objects_removed_iff {d : Dialect} {old new : Schema} {version : Nat}
    {options : MigrationOptions} {script : Script} {o : Table}
    (hs : d.migrationScript old new version options = .ok script)
    (ho : old.findTable? o.name = some o) (htrigger : o.hasTrigger = true)
    (hgone : ∀ t, new.findTable? o.name = some t → t.hasTrigger = false) :
    List.Forall₂ Statement.Makes (d.createTrigger o) (d.triggerObjects o) ∧
    ((new.findTable? o.name).isSome = true →
      ∀ x ∈ d.triggerObjects o, d.dropObject o.name x ∈ script) ∧
    ((∀ x ∈ d.triggerObjects o, d.Removes script o.name x) ↔
      (d = .postgreSql → new.findTable? o.name = none →
        ∃ other t, t ∈ new.tables ∧ old.findTable? t.name = some other ∧
          other.hasTrigger = true ∧ other.onDelete ≠ t.onDelete ∧
          d.triggerFunctionName other.name = d.triggerFunctionName o.name)) := by
  have hstays : (new.findTable? o.name).isSome = true →
      ∀ x ∈ d.triggerObjects o, d.dropObject o.name x ∈ script := by
    intro hsome x hx
    obtain ⟨t, ht⟩ := Option.isSome_iff_exists.mp hsome
    exact Dialect.dropTrigger_subset_of_gone hs ho ht htrigger (hgone t ht)
      (Dialect.dropObject_mem_dropTrigger hx)
  refine ⟨?_, hstays, ?_, ?_⟩
  · rw [Dialect.createTrigger, if_pos htrigger]
    exact d.triggerStatements_make o
  · rintro hremoves rfl _
    have hfunction := hremoves (.function _) List.mem_cons_self
    rcases hfunction with hdrop | ⟨⟨name, hname⟩, _⟩
    · exact (Dialect.dropFunction_mem_script_iff hs).mp hdrop
    · cases hname
  · intro hchance x hx
    cases hnew : new.findTable? o.name with
    | some t => exact .inl (hstays (by rw [hnew, Option.isSome_some]) x hx)
    | none =>
      cases x with
      | trigger name =>
        have hold : o ∈ old.tables := List.mem_of_find?_eq_some ho
        exact .inr ⟨⟨name, rfl⟩, Dialect.dropTable_mem_script hs hold hnew⟩
      | function name =>
        obtain ⟨rfl, rfl⟩ := Dialect.eq_of_function_mem hx
        exact .inl ((Dialect.dropFunction_mem_script_iff hs).mpr (hchance rfl hnew))

/-- Clients go and visits stay. The function that deleted the visits of a client is left behind. -/
theorem client_function_stays :
    ∃ script, Dialect.postgreSql.migrationScript (Sample.clients "Id")
        { tables := [Sample.visit] } 2 {} = .ok script ∧
      .function "TRG_Client_DEL_FN" ∈ Dialect.postgreSql.triggerObjects (Sample.client "Id") ∧
      Dialect.postgreSql.dropTable "Client" ∈ script ∧
      ¬ ∀ x ∈ Dialect.postgreSql.triggerObjects (Sample.client "Id"),
        Dialect.postgreSql.Removes script "Client" x := by
  obtain ⟨script, hs⟩ : ∃ script, Dialect.postgreSql.migrationScript (Sample.clients "Id")
      { tables := [Sample.visit] } 2 {} = .ok script := exists_ok_of_isOk (by decide +kernel)
  have ho : (Sample.clients "Id").findTable? "Client" = some (Sample.client "Id") := rfl
  have hnew : Schema.findTable? { tables := [Sample.visit] } "Client" = none := rfl
  refine ⟨script, hs, by decide +kernel, ?_, fun hremoves => ?_⟩
  · exact Dialect.dropTable_mem_script (o := Sample.client "Id") hs List.mem_cons_self hnew
  · obtain ⟨_, _, hiff⟩ := trigger_objects_removed_iff (o := Sample.client "Id") hs ho rfl
      (fun t ht => by cases hnew.symm.trans ht)
    obtain ⟨other, t, ht, hother, htrigger, _⟩ := hiff.mp hremoves rfl hnew
    cases List.mem_singleton.mp ht
    cases hother
    cases htrigger

end Schemata
