import Schemata.Proofs.FreshMigration
import Schemata.Proofs.PlanSteps

/-! Foreign keys where they can only be declared inline. Steps that add them write nothing, since
the new table or the added column declares them; but an added column declares only one of its
keys. -/
namespace Schemata

open Dialect (sqlite)

namespace Plan

variable {plan : Plan} {table column : String}

theorem mem_createdTables : table ∈ plan.createdTables ↔
    ∃ t, Step.createTable t ∈ (plan : List Step) ∧ t.name = table := by
  unfold createdTables
  rw [List.mem_filterMap]
  constructor
  · rintro ⟨e, he, hname⟩
    split at hname
    · exact ⟨_, he, Option.some.inj hname⟩
    · cases hname
  · rintro ⟨t, ht, rfl⟩
    exact ⟨_, ht, rfl⟩

theorem addsColumn_iff : Dialect.addsColumn plan table column = true ↔
    ∃ c, Step.addColumn table c ∈ (plan : List Step) ∧ c.name = column := by
  unfold Dialect.addsColumn
  rw [List.any_eq_true]
  constructor
  · rintro ⟨e, he, hcond⟩
    split at hcond
    · obtain ⟨ht, hc⟩ := Bool.and_eq_true_iff.mp hcond
      exact ⟨_, beq_iff_eq.mp ht ▸ he, beq_iff_eq.mp hc⟩
    · cases hcond
  · rintro ⟨c, hc, rfl⟩
    exact ⟨_, hc, by simp⟩

end Plan

/-- The statement, written for the step, declares a foreign key of the table: as a constraint of the
table that it creates, or behind the definition of the key's own column, which it adds. -/
inductive Declares (new : Schema) (t : Table) (f : ForeignKey) : Step → Statement → Prop where
  | table {clause : String} {lines : List String} (tail : String)
      (hf : sqlite.foreignKeyClause f = .ok clause) (hmem : clause ∈ lines) :
      Declares new t f (.createTable t) (.plain ("CREATE TABLE " ++ sqlite.quote t.name ++
        " (\n    " ++ String.intercalate ",\n    " lines ++ "\n)" ++ tail))
  | column {c : Column} {clause : String} (hc : c.name = f.column)
      (hf : sqlite.referencesClause f = .ok clause) :
      Declares new t f (.addColumn t.name c) (sqlite.alterTable t.name ("ADD COLUMN " ++
        sqlite.columnDefinition (Dialect.isNewKeyColumn new t.name c.name) c ++ " " ++ clause))

/-- Some statement of the script declares the foreign key. -/
def IsDeclared (new : Schema) (plan : Plan) (script : Script) (t : Table) (f : ForeignKey) : Prop :=
  ∃ e ∈ (plan : List Step), ∃ statements, sqlite.stepStatements new plan e = .ok statements ∧
    statements ⊆ script ∧ ∃ s ∈ statements, Declares new t f e s

namespace Dialect

variable {new : Schema} {plan : Plan} {t : Table} {f : ForeignKey} {statements : List Statement}

/-- A new table declares all of its foreign keys. -/
theorem createTable_declares (hf : f ∈ t.foreignKeys)
    (h : sqlite.stepStatements new plan (.createTable t) = .ok statements) :
    ∃ s ∈ statements, Declares new t f (.createTable t) s := by
  rw [stepStatements, createTableStatements] at h
  obtain ⟨table, htable, h⟩ := bind_ok_iff.mp h
  obtain ⟨keys, _, h⟩ := bind_ok_iff.mp h
  cases h
  obtain ⟨statement, hstatement, htable⟩ := bind_ok_iff.mp htable
  cases htable
  obtain ⟨clauses, hclauses, hstatement⟩ := bind_ok_iff.mp hstatement
  cases hstatement
  obtain ⟨foreignKeys, hkeys, hclauses⟩ := bind_ok_iff.mp hclauses
  cases hclauses
  obtain ⟨clause, hmem, hclause⟩ := mapM_ok_mem hkeys hf
  refine ⟨_, List.mem_append_left _ (List.mem_append_left _ (List.mem_append_left _
    (List.mem_append_right _ List.mem_cons_self))), ?_⟩
  have hlines : Declares new t f (.createTable t) _ :=
    Declares.table (sqlite.storageClause .table t.hints ++ sqlite.tableComment t ++
      sqlite.optionsClause " " t.hints) hclause
      (List.mem_append_right (t.columns.map fun c =>
        sqlite.columnDefinition (new.isKeyColumn t c.name) c)
        (List.mem_append_right (sqlite.primaryKeyClause t.primaryKey ::
          t.uniques.map sqlite.uniqueClause) hmem))
  simpa only [String.append_assoc] using hlines

/-- An added column comes with the first of its foreign keys. -/
theorem addColumn_statements {c : Column} {g : ForeignKey}
    (hg : sqlite.inlineForeignKey? new t.name c.name = some g)
    (h : sqlite.stepStatements new plan (.addColumn t.name c) = .ok statements) :
    ∃ clause, sqlite.referencesClause g = .ok clause ∧
      statements = sqlite.alterTable t.name ("ADD COLUMN " ++
        sqlite.columnDefinition (isNewKeyColumn new t.name c.name) c ++ " " ++ clause) ::
        sqlite.addedColumnComment t.name c := by
  rw [stepStatements, hg] at h
  obtain ⟨added, hadded, h⟩ := bind_ok_iff.mp h
  cases h
  unfold addColumn at hadded
  dsimp only at hadded
  split at hadded
  · cases hadded
  · obtain ⟨references, hreferences, hadded⟩ := bind_ok_iff.mp hadded
    cases hadded
    cases hclause : sqlite.referencesClause g with
    | error e =>
      rw [hclause] at hreferences
      cases hreferences
    | ok clause =>
      rw [hclause] at hreferences
      cases hreferences
      refine ⟨clause, rfl, ?_⟩
      simp [addColumnClause, String.append_assoc]

theorem isComment_of_addedColumnComment {table : String} {c : Column} {s : Statement}
    (h : s ∈ sqlite.addedColumnComment table c) : s.isComment = true := by
  cases hc : c.comment with
  | none => simp [addedColumnComment, storedColumnComment, commentStyle, hc] at h
  | some text =>
    simp only [addedColumnComment, commentStyle, hc, List.mem_singleton] at h
    rw [h]
    rfl

theorem alterTable_inj {d : Dialect} {table a b : String}
    (h : d.alterTable table a = d.alterTable table b) : a = b := by
  have hsql := congrArg Statement.sql h
  exact (String.append_right_inj _).mp hsql

section Migration

variable {old : Schema} {version : Nat} {options : MigrationOptions} {script : Script}

theorem addForeignKey_of_new (ht : new.findTable? t.name = some t) (hf : f ∈ t.foreignKeys)
    (hnew : ∀ o, old.findTable? t.name = some o → f ∉ o.foreignKeys) :
    .addForeignKey t.name f ∈ sqlite.migrationPlan old new := by
  refine (mem_migrationPlan_iff (by simp)).mpr (Comparison.addForeignKey_mem_plan.mpr
    ⟨t, List.mem_of_find?_eq_some ht, rfl, ?_⟩)
  unfold Comparison.addedForeignKeys
  dsimp only
  split
  · exact hf
  · rename_i o ho
    exact List.mem_filter.mpr ⟨hf, by simp [hnew o ho]⟩

/-- A foreign key cannot be added to what is there, so a script exists only if the step can be left
out: the plan creates the table or adds the column. -/
theorem addForeignKey_skipped (hs : sqlite.migrationScript old new version options = .ok script)
    (h : .addForeignKey t.name f ∈ sqlite.migrationPlan old new) :
    sqlite.stepStatements new (sqlite.migrationPlan old new) (.addForeignKey t.name f) = .ok [] ∧
      (t.name ∈ (sqlite.migrationPlan old new).createdTables ∨
        ∃ c, .addColumn t.name c ∈ sqlite.migrationPlan old new ∧ c.name = f.column) := by
  obtain ⟨statements, hstatements, _⟩ := step_emitted hs h
  rw [stepStatements] at hstatements ⊢
  split at hstatements
  · rename_i hinline
    refine ⟨by rw [if_pos hinline], ?_⟩
    obtain ⟨_, hwhere⟩ := Bool.and_eq_true_iff.mp hinline
    rcases Bool.or_eq_true_iff.mp hwhere with hcreated | hadded
    · exact Or.inl (List.contains_iff_mem.mp hcreated)
    · exact Or.inr (Plan.addsColumn_iff.mp hadded)
  · cases hstatements

theorem createTable_of_new (ht : new.findTable? t.name = some t)
    (hnone : old.findTable? t.name = none) : .createTable t ∈ sqlite.migrationPlan old new :=
  (mem_migrationPlan_iff (by simp)).mpr
    (Comparison.createTable_mem_plan.mpr ⟨List.mem_of_find?_eq_some ht, hnone⟩)

theorem created_iff (ht : new.findTable? t.name = some t) :
    t.name ∈ (sqlite.migrationPlan old new).createdTables ↔ old.findTable? t.name = none := by
  rw [Plan.mem_createdTables]
  constructor
  · rintro ⟨t', ht', hname⟩
    rw [← hname]
    exact (Comparison.createTable_mem_plan.mp ((mem_migrationPlan_iff (by simp)).mp ht')).2
  · intro hnone
    exact ⟨t, createTable_of_new ht hnone, rfl⟩

theorem exists_first_foreignKey (hf : f ∈ t.foreignKeys) :
    ∃ g, t.foreignKeys.find? (fun g => g.column == f.column) = some g := by
  apply Option.isSome_iff_exists.mp
  rw [List.find?_isSome]
  exact ⟨f, hf, beq_self_eq_true _⟩

theorem inlineForeignKey_eq {g : ForeignKey} {c : Column} (ht : new.findTable? t.name = some t)
    (hg : t.foreignKeys.find? (fun g => g.column == f.column) = some g) (hc : c.name = f.column) :
    sqlite.inlineForeignKey? new t.name c.name = some g := by
  have hinline : sqlite.capabilities.inlineForeignKeys = true := rfl
  rw [inlineForeignKey?, if_pos hinline, ht, hc]
  exact hg

theorem isDeclared_of_new (hs : sqlite.migrationScript old new version options = .ok script)
    (ht : new.findTable? t.name = some t) (hf : f ∈ t.foreignKeys)
    (hnone : old.findTable? t.name = none) :
    IsDeclared new (sqlite.migrationPlan old new) script t f := by
  have hcreate := createTable_of_new ht hnone
  obtain ⟨statements, hstatements, hsub⟩ := step_emitted hs hcreate
  exact ⟨_, hcreate, statements, hstatements, hsub.subset, createTable_declares hf hstatements⟩

theorem isDeclared_of_added {g : ForeignKey} {c : Column}
    (hs : sqlite.migrationScript old new version options = .ok script)
    (ht : new.findTable? t.name = some t)
    (hg : t.foreignKeys.find? (fun g => g.column == f.column) = some g)
    (hsame : sqlite.referencesClause g = sqlite.referencesClause f)
    (hadd : .addColumn t.name c ∈ sqlite.migrationPlan old new) (hc : c.name = f.column) :
    IsDeclared new (sqlite.migrationPlan old new) script t f := by
  obtain ⟨statements, hstatements, hsub⟩ := step_emitted hs hadd
  have hfirst := inlineForeignKey_eq ht hg hc
  obtain ⟨clause, hclause, rfl⟩ := addColumn_statements hfirst hstatements
  rw [hsame] at hclause
  exact ⟨_, hadd, _, hstatements, hsub.subset, _, List.mem_cons_self, Declares.column hc hclause⟩

theorem new_or_same_of_isDeclared {g : ForeignKey} (ht : new.findTable? t.name = some t)
    (hg : t.foreignKeys.find? (fun g => g.column == f.column) = some g)
    (h : IsDeclared new (sqlite.migrationPlan old new) script t f) :
    old.findTable? t.name = none ∨ sqlite.referencesClause g = sqlite.referencesClause f := by
  obtain ⟨e, he, statements, hstatements, _, s, hmem, hdeclares⟩ := h
  cases hdeclares with
  | table =>
    left
    exact (created_iff ht).mp (Plan.mem_createdTables.mpr ⟨t, he, rfl⟩)
  | @column c clause hc hclause =>
    right
    have hfirst := inlineForeignKey_eq ht hg hc
    obtain ⟨own, hown, rfl⟩ := addColumn_statements hfirst hstatements
    rcases List.mem_cons.mp hmem with heq | hcomment
    · have htext : clause = own := (String.append_right_inj _).mp (alterTable_inj heq)
      rw [hown, hclause, htext]
    · cases isComment_of_addedColumnComment hcomment

/-- A foreign key that a table did not have before is declared by the migration script exactly if
the table is new, or the key has the same target and actions as the first one on its column. Its
step writes nothing in either case. -/
theorem foreignKey_declared_iff
    (hs : sqlite.migrationScript old new version options = .ok script)
    (ht : new.findTable? t.name = some t) (hf : f ∈ t.foreignKeys)
    (hnew : ∀ o, old.findTable? t.name = some o → f ∉ o.foreignKeys) :
    .addForeignKey t.name f ∈ sqlite.migrationPlan old new ∧
      sqlite.stepStatements new (sqlite.migrationPlan old new) (.addForeignKey t.name f) = .ok [] ∧
      (IsDeclared new (sqlite.migrationPlan old new) script t f ↔
        old.findTable? t.name = none ∨
          ∃ g, t.foreignKeys.find? (fun g => g.column == f.column) = some g ∧
            sqlite.referencesClause g = sqlite.referencesClause f) := by
  have hstep : .addForeignKey t.name f ∈ sqlite.migrationPlan old new :=
    addForeignKey_of_new ht hf hnew
  obtain ⟨hskipped, hwhere⟩ := addForeignKey_skipped hs hstep
  refine ⟨hstep, hskipped, ?_⟩
  constructor
  · intro hdeclared
    obtain ⟨g, hg⟩ := exists_first_foreignKey hf
    exact (new_or_same_of_isDeclared ht hg hdeclared).imp_right fun hsame => ⟨g, hg, hsame⟩
  · intro hcond
    by_cases hnone : old.findTable? t.name = none
    · exact isDeclared_of_new hs ht hf hnone
    · -- The table was there, so what lets the step be left out is the added column.
      obtain ⟨g, hg, hsame⟩ := hcond.resolve_left hnone
      obtain ⟨c, hadd, hc⟩ := hwhere.resolve_left fun h => hnone ((created_iff ht).mp h)
      exact isDeclared_of_added hs ht hg hsame hadd hc

end Migration

end Dialect

namespace Sample

def plainTable (name : String) : Table where
  name := name
  columns := [{ name := "Id", dataType := .integer, nullable := false }]
  primaryKey := ⟨primaryKeyName name, ["Id"]⟩

def keeper : Column where
  name := "Keeper"
  dataType := .integer
  reference := some { table := "Person", column := "Id" }

def clubKey : ForeignKey := ⟨"FK_Pet_Club", "Keeper", { table := "Club", column := "Id" }⟩

/-- Pets get a keeper, who has to be both a person and a club. -/
def keptPet : Table :=
  { plainTable "Pet" with
    columns := (plainTable "Pet").columns ++ [keeper]
    declaredForeignKeys := [clubKey] }

def pets : Schema := { tables := [plainTable "Person", plainTable "Club", plainTable "Pet"] }

def keptPets : Schema := { tables := [plainTable "Person", plainTable "Club", keptPet] }

end Sample

/-- The second foreign key of an added column gets lost. -/
theorem second_foreignKey_lost : ∃ script,
    sqlite.migrationScript Sample.pets Sample.keptPets 2 {} = .ok script ∧
      Sample.clubKey ∈ Sample.keptPet.foreignKeys ∧
      .addForeignKey "Pet" Sample.clubKey ∈ sqlite.migrationPlan Sample.pets Sample.keptPets ∧
      ¬ IsDeclared Sample.keptPets (sqlite.migrationPlan Sample.pets Sample.keptPets) script
        Sample.keptPet Sample.clubKey := by
  obtain ⟨script, hscript⟩ : ∃ script,
      sqlite.migrationScript Sample.pets Sample.keptPets 2 {} = .ok script :=
    exists_ok_of_isOk (by decide +kernel)
  have hmem : Sample.clubKey ∈ Sample.keptPet.foreignKeys := by decide
  have hold : Sample.pets.findTable? "Pet" = some (Sample.plainTable "Pet") := rfl
  have hnew : ∀ o, Sample.pets.findTable? Sample.keptPet.name = some o →
      Sample.clubKey ∉ o.foreignKeys := by
    intro o ho
    cases hold.symm.trans ho
    decide
  obtain ⟨hstep, _, hdeclared⟩ := Dialect.foreignKey_declared_iff hscript rfl hmem hnew
  refine ⟨script, hscript, hmem, hstep, fun h => ?_⟩
  rcases hdeclared.mp h with hnone | ⟨g, hg, hclause⟩
  · cases hnone
  · cases hg
    exact absurd hclause (by decide +kernel)

end Schemata
