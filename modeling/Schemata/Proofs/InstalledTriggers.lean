import Schemata.Proofs.PlanSteps

/-! The trigger that a table has after a migration. It is renewed whenever its action block changes;
but in one dialect its text also tells the primary key, and a new key alone renews nothing. -/
namespace Schemata

/-- Whether the step may change which trigger the table has. -/
def Step.movesTrigger (table : String) : Step → Bool
  | dropTrigger t | dropTable t | createTrigger t => t.name == table
  | _ => false

/-- The statements that made the triggers of a table, after one more step. -/
def Dialect.installedAfter (d : Dialect) (table : String) (installed : List Statement) :
    Step → List Statement
  | .dropTrigger t | .dropTable t => if t.name = table then [] else installed
  | .createTrigger t => if t.name = table then installed ++ d.createTrigger t else installed
  | _ => installed

/-- The statements that made the triggers of a table, after all steps of a plan. -/
def Dialect.installedBy (d : Dialect) (table : String) (installed : List Statement) (plan : Plan) :
    List Statement :=
  List.foldl (d.installedAfter table) installed plan

namespace Dialect

variable {d : Dialect} {table : String}

theorem installedAfter_of_not_moves {e : Step} (h : e.movesTrigger table = false)
    (installed : List Statement) : d.installedAfter table installed e = installed := by
  cases e <;> simp_all [installedAfter, Step.movesTrigger]

/-- A plan does to the trigger of a table what those of its steps do that may change it. -/
theorem installedBy_filter (installed : List Statement) (plan : Plan) :
    d.installedBy table installed plan =
      d.installedBy table installed (List.filter (·.movesTrigger table) plan) := by
  unfold installedBy
  rw [List.foldl_filter]
  congr 1
  funext installed e
  cases h : e.movesTrigger table with
  | true => rfl
  | false => simp [installedAfter_of_not_moves h]

theorem filter_insertAlters {plan : Plan} {alters : List Step} {p : Step → Bool}
    (h : ∀ e ∈ alters, p e = false) :
    List.filter p (plan.insertAlters alters) = List.filter p plan := by
  have hnone : alters.filter p = [] := List.filter_eq_nil_iff.mpr fun e he => by simp [h e he]
  rw [Plan.insertAlters, List.filter_append, List.filter_append, hnone, List.append_nil,
    ← List.filter_append, List.takeWhile_append_dropWhile]

end Dialect

namespace Comparison

variable {c : Comparison} {o t : Table}

/-- Of the steps on a table in both schemas, two may change its trigger, and they do so together. -/
theorem filter_movesTrigger (ho : c.old.Built) (hn : c.new.Built) {name : String}
    (hold : c.old.findTable? name = some o) (hnew : c.new.findTable? name = some t) :
    c.plan.filter (·.movesTrigger name) =
      if o.onDelete = t.onDelete then []
      else (if o.hasTrigger then [.dropTrigger o] else []) ++
        if t.hasTrigger then [.createTrigger t] else [] := by
  have hslice := slice_plan ho hn name
  rw [hold, hnew] at hslice
  have hname : o.name = name ∧ t.name = name :=
    ⟨(ho.findTable_iff.mp hold).2, (hn.findTable_iff.mp hnew).2⟩
  have hfilter : c.plan.filter (·.movesTrigger name) =
      (c.plan.filter (·.table? = some name)).filter (·.movesTrigger name) := by
    rw [List.filter_filter]
    refine List.filter_congr fun e _ => ?_
    cases e <;> simp [Step.movesTrigger, Step.table?]
  rw [hfilter, hslice]
  by_cases hsame : o.onDelete = t.onDelete <;>
    simp [dropSteps, columnSteps, addSteps, hsame, hname, List.filter_map, Function.comp_def,
      apply_ite (List.filter _), Step.movesTrigger]

end Comparison

namespace Dialect

variable {d : Dialect} {old new : Schema} {name : String} {o t : Table}

theorem createTrigger_of_none (h : t.hasTrigger = false) : d.createTrigger t = [] := by
  simp [createTrigger, h]

theorem installedBy_migration (ho : old.Built) (hn : new.Built)
    (hold : old.findTable? name = some o) (hnew : new.findTable? name = some t) :
    d.installedBy name (d.createTrigger o) (d.migrationPlan old new) =
      if o.onDelete = t.onDelete then d.createTrigger o else d.createTrigger t := by
  have hname : o.name = name ∧ t.name = name :=
    ⟨(ho.findTable_iff.mp hold).2, (hn.findTable_iff.mp hnew).2⟩
  have halters : ∀ e ∈ d.widthAlters old new (diff old new d.recreateOptions),
      e.movesTrigger name = false := by
    intro e he
    obtain ⟨_, _, _, _, _, _, _, _, _, _, rfl⟩ := mem_widthAlters.mp he
    rfl
  have hsteps : List.filter (·.movesTrigger name) (d.migrationPlan old new) = _ :=
    (filter_insertAlters halters).trans
      (Comparison.filter_movesTrigger (c := ⟨old, new, d.recreateOptions⟩) ho hn hold hnew)
  rw [installedBy_filter, hsteps]
  by_cases hsame : o.onDelete = t.onDelete
  · simp [hsame, installedBy]
  · cases hot : o.hasTrigger <;> cases htt : t.hasTrigger <;>
      simp [hsame, hname, installedBy, installedAfter, createTrigger_of_none, hot, htt]

theorem triggerForm_insteadOf (h : d.triggerForm = .transactSql true) : d = sqlServer := by
  cases d <;> simp_all [triggerForm]

/-- The text of a trigger follows from the action block, but for the form in which it also finishes
the delete, by the primary key. -/
theorem triggerStatements_congr (hname : o.name = t.name) (hsame : o.onDelete = t.onDelete)
    (hkey : d.triggerForm = .transactSql true → o.primaryKey.columns = t.primaryKey.columns) :
    d.triggerStatements o = d.triggerStatements t := by
  unfold triggerStatements
  rw [hname, hsame]
  cases hform : d.triggerForm with
  | transactSql insteadOf =>
    cases insteadOf with
    | true =>
      have hdelete : d.finishingDelete o = d.finishingDelete t := by
        unfold finishingDelete
        rw [hname, hkey hform]
      simp only [hdelete]
    | false => simp only [Bool.false_eq_true, if_false]
  | _ => rfl

theorem createTrigger_ne (hname : o.name = t.name) (hsame : o.onDelete = t.onDelete)
    (h : d.createTrigger o ≠ d.createTrigger t) :
    d = sqlServer ∧ o.primaryKey.columns ≠ t.primaryKey.columns := by
  have htrigger : o.hasTrigger = t.hasTrigger := by rw [Table.hasTrigger, Table.hasTrigger, hsame]
  by_contra hnot
  apply h
  rw [createTrigger, createTrigger, htrigger, triggerStatements_congr hname hsame]
  intro hform
  by_contra hkey
  exact hnot ⟨triggerForm_insteadOf hform, hkey⟩

theorem dropTrigger_mem_migration (hn : new.Built) (hold : old.findTable? name = some o)
    (hnew : new.findTable? name = some t) :
    .dropTrigger o ∈ d.migrationPlan old new ↔
      o.hasTrigger = true ∧ o.onDelete ≠ t.onDelete := by
  obtain ⟨ht, rfl⟩ := hn.findTable_iff.mp hnew
  rw [mem_migrationPlan_iff (by simp), Comparison.dropTrigger_mem_plan]
  constructor
  · rintro ⟨p, hp, rfl, htrigger, hchange⟩
    have hpt : p.new = t := List.inj_on_of_nodup_map hn.tables_nodup
      (Comparison.mem_surviving.mp hp).1 ht
      ((Comparison.surviving_name hp).symm.trans (by simpa using List.find?_some hold))
    exact ⟨htrigger, hpt ▸ hchange⟩
  · rintro ⟨htrigger, hchange⟩
    exact ⟨⟨o, t⟩, Comparison.mem_surviving.mpr ⟨ht, hold⟩, rfl, htrigger, hchange⟩

theorem createTrigger_mem_migration (hn : new.Built) (hold : old.findTable? name = some o)
    (hnew : new.findTable? name = some t) :
    .createTrigger t ∈ d.migrationPlan old new ↔
      t.hasTrigger = true ∧ o.onDelete ≠ t.onDelete := by
  obtain ⟨ht, rfl⟩ := hn.findTable_iff.mp hnew
  rw [mem_migrationPlan_iff (by simp), Comparison.createTrigger_mem_plan]
  simp [ht, hold]

end Dialect

/-- After a migration a table in both schemas has the trigger that the new schema asks for, unless
its action block is the same while the text is not: then the trigger is neither dropped nor created.
It happens in the one dialect whose triggers tell the primary key, when the key gets other
columns. -/
theorem trigger_current_iff {d : Dialect} {old new : Schema} {name : String} {o t : Table}
    (ho : old.Built) (hn : new.Built) (hold : old.findTable? name = some o)
    (hnew : new.findTable? name = some t) :
    (d.installedBy name (d.createTrigger o) (d.migrationPlan old new) = d.createTrigger t ↔
      (o.onDelete = t.onDelete → d.createTrigger o = d.createTrigger t)) ∧
    (d.createTrigger o ≠ d.createTrigger t →
      ((o.hasTrigger = true → .dropTrigger o ∈ d.migrationPlan old new) ∧
        (t.hasTrigger = true → .createTrigger t ∈ d.migrationPlan old new) ↔
        o.onDelete ≠ t.onDelete)) ∧
    (o.onDelete = t.onDelete → d.createTrigger o ≠ d.createTrigger t →
      d = .sqlServer ∧ o.primaryKey.columns ≠ t.primaryKey.columns) := by
  refine ⟨?_, fun htext => ?_, fun hsame htext => ?_⟩
  · rw [Dialect.installedBy_migration ho hn hold hnew]
    by_cases hsame : o.onDelete = t.onDelete <;> simp [hsame]
  · rw [Dialect.dropTrigger_mem_migration hn hold hnew,
      Dialect.createTrigger_mem_migration hn hold hnew]
    constructor
    · rintro ⟨hdrop, hcreate⟩ hsame
      -- With the same block both tables have a trigger or neither has, and the texts differ.
      have htrigger : t.hasTrigger = true := by
        by_contra hnone
        have hfalse : t.hasTrigger = false := Bool.not_eq_true _ ▸ hnone
        apply htext
        rw [Dialect.createTrigger_of_none hfalse, Dialect.createTrigger_of_none]
        rwa [Table.hasTrigger, hsame]
      exact (hcreate htrigger).2 hsame
    · intro hchange
      exact ⟨fun h => ⟨h, hchange⟩, fun h => ⟨h, hchange⟩⟩
  · have hname : o.name = t.name :=
      (ho.findTable_iff.mp hold).2.trans (hn.findTable_iff.mp hnew).2.symm
    exact Dialect.createTrigger_ne hname hsame htext

namespace Sample

/-- Clients, whose visits go with them. -/
def client (key : String) : Table where
  name := "Client"
  columns := [
    { name := "Id", dataType := .integer, nullable := false },
    { name := "Number", dataType := .integer, nullable := false }]
  primaryKey := ⟨"PK_Client", [key]⟩
  onDelete := [.delete "Visit"
    (some (.binary .eq (.column none "Client") (.column (some "OLD") "Id")))]

def visit : Table where
  name := "Visit"
  columns := [{ name := "Client", dataType := .integer, nullable := false }]
  primaryKey := ⟨"PK_Visit", ["Client"]⟩

def clients (key : String) : Schema := { tables := [client key, visit] }

theorem clients_built {key : String} (h : key = "Id" ∨ key = "Number") : (clients key).Built := by
  rcases h with rfl | rfl
  · exact Schema.built_of_drafts (by decide +kernel) (by decide) rfl
  · exact Schema.built_of_drafts (by decide +kernel) (by decide) rfl

end Sample

/-- Clients get another primary key. Their trigger goes on finishing deletes by the old one. -/
theorem new_key_leaves_trigger :
    (∃ script, Dialect.sqlServer.migrationScript (Sample.clients "Id") (Sample.clients "Number") 2
      {} = .ok script) ∧
    Dialect.sqlServer.createTrigger (Sample.client "Id") ≠
      Dialect.sqlServer.createTrigger (Sample.client "Number") ∧
    ¬ (((Sample.client "Id").hasTrigger = true → .dropTrigger (Sample.client "Id") ∈
        Dialect.sqlServer.migrationPlan (Sample.clients "Id") (Sample.clients "Number")) ∧
      ((Sample.client "Number").hasTrigger = true → .createTrigger (Sample.client "Number") ∈
        Dialect.sqlServer.migrationPlan (Sample.clients "Id") (Sample.clients "Number"))) ∧
    Dialect.sqlServer.installedBy "Client" (Dialect.sqlServer.createTrigger (Sample.client "Id"))
        (Dialect.sqlServer.migrationPlan (Sample.clients "Id") (Sample.clients "Number")) ≠
      Dialect.sqlServer.createTrigger (Sample.client "Number") := by
  have htext : Dialect.sqlServer.createTrigger (Sample.client "Id") ≠
      Dialect.sqlServer.createTrigger (Sample.client "Number") := by
    decide +kernel
  have hold : (Sample.clients "Id").findTable? "Client" = some (Sample.client "Id") := rfl
  have hnew : (Sample.clients "Number").findTable? "Client" = some (Sample.client "Number") := rfl
  obtain ⟨hinstalled, hsteps, _⟩ := trigger_current_iff (d := .sqlServer)
    (Sample.clients_built (.inl rfl)) (Sample.clients_built (.inr rfl)) hold hnew
  refine ⟨exists_ok_of_isOk (by decide +kernel), htext, fun h => ?_, fun h => ?_⟩
  · exact (hsteps htext).mp h rfl
  · exact htext (hinstalled.mp h rfl)

end Schemata
