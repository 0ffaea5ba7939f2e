import Schemata.Proofs.Emission
import Schemata.Proofs.PlanOrder

/-! When a plan holds a step of a given kind, told by the two schemas. The plan of a migration
holds the same steps and a few alters more. -/
namespace Schemata

namespace Comparison

variable {c : Comparison} {e : Step}

theorem mem_plan_iff : e ∈ c.plan ↔ ∃ steps, c.phases[e.phase]? = some steps ∧ e ∈ steps := by
  constructor
  · exact mem_phase
  · rintro ⟨steps, hsteps, he⟩
    rw [plan_eq_flatten]
    exact List.mem_flatten.mpr ⟨steps, List.mem_of_getElem? hsteps, he⟩

theorem createTable_mem_plan {t : Table} :
    .createTable t ∈ c.plan ↔ t ∈ c.new.tables ∧ c.old.findTable? t.name = none := by
  simp [mem_plan_iff, Step.phase, phases, createTableSteps, createdTables]

theorem dropTable_mem_plan {t : Table} :
    .dropTable t ∈ c.plan ↔ t ∈ c.old.tables ∧ c.new.findTable? t.name = none := by
  simp [mem_plan_iff, Step.phase, phases, dropTableSteps, droppedTables]

theorem changeColumn_mem_plan (he : e.phase = 6) :
    e ∈ c.plan ↔ ∃ p ∈ c.surviving, e ∈ c.columnSteps p := by
  simp [mem_plan_iff, he, phases, changeColumnSteps, columnSteps]

theorem alterColumn_mem_plan {table : String} {before after : Column} {change : ColumnChange} :
    .alterColumn table before after change ∈ c.plan ↔ ∃ p ∈ c.surviving, p.new.name = table ∧
      ⟨before, after, change⟩ ∈ p.altered c.recreate.defaults := by
  rw [changeColumn_mem_plan rfl]
  refine exists_congr fun p => and_congr_right fun _ => ?_
  simp only [columnSteps, List.mem_append, List.mem_map, reduceCtorEq, and_false, exists_false,
    or_false, Step.alterColumn.injEq]
  constructor
  · rintro ⟨a, ha, rfl, rfl, rfl, rfl⟩
    exact ⟨rfl, ha⟩
  · rintro ⟨rfl, ha⟩
    exact ⟨_, ha, rfl, rfl, rfl, rfl⟩

theorem addColumn_mem_plan {table : String} {column : Column} :
    .addColumn table column ∈ c.plan ↔
      ∃ p ∈ c.surviving, p.new.name = table ∧ column ∈ p.added := by
  rw [changeColumn_mem_plan rfl]
  simp [columnSteps, and_comm]

theorem dropColumn_mem_plan {table : String} {column : Column} :
    .dropColumn table column ∈ c.plan ↔
      ∃ p ∈ c.surviving, p.new.name = table ∧ column ∈ p.dropped := by
  rw [changeColumn_mem_plan rfl]
  simp [columnSteps, and_comm]

theorem addForeignKey_mem_plan {table : String} {f : ForeignKey} :
    .addForeignKey table f ∈ c.plan ↔
      ∃ t ∈ c.new.tables, t.name = table ∧ f ∈ c.addedForeignKeys t := by
  simp [mem_plan_iff, Step.phase, phases, addForeignKeySteps, and_comm, and_assoc, and_left_comm]

theorem dropTrigger_mem_plan {t : Table} : .dropTrigger t ∈ c.plan ↔
    ∃ p ∈ c.surviving, p.old = t ∧ t.hasTrigger = true ∧ t.onDelete ≠ p.new.onDelete := by
  simp only [mem_plan_iff, Step.phase, phases, dropTriggerSteps]
  constructor
  · rintro ⟨steps, hsteps, he⟩
    cases hsteps
    obtain ⟨p, hp, heq⟩ := List.mem_map.mp he
    cases heq
    obtain ⟨hp, hchange⟩ := List.mem_filter.mp hp
    obtain ⟨htrigger, hchange⟩ := Bool.and_eq_true_iff.mp hchange
    exact ⟨p, hp, rfl, htrigger, bne_iff_ne.mp hchange⟩
  · rintro ⟨p, hp, rfl, htrigger, hchange⟩
    refine ⟨_, rfl, List.mem_map.mpr ⟨p, List.mem_filter.mpr ⟨hp, ?_⟩, rfl⟩⟩
    rw [htrigger, Bool.true_and]
    exact bne_iff_ne.mpr hchange

theorem createTrigger_mem_plan {t : Table} : .createTrigger t ∈ c.plan ↔
    t ∈ c.new.tables ∧ t.hasTrigger = true ∧
      (c.old.findTable? t.name).map (·.onDelete) ≠ some t.onDelete := by
  simp [mem_plan_iff, Step.phase, phases, createTriggerSteps]

end Comparison

namespace Dialect

variable {d : Dialect} {old new : Schema} {e : Step}

/-- The alters that a migration has on top of the plan: columns of tables in both schemas that the
plan leaves alone, although their native type depends on a key and is another one now. -/
theorem mem_widthAlters {plan : Plan} : e ∈ d.widthAlters old new plan ↔
    ∃ t ∈ new.tables, ∃ o, old.findTable? t.name = some o ∧ ∃ after ∈ t.columns,
      ∃ before, o.findColumn? after.name = some before ∧ alters plan t.name after.name = false ∧
        d.changesWidth old new ⟨o, t⟩ after = true ∧
        e = .alterColumn t.name before after { dataType := true } := by
  unfold widthAlters
  rw [List.mem_flatMap]
  constructor
  · rintro ⟨t, ht, he⟩
    cases ho : old.findTable? t.name with
    | none => simp [ho] at he
    | some o =>
      simp only [ho] at he
      obtain ⟨after, hafter, he⟩ := List.mem_filterMap.mp he
      cases hb : o.findColumn? after.name with
      | none => simp [hb] at he
      | some before =>
        simp only [hb] at he
        split at he
        · rename_i hcond
          obtain ⟨hfree, hwidth⟩ := Bool.and_eq_true_iff.mp hcond
          cases he
          exact ⟨t, ht, o, ho, after, hafter, before, hb, by simpa using hfree, hwidth, rfl⟩
        · cases he
  · rintro ⟨t, ht, o, ho, after, hafter, before, hb, hfree, hwidth, rfl⟩
    refine ⟨t, ht, ?_⟩
    simp only [ho]
    refine List.mem_filterMap.mpr ⟨after, hafter, ?_⟩
    simp [hb, hfree, hwidth]

theorem mem_migrationPlan : e ∈ d.migrationPlan old new ↔
    e ∈ diff old new d.recreateOptions ∨
      e ∈ d.widthAlters old new (diff old new d.recreateOptions) :=
  Plan.mem_insertAlters

/-- A step that alters no column is in the migration as it is in the plan. -/
theorem mem_migrationPlan_iff (he : ∀ table before after change,
    e ≠ .alterColumn table before after change) :
    e ∈ d.migrationPlan old new ↔ e ∈ (Comparison.mk old new d.recreateOptions).plan := by
  rw [mem_migrationPlan, or_iff_left]
  · rfl
  · intro hmem
    obtain ⟨t, _, _, _, after, _, before, _, _, _, rfl⟩ := mem_widthAlters.mp hmem
    exact he _ _ _ _ rfl

theorem alters_iff {plan : Plan} {table column : String} : alters plan table column = true ↔
    ∃ before after change, Step.alterColumn table before after change ∈ (plan : List Step) ∧
      after.name = column := by
  unfold alters
  rw [List.any_eq_true]
  constructor
  · rintro ⟨e, he, hcond⟩
    split at hcond
    · rename_i t before after change
      obtain ⟨ht, ha⟩ := Bool.and_eq_true_iff.mp hcond
      exact ⟨before, after, change, beq_iff_eq.mp ht ▸ he, beq_iff_eq.mp ha⟩
    · cases hcond
  · rintro ⟨before, after, change, he, ha⟩
    exact ⟨_, he, by simp [ha]⟩

end Dialect

end Schemata
