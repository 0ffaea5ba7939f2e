import Schemata.Proofs.Emission

/-! The creation of a schema and the migration to it from an empty database. The one goes kind
after kind, the other table after table, and yet they write the same statements. -/
namespace Schemata

namespace Dialect

variable {d : Dialect} {s : Schema}

theorem inline_iff : d.capabilities.inlineForeignKeys = true ↔ d = sqlite := by
  cases d <;> simp [capabilities]

theorem alterConstraints_of_not_inline (h : d.capabilities.inlineForeignKeys = false) :
    d.capabilities.alterConstraints = true := by
  cases d <;> simp_all [capabilities]

theorem actionClause_supported (clause foreignKey : String) (action : Option ReferentialAction) :
    ∃ text, d.actionClause clause true foreignKey action = .ok text := by
  cases action with
  | none => exact ⟨_, rfl⟩
  | some action =>
    by_cases hdefault : action.isDefault = true
    · exact ⟨"", by simp [actionClause, hdefault]⟩
    · exact ⟨_, by simp only [actionClause, hdefault]; rfl⟩

/-- The dialect that declares foreign keys inline knows all their actions. -/
theorem sqlite_referencesClause (f : ForeignKey) :
    ∃ text, sqlite.referencesClause f = .ok text := by
  obtain ⟨onDelete, hd⟩ := actionClause_supported (d := sqlite) "ON DELETE" f.name
    f.reference.onDelete
  obtain ⟨onUpdate, hu⟩ := actionClause_supported (d := sqlite) "ON UPDATE" f.name
    f.reference.onUpdate
  exact ⟨_, bind_ok_iff.mpr ⟨onDelete, hd, bind_ok_iff.mpr ⟨onUpdate, hu, rfl⟩⟩⟩

/-- A new table can be written in every dialect. -/
theorem createTable_ok (d : Dialect) (s : Schema) (t : Table) :
    ∃ statement, d.createTable s t = .ok statement := by
  have hclauses : ∃ clauses, d.inlineClauses t = .ok clauses := by
    unfold inlineClauses
    split
    · rename_i hinline
      obtain rfl := inline_iff.mp hinline
      obtain ⟨clauses, hc⟩ := mapM_ok_of_forall (f := sqlite.foreignKeyClause)
        (l := t.foreignKeys) fun f _ => by
          obtain ⟨text, htext⟩ := sqlite_referencesClause f
          exact ⟨_, bind_ok_iff.mpr ⟨text, htext, rfl⟩⟩
      exact ⟨_, bind_ok_iff.mpr ⟨clauses, hc, rfl⟩⟩
    · exact ⟨[], rfl⟩
  obtain ⟨clauses, hc⟩ := hclauses
  exact ⟨_, bind_ok_iff.mpr ⟨clauses, hc, rfl⟩⟩

theorem addPrimaryKey_ok (h : d.capabilities.alterConstraints = true) (table : String)
    (k : PrimaryKey) :
    d.addPrimaryKey table k = .ok [d.alterTable table ("ADD " ++ d.primaryKeyClause k)] := by
  simp only [addPrimaryKey, requireAlterConstraints, h]
  rfl

theorem addUnique_ok (h : d.capabilities.alterConstraints = true) (table : String)
    (u : UniqueConstraint) :
    d.addUnique table u = .ok [d.alterTable table ("ADD " ++ d.uniqueClause u)] := by
  simp only [addUnique, requireAlterConstraints, h]
  rfl

/-- The primary key as a statement of its own, unless the table declares it. -/
def primaryKeyStatements (d : Dialect) (t : Table) : List Statement :=
  if d.capabilities.inlineForeignKeys then []
  else [d.alterTable t.name ("ADD " ++ d.primaryKeyClause t.primaryKey)]

/-- The unique constraints as statements of their own, unless the table declares them. -/
def uniqueStatements (d : Dialect) (t : Table) : List Statement :=
  if d.capabilities.inlineForeignKeys then []
  else t.uniques.flatMap fun u => [d.alterTable t.name ("ADD " ++ d.uniqueClause u)]

/-- The foreign keys as statements of their own, unless the tables declare them. In both scripts
they are all that a dialect may refuse. -/
def foreignKeyStatements (d : Dialect) (s : Schema) : Emit :=
  if d.capabilities.inlineForeignKeys then .ok []
  else emitAll (fun t => emitAll (d.addForeignKey t.name) t.foreignKeys) s.tables

theorem newTableKeys_eq (d : Dialect) (t : Table) :
    d.newTableKeys t = .ok (d.primaryKeyStatements t ++ d.uniqueStatements t) := by
  unfold newTableKeys primaryKeyStatements uniqueStatements
  cases h : d.capabilities.inlineForeignKeys with
  | true => rfl
  | false =>
    have halter := alterConstraints_of_not_inline h
    rw [addPrimaryKey_ok halter, emitAll_ok_of_forall fun u _ => addUnique_ok halter t.name u]
    rfl

theorem keyStatements_eq (d : Dialect) (s : Schema) :
    d.keyStatements s = d.foreignKeyStatements s >>= fun foreignKeys =>
      .ok (s.tables.flatMap d.primaryKeyStatements ++ foreignKeys ++
        s.tables.flatMap d.uniqueStatements) := by
  cases h : d.capabilities.inlineForeignKeys with
  | true =>
    have hprimary : s.tables.flatMap d.primaryKeyStatements = [] :=
      List.flatMap_eq_nil_iff.mpr fun t _ => by simp [primaryKeyStatements, h]
    have hunique : s.tables.flatMap d.uniqueStatements = [] :=
      List.flatMap_eq_nil_iff.mpr fun t _ => by simp [uniqueStatements, h]
    simp only [keyStatements, foreignKeyStatements, h, hprimary, hunique]
    rfl
  | false =>
    have halter := alterConstraints_of_not_inline h
    have hprimary : emitAll (fun t => d.addPrimaryKey t.name t.primaryKey) s.tables =
        .ok (s.tables.flatMap d.primaryKeyStatements) :=
      emitAll_ok_of_forall fun t _ => by
        rw [addPrimaryKey_ok halter, primaryKeyStatements, h]
        rfl
    have hunique : emitAll (fun t => emitAll (d.addUnique t.name) t.uniques) s.tables =
        .ok (s.tables.flatMap d.uniqueStatements) :=
      emitAll_ok_of_forall fun t _ => by
        rw [emitAll_ok_of_forall fun u _ => addUnique_ok halter t.name u, uniqueStatements, h]
        rfl
    simp only [keyStatements, foreignKeyStatements, h, hprimary, hunique]
    rfl

end Dialect

/-- From nothing, every table, foreign key, trigger and view is created. -/
theorem diff_from_empty (s : Schema) (recreate : RecreateOptions) :
    diff .empty s recreate = s.tables.map .createTable ++
      s.tables.flatMap (fun t => t.foreignKeys.map (.addForeignKey t.name)) ++
      (s.tables.filter (·.hasTrigger)).map .createTrigger ++ s.views.map .createView := by
  let c : Comparison := ⟨.empty, s, recreate⟩
  have hpairs : c.surviving = [] := List.filterMap_eq_nil_iff.mpr fun _ _ => rfl
  have hcreated : c.createdTables = s.tables := List.filter_eq_self.mpr fun _ _ => rfl
  have htriggers : c.createTriggerSteps = (s.tables.filter (·.hasTrigger)).map .createTrigger :=
    congrArg (List.map _) (List.filter_congr fun t _ => Bool.and_true t.hasTrigger)
  have hviews : c.createViewSteps = s.views.map .createView :=
    congrArg (List.map _) (List.filter_eq_self.mpr fun _ _ => rfl)
  have hforeign : c.addForeignKeySteps =
      s.tables.flatMap fun t => t.foreignKeys.map (.addForeignKey t.name) := rfl
  have hdropped : c.dropViewSteps = [] ∧ c.droppedTables = [] := ⟨rfl, rfl⟩
  change c.plan = _
  simp [Comparison.plan, Comparison.dropTriggerSteps, Comparison.dropForeignKeySteps,
    Comparison.dropKeySteps, Comparison.dropTableSteps, Comparison.createTableSteps,
    Comparison.changeColumnSteps, Comparison.addKeySteps, hpairs, hcreated, htriggers, hviews,
    hforeign, hdropped]

namespace Dialect

variable {d : Dialect} {s : Schema}

theorem migrationPlan_from_empty (d : Dialect) (s : Schema) :
    d.migrationPlan .empty s = diff .empty s d.recreateOptions := by
  have hwidths : d.widthAlters .empty s (diff .empty s d.recreateOptions) = [] :=
    List.flatMap_eq_nil_iff.mpr fun t _ => rfl
  rw [migrationPlan, hwidths, Plan.insertAlters, List.append_nil, List.takeWhile_append_dropWhile]

/-- Where foreign keys are declared inline, their steps write nothing: all tables are new. -/
theorem foreignKeyStep_emitted (d : Dialect) (recreate : RecreateOptions) {t : Table}
    (ht : t ∈ s.tables) (f : ForeignKey) :
    d.stepStatements s (diff .empty s recreate) (.addForeignKey t.name f) =
      if d.capabilities.inlineForeignKeys then .ok [] else d.addForeignKey t.name f := by
  have hstep : Step.createTable t ∈ diff .empty s recreate := by
    simp [diff_from_empty, ht]
  have hcreated : (Plan.createdTables (diff .empty s recreate)).contains t.name = true :=
    List.contains_iff_mem.mpr (List.mem_filterMap.mpr ⟨_, hstep, rfl⟩)
  simp only [stepStatements, isDeclaredInline, hcreated, Bool.true_or, Bool.and_true]

theorem foreignKeySteps_emitted (d : Dialect) (s : Schema) (recreate : RecreateOptions) :
    emitAll (d.stepStatements s (diff .empty s recreate))
      (s.tables.flatMap fun t => t.foreignKeys.map (.addForeignKey t.name)) =
      d.foreignKeyStatements s := by
  simp only [emitAll_flatMap, emitAll_map]
  unfold foreignKeyStatements
  split
  · rename_i hinline
    have htable : ∀ t ∈ s.tables, emitAll (fun f => d.stepStatements s (diff .empty s recreate)
        (.addForeignKey t.name f)) t.foreignKeys = .ok [] := by
      intro t ht
      rw [emitAll_ok_of_forall (g := fun _ => []) fun f _ => by
        rw [foreignKeyStep_emitted d recreate ht, if_pos hinline]]
      simp
    rw [emitAll_ok_of_forall htable]
    simp
  · rename_i hinline
    refine emitAll_congr fun t ht => emitAll_congr fun f _ => ?_
    rw [foreignKeyStep_emitted d recreate ht, if_neg hinline]

theorem triggerSteps_emitted (d : Dialect) (s : Schema) (plan : Plan) :
    emitAll (d.stepStatements s plan) ((s.tables.filter (·.hasTrigger)).map .createTrigger) =
      .ok (s.tables.flatMap d.createTrigger) := by
  have hfilter : (s.tables.filter (·.hasTrigger)).flatMap d.createTrigger =
      s.tables.flatMap d.createTrigger := by
    induction s.tables with
    | nil => rfl
    | cons t ts ih => by_cases h : t.hasTrigger <;> simp [h, ih, createTrigger]
  rw [emitAll_map, ← hfilter]
  exact emitAll_ok_of_forall fun t _ => rfl

section Scripts

-- The statement of a new table: no dialect refuses one, so that it can be named.
variable {statement : Table → Statement} (hs : ∀ t, d.createTable s t = .ok (statement t))
include hs

theorem tableStatements_eq (t : Table) :
    d.tableStatements s t = .ok (d.scriptComment t ++ [statement t]) := by
  rw [tableStatements, hs]
  rfl

theorem tableSteps_emitted (plan : Plan) :
    emitAll (d.stepStatements s plan) (s.tables.map .createTable) =
      .ok (s.tables.flatMap fun t => d.scriptComment t ++ [statement t] ++
        (d.primaryKeyStatements t ++ d.uniqueStatements t) ++ d.indexStatements t ++
        d.comments t) := by
  rw [emitAll_map]
  refine emitAll_ok_of_forall fun t _ => ?_
  simp only [stepStatements, createTableStatements, tableStatements_eq hs, newTableKeys_eq]
  rfl

theorem migrationScript_from_empty (version : Nat) (table column : String) :
    d.migrationScript .empty s version { versionTable := table, versionColumn := column } =
      s.resolve >>= fun _ => d.foreignKeyStatements s >>= fun foreignKeys =>
        .ok (d.migrationHeader version :: ((s.tables.flatMap fun t =>
          d.scriptComment t ++ [statement t] ++
          (d.primaryKeyStatements t ++ d.uniqueStatements t) ++ d.indexStatements t ++
          d.comments t) ++ foreignKeys ++ s.tables.flatMap d.createTrigger ++
          s.views.flatMap d.createView) ++
          [.plain ("UPDATE " ++ d.quote table ++ " SET " ++ d.quote column ++ " = " ++
            toString version)]) := by
  have hsplit := congrArg (emitAll (d.stepStatements s (diff .empty s d.recreateOptions)))
    (diff_from_empty s d.recreateOptions)
  have hviews : ∀ plan, emitAll (d.stepStatements s plan) (s.views.map .createView) =
      .ok (s.views.flatMap d.createView) := fun plan => by
    rw [emitAll_map]
    exact emitAll_ok_of_forall fun v _ => rfl
  simp only [emitAll_append, tableSteps_emitted hs, foreignKeySteps_emitted,
    triggerSteps_emitted, hviews] at hsplit
  have hprocedure : d.needsDefaultProcedure (diff .empty s d.recreateOptions) = false := by
    simp [needsDefaultProcedure, diff_from_empty]
  simp only [migrationScript, migrationPlan_from_empty, hsplit, prologue, epilogue, hprocedure]
  cases s.resolve with
  | error e => rfl
  | ok _ =>
    cases d.foreignKeyStatements s with
    | error e => rfl
    | ok foreignKeys =>
      have hadditional : (byTable s []).mapM d.additionalStatement = .ok [] := by
        simp [byTable, pure, Except.pure]
      refine bind_ok_iff.mpr ⟨(), rfl, bind_ok_iff.mpr ⟨(), rfl, bind_ok_iff.mpr ⟨(), rfl,
        bind_ok_iff.mpr ⟨_, rfl, bind_ok_iff.mpr ⟨[], hadditional, ?_⟩⟩⟩⟩⟩
      simp [pure, Except.pure]

theorem fullScript_eq :
    d.fullScript s = s.resolve >>= fun _ => d.foreignKeyStatements s >>= fun foreignKeys =>
      .ok (d.fullHeader :: (s.tables.flatMap (fun t => d.scriptComment t ++ [statement t]) ++
        (s.tables.flatMap d.primaryKeyStatements ++ foreignKeys ++
          s.tables.flatMap d.uniqueStatements) ++ s.tables.flatMap d.indexStatements ++
        s.tables.flatMap d.comments ++ s.views.flatMap d.createView ++
        s.tables.flatMap d.createTrigger) ++ d.seedStatements s) := by
  have htables : emitAll (d.tableStatements s) s.tables =
      .ok (s.tables.flatMap fun t => d.scriptComment t ++ [statement t]) :=
    emitAll_ok_of_forall fun t _ => tableStatements_eq hs t
  simp only [fullScript, htables, keyStatements_eq]
  cases s.resolve with
  | error e => rfl
  | ok _ =>
    cases d.foreignKeyStatements s with
    | error e => rfl
    | ok foreignKeys => rfl

end Scripts

/-- The statements of two scripts that list the same things of every table, the one kind after kind
and the other table after table. -/
theorem perm_by_table {tables : List Table} (a p u i c : Table → List Statement)
    (foreignKeys triggers views : List Statement) :
    (tables.flatMap a ++ (tables.flatMap p ++ foreignKeys ++ tables.flatMap u) ++
      tables.flatMap i ++ tables.flatMap c ++ views ++ triggers).Perm
    ((tables.flatMap fun t => a t ++ (p t ++ u t) ++ i t ++ c t) ++ foreignKeys ++ triggers ++
      views) := by
  rw [List.perm_iff_count]
  intro x
  have h₁ := (List.flatMap_append_perm tables (fun t => a t ++ (p t ++ u t) ++ i t) c).count_eq x
  have h₂ := (List.flatMap_append_perm tables (fun t => a t ++ (p t ++ u t)) i).count_eq x
  have h₃ := (List.flatMap_append_perm tables a fun t => p t ++ u t).count_eq x
  have h₄ := (List.flatMap_append_perm tables p u).count_eq x
  simp only [List.count_append] at h₁ h₂ h₃ h₄ ⊢
  omega

/-- A schema is created by the same statements as a migration from nothing runs, up to their order
and apart from header, seed rows and the version; or both scripts fail for the same reason. -/
theorem fullScript_perm_migrationScript (d : Dialect) (s : Schema) (version : Nat)
    (table column : String) :
    (∃ e, d.fullScript s = .error e ∧
      d.migrationScript .empty s version { versionTable := table, versionColumn := column } =
        .error e) ∨
    ∃ created migrated, created.Perm migrated ∧
      d.fullScript s = .ok (d.fullHeader :: created ++ d.seedStatements s) ∧
      d.migrationScript .empty s version { versionTable := table, versionColumn := column } =
        .ok (d.migrationHeader version :: migrated ++
          [.plain ("UPDATE " ++ d.quote table ++ " SET " ++ d.quote column ++ " = " ++
            toString version)]) := by
  choose statement hs using d.createTable_ok s
  rw [fullScript_eq hs, migrationScript_from_empty hs]
  cases hresolve : s.resolve with
  | error e => exact Or.inl ⟨e, rfl, rfl⟩
  | ok _ =>
    cases hkeys : d.foreignKeyStatements s with
    | error e => exact Or.inl ⟨e, rfl, rfl⟩
    | ok foreignKeys => exact Or.inr ⟨_, _, perm_by_table _ _ _ _ _ _ _ _, rfl, rfl⟩

end Dialect

end Schemata
