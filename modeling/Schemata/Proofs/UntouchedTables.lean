import Schemata.Proofs.EmptyPlan

/-! What a plan leaves alone. Rebuilding spreads from a table only along foreign keys to it, and a
constraint that is in both schemas is dropped only to be added again. -/
namespace Schemata

/-- Whether the step drops a primary key or unique constraint of the table that holds the column. -/
def Step.unkeys (table column : String) : Step → Bool
  | dropPrimaryKey t k => t == table && k.columns.contains column
  | dropUnique t u => t == table && u.columns.contains column
  | _ => false

/-- The column is in both schemas, with another type or nullability. -/
def Schema.Restructures (old new : Schema) (table column : String) : Prop :=
  ∃ o ∈ old.tables, ∃ t ∈ new.tables, o.name = table ∧ t.name = table ∧
    ∃ b ∈ o.columns, ∃ a ∈ t.columns, b.name = column ∧ a.name = column ∧
      (b.dataType ≠ a.dataType ∨ b.nullable ≠ a.nullable)

instance (old new : Schema) (table column : String) :
    Decidable (old.Restructures new table column) :=
  inferInstanceAs (Decidable (∃ o ∈ old.tables, ∃ t ∈ new.tables, _))

/-- The plan leaves the constraint alone, or it drops it once and adds it once, later. -/
def Plan.Restores (plan : Plan) (table : String) (x : Constraint) : Prop :=
  (x.dropStep table ∉ plan ∧ x.addStep table ∉ plan) ∨
    List.count (x.dropStep table) plan = 1 ∧ List.count (x.addStep table) plan = 1 ∧
      ∃ before between after,
        plan = before ++ x.dropStep table :: (between ++ x.addStep table :: after)

/-- The column without what keys, indexes and foreign keys do not depend on. -/
def Column.bare (c : Column) : Column :=
  { c with default := none, comment := none, hints := [] }

def Table.bare (t : Table) : Table :=
  { t with columns := t.columns.map Column.bare, comment := none, hints := [] }

namespace Constraint

@[simp] theorem dropStep_table (x : Constraint) (table : String) :
    (x.dropStep table).table? = some table := by
  cases x <;> rfl

@[simp] theorem addStep_table (x : Constraint) (table : String) :
    (x.addStep table).table? = some table := by
  cases x <;> rfl

theorem dropStep_injective (table : String) : Function.Injective (dropStep table) := by
  intro x y h
  cases x <;> cases y <;> simp_all [dropStep]

theorem addStep_injective (table : String) : Function.Injective (addStep table) := by
  intro x y h
  cases x <;> cases y <;> simp_all [addStep]

end Constraint

namespace TablePair

variable {p : TablePair}

theorem isRestructured_iff (ho : p.old.Valid) {column : String} :
    p.isRestructured column = true ↔ ∃ b ∈ p.old.columns, ∃ a ∈ p.new.columns,
      b.name = column ∧ a.name = column ∧ (b.dataType ≠ a.dataType ∨ b.nullable ≠ a.nullable) := by
  simp only [isRestructured, List.any_eq_true, Bool.and_eq_true, beq_iff_eq]
  constructor
  · rintro ⟨a, ha, hstructural, rfl⟩
    obtain ⟨hafter, hbefore, hchange, -⟩ := mem_altered.mp ha
    obtain ⟨hmem, hname⟩ := ho.findColumn_iff.mp hbefore
    rw [hchange, changeOf_isStructural] at hstructural
    refine ⟨a.before, hmem, a.after, hafter, hname, rfl, ?_⟩
    simpa [ColumnChange.isStructural, ColumnChange.between] using hstructural
  · rintro ⟨b, hb, a, ha, hname, rfl, hdiffers⟩
    have hstructural : (changeOf false b a).isStructural = true := by
      rw [changeOf_isStructural]
      simpa [ColumnChange.isStructural, ColumnChange.between] using hdiffers
    have hchanges : (changeOf false b a).isEmpty = false := by
      rw [ColumnChange.isStructural] at hstructural
      simp [ColumnChange.isEmpty, hstructural]
    exact ⟨⟨b, a, changeOf false b a⟩,
      mem_altered.mpr ⟨ha, ho.findColumn_iff.mpr ⟨hb, hname⟩, rfl, hchanges⟩, hstructural, rfl⟩

/-- The constraints and the form of the columns show in the bare tables. -/
theorem steady_of_bare (ho : p.old.Valid) (hn : p.new.Valid) (h : p.old.bare = p.new.bare) :
    p.Steady where
  constraints x hx := by
    have hforeign : ∀ t : Table, t.bare.foreignKeys = t.foreignKeys := by
      intro t
      simp [Table.foreignKeys, Table.bare, List.filterMap_map, Function.comp_def, Column.bare,
        Table.shorthandForeignKey?]
      rfl
    have hconstraints : ∀ t : Table, t.bare.constraints = t.constraints := by
      intro t
      simp only [Table.constraints, hforeign]
      rfl
    rwa [← hconstraints, ← h, hconstraints]
  columns column := by
    rw [← Bool.not_eq_true, isRestructured_iff ho]
    rintro ⟨b, hb, a, ha, rfl, hname, hdiffers⟩
    have hcolumns : p.old.columns.map Column.bare = p.new.columns.map Column.bare :=
      congrArg Table.columns h
    have hmem : b.bare ∈ p.new.columns.map Column.bare := hcolumns ▸ List.mem_map_of_mem hb
    obtain ⟨a', ha', hbare⟩ := List.mem_map.mp hmem
    have hsame : a' = a := List.inj_on_of_nodup_map hn.columns_nodup ha' ha
      ((congrArg Column.name hbare).trans hname.symm)
    subst hsame
    rcases hdiffers with hdiffers | hdiffers
    · exact hdiffers (congrArg Column.dataType hbare).symm
    · exact hdiffers (congrArg Column.nullable hbare).symm

end TablePair

namespace Comparison

variable {c : Comparison} {p : TablePair} (ho : c.old.Built) (hn : c.new.Built)

include ho hn

/-- A column loses a key only by a step of the plan. -/
theorem exists_unkeys {table column : String} (h : c.isUnkeyed table column = true) :
    ∃ e ∈ c.plan, e.unkeys table column = true := by
  simp only [isUnkeyed, List.any_eq_true, Bool.and_eq_true, beq_iff_eq] at h
  obtain ⟨q, hq, rfl, hloses⟩ := h
  simp only [TablePair.losesKey, Bool.or_eq_true, Bool.and_eq_true, List.any_eq_true] at hloses
  rcases hloses with ⟨hreplaced, hcolumn⟩ | ⟨u, hu, hcolumn⟩
  · have hdropped : .primaryKey q.old.primaryKey ∈ c.droppedConstraints q :=
      (mem_droppedConstraints _).mpr ⟨rfl, hreplaced⟩
    refine ⟨_, dropStep_mem_plan ho hn hq hdropped, ?_⟩
    simpa [Constraint.dropStep, Step.unkeys] using hcolumn
  · have hdropped : .unique u ∈ c.droppedConstraints q :=
      (mem_droppedConstraints _).mpr (List.mem_filter.mp hu)
    refine ⟨_, dropStep_mem_plan ho hn hq hdropped, ?_⟩
    simpa [Constraint.dropStep, Step.unkeys] using hcolumn

theorem mustRebuild_eq_false_of_target {f : ForeignKey}
    (hsource : p.isRestructured f.column = false)
    (htarget : ¬ (c.recreate.foreignKeys = true ∧
      c.old.Restructures c.new f.reference.table f.reference.column))
    (hkeyed : ∀ e ∈ c.plan, e.unkeys f.reference.table f.reference.column = false) :
    c.mustRebuild p f = false := by
  have hkept : c.isUnkeyed f.reference.table f.reference.column = false := by
    rw [← Bool.not_eq_true]
    intro hloses
    obtain ⟨e, he, hunkeys⟩ := exists_unkeys ho hn hloses
    exact absurd hunkeys (by simp [hkeyed e he])
  rw [mustRebuild, hkept, hsource, Bool.false_or, Bool.false_or, ← Bool.not_eq_true,
    Bool.and_eq_true, Option.any_eq_true]
  rintro ⟨hflag, q, hfind, hrestructured⟩
  obtain ⟨hq, hname⟩ := (find_key_eq_some_iff (surviving_nodup hn)).mp hfind
  obtain ⟨hnew, hold⟩ := mem_surviving.mp hq
  obtain ⟨hmem, -⟩ := ho.findTable_iff.mp hold
  exact htarget ⟨hflag, q.old, hmem, q.new, hnew, (surviving_name hq).trans hname, hname,
    (TablePair.isRestructured_iff (ho.table hmem)).mp hrestructured⟩

omit ho hn in
theorem dropSteps_phase {e : Step} (he : e ∈ c.dropSteps p) : e.phase ≤ 3 := by
  rw [dropSteps_eq, List.mem_append, List.mem_ite_nil_right, List.mem_singleton] at he
  rcases he with ⟨-, rfl⟩ | he
  · simp [Step.phase]
  · obtain ⟨x, -, rfl⟩ := List.mem_map.mp he
    exact x.dropStep_phase _

omit ho hn in
theorem columnSteps_phase {e : Step} (he : e ∈ c.columnSteps p) : e.phase = 6 := by
  simp only [columnSteps, List.mem_append, List.mem_map] at he
  rcases he with (⟨_, _, rfl⟩ | ⟨_, _, rfl⟩) | ⟨_, _, rfl⟩ <;> rfl

omit ho hn in
theorem addSteps_phase {e : Step} (he : e ∈ c.addSteps p) : 7 ≤ e.phase := by
  rw [addSteps_eq, List.mem_append, List.mem_ite_nil_right, List.mem_singleton] at he
  rcases he with he | ⟨-, rfl⟩
  · obtain ⟨x, -, rfl⟩ := List.mem_map.mp he
    exact x.addStep_phase _
  · simp [Step.phase]

theorem count_dropStep (hp : p ∈ c.surviving) (x : Constraint) :
    List.count (x.dropStep p.new.name) c.plan = List.count x (c.droppedConstraints p) := by
  have hphase := x.dropStep_phase p.new.name
  have hcolumns : x.dropStep p.new.name ∉ c.columnSteps p := fun h => by
    have := columnSteps_phase h
    omega
  have hadds : x.dropStep p.new.name ∉ c.addSteps p := fun h => by
    have := addSteps_phase h
    omega
  have htrigger : ∀ y, Step.dropTrigger p.old ≠ Constraint.dropStep p.new.name y := by
    intro y
    cases y <;> exact Step.noConfusion
  rw [← List.count_filter (p := (·.table? = some p.new.name)) (by simp), slice_surviving ho hn hp,
    List.count_append, List.count_append, List.count_eq_zero.mpr hcolumns,
    List.count_eq_zero.mpr hadds, dropSteps_eq, List.count_append, surviving_name hp,
    List.count_map_of_injective _ _ (Constraint.dropStep_injective p.new.name)]
  split <;> simp [htrigger]

theorem count_addStep (hp : p ∈ c.surviving) (x : Constraint) :
    List.count (x.addStep p.new.name) c.plan = List.count x (c.addedConstraints p) := by
  have hphase := x.addStep_phase p.new.name
  have hcolumns : x.addStep p.new.name ∉ c.columnSteps p := fun h => by
    have := columnSteps_phase h
    omega
  have hdrops : x.addStep p.new.name ∉ c.dropSteps p := fun h => by
    have := dropSteps_phase h
    omega
  have htrigger : ∀ y, Step.createTrigger p.new ≠ Constraint.addStep p.new.name y := by
    intro y
    cases y <;> exact Step.noConfusion
  rw [← List.count_filter (p := (·.table? = some p.new.name)) (by simp), slice_surviving ho hn hp,
    List.count_append, List.count_append, List.count_eq_zero.mpr hcolumns,
    List.count_eq_zero.mpr hdrops, addSteps_eq, List.count_append,
    List.count_map_of_injective _ _ (Constraint.addStep_injective p.new.name)]
  split <;> simp [htrigger]

/-- A constraint in both versions of a table is dropped if and only if it is added. -/
theorem plan_restores (hp : p ∈ c.surviving) {x : Constraint} (hold : x ∈ p.old.constraints)
    (hnew : x ∈ p.new.constraints) : Plan.Restores c.plan p.new.name x := by
  obtain ⟨hmem, hfind⟩ := mem_surviving.mp hp
  have hvalid := ho.table (ho.findTable_iff.mp hfind).1
  have hkept := kept_iff hp hvalid (hn.table hmem) x
  by_cases hx : x ∈ c.droppedConstraints p
  · have hadded : x ∈ c.addedConstraints p := by tauto
    have hdrop : List.count (x.dropStep p.new.name) c.plan = 1 := by
      rw [count_dropStep ho hn hp]
      exact List.count_eq_one_of_mem (droppedConstraints_nodup hvalid) hx
    have hadd : List.count (x.addStep p.new.name) c.plan = 1 := by
      rw [count_addStep ho hn hp]
      exact List.count_eq_one_of_mem (addedConstraints_nodup hp (hn.table hmem)) hadded
    refine Or.inr ⟨hdrop, hadd, ?_⟩
    have hsorted := plan_sorted (c := c)
    have hlater : x.addStep p.new.name ∈ c.plan := List.count_pos_iff.mp (by omega)
    obtain ⟨before, rest, hsplit⟩ := List.append_of_mem
      (List.count_pos_iff.mp (by omega : 0 < List.count (x.dropStep p.new.name) c.plan))
    rw [hsplit] at hsorted hlater ⊢
    have hdropPhase := x.dropStep_phase p.new.name
    have haddPhase := x.addStep_phase p.new.name
    rcases List.mem_append.mp hlater with hbefore | hrest
    · have := (List.pairwise_append.mp hsorted).2.2 _ hbefore _ List.mem_cons_self
      omega
    · rcases List.mem_cons.mp hrest with heq | hrest
      · rw [heq] at haddPhase
        omega
      · obtain ⟨between, after, rfl⟩ := List.append_of_mem hrest
        exact ⟨before, between, after, rfl⟩
  · have hadded : x ∉ c.addedConstraints p := by tauto
    refine Or.inl ⟨?_, ?_⟩
    · rw [← List.count_eq_zero, count_dropStep ho hn hp]
      exact List.count_eq_zero.mpr hx
    · rw [← List.count_eq_zero, count_addStep ho hn hp]
      exact List.count_eq_zero.mpr hadded

theorem slice_eq_nil_of_agrees (hp : p ∈ c.surviving) (h : p.old.Agrees p.new)
    (hstay : ∀ f ∈ p.new.foreignKeys,
      ¬ (c.recreate.foreignKeys = true ∧
        c.old.Restructures c.new f.reference.table f.reference.column) ∧
      ∀ e ∈ c.plan, e.unkeys f.reference.table f.reference.column = false) :
    c.plan.filter (·.table? = some p.new.name) = [] := by
  obtain ⟨hmem, hfind⟩ := mem_surviving.mp hp
  have hnew := hn.table hmem
  have hstate := ((Table.agrees_iff (ho.table (ho.findTable_iff.mp hfind).1) hnew).mp h).2
  rw [slice_surviving ho hn hp]
  refine pairSteps_eq_nil ho hn hp hstate fun f hf => ?_
  obtain ⟨htarget, hkeyed⟩ := hstay f ((h.foreignKeys f).mp hf)
  exact mustRebuild_eq_false_of_target ho hn ((TablePair.steady_of_state hstate hnew).columns _)
    htarget hkeyed

section Bare

variable (h : (c.old.tables.map Table.bare).Perm (c.new.tables.map Table.bare))
include h

theorem steady_of_bare {p : TablePair} (hp : p ∈ c.surviving) : p.Steady := by
  obtain ⟨hmem, hfind⟩ := mem_surviving.mp hp
  obtain ⟨hold, hname⟩ := ho.findTable_iff.mp hfind
  obtain ⟨t, ht, hbare⟩ := List.mem_map.mp (h.mem_iff.mp (List.mem_map_of_mem hold))
  have hsame : t = p.new := List.inj_on_of_nodup_map hn.tables_nodup ht hmem
    ((congrArg Table.name hbare).trans hname)
  exact TablePair.steady_of_bare (ho.table hold) (hn.table hmem) (hsame ▸ hbare.symm)

omit ho in
theorem droppedTables_eq_nil : c.droppedTables = [] := by
  rw [droppedTables, List.filter_eq_nil_iff]
  intro o hold
  obtain ⟨t, ht, hbare⟩ := List.mem_map.mp (h.mem_iff.mp (List.mem_map_of_mem hold))
  have hname : t.name = o.name := congrArg (·.name) hbare
  rw [hn.findTable_iff.mpr ⟨ht, hname⟩]
  exact Bool.false_ne_true

theorem dropStep_notMem_of_bare (table : String) (x : Constraint) :
    x.dropStep table ∉ c.plan := by
  intro hmem
  have hphase := x.dropStep_phase table
  have hslice : x.dropStep table ∈ c.plan.filter (·.table? = some table) :=
    List.mem_filter.mpr ⟨hmem, by simp⟩
  rw [slice_plan ho hn] at hslice
  cases hold : c.old.findTable? table with
  | none =>
    cases hnew : c.new.findTable? table with
    | none => simp [hold, hnew] at hslice
    | some t =>
      simp only [hold, hnew, List.mem_cons, List.mem_append, List.mem_map, List.mem_ite_nil_right,
        List.not_mem_nil, or_false] at hslice
      rcases hslice with heq | ⟨_, _, heq⟩ | ⟨_, heq⟩
      · rw [heq] at hphase
        simp [Step.phase] at hphase
      · rw [← heq] at hphase
        simp [Step.phase] at hphase
      · rw [heq] at hphase
        simp [Step.phase] at hphase
  | some o =>
    have hnone := find_droppedTables ho table
    rw [droppedTables_eq_nil hn h, hold] at hnone
    cases hnew : c.new.findTable? table with
    | none => simp [hnew] at hnone
    | some t =>
      obtain ⟨ht, rfl⟩ := hn.findTable_iff.mp hnew
      have hp : ⟨o, t⟩ ∈ c.surviving := mem_surviving.mpr ⟨ht, hold⟩
      have hsteady : ∀ q ∈ c.surviving, q.Steady := fun q hq => steady_of_bare ho hn h hq
      have hcount := count_dropStep ho hn hp x
      rw [droppedConstraints_eq_nil (hsteady _ hp) (hn.table ht) fun f _ =>
        mustRebuild_eq_false hn hsteady hp f] at hcount
      exact List.count_eq_zero.mp hcount hmem

end Bare

end Comparison

/-- What a plan leaves alone. No step is on a table that is the same in both schemas, unless one of
its foreign keys targets a column which changes its form or loses a key. A constraint in both
versions of a table stays or is put back. Where only defaults, comments and hints differ, no table
and no constraint goes. -/
theorem diff_leaves_untouched {old new : Schema} (ho : old.Built) (hn : new.Built)
    (r : RecreateOptions) :
    (∀ o ∈ old.tables, ∀ t ∈ new.tables, o.Agrees t →
      (∀ f ∈ t.foreignKeys,
        ¬ (r.foreignKeys = true ∧
          old.Restructures new f.reference.table f.reference.column) ∧
        ∀ e ∈ diff old new r, e.unkeys f.reference.table f.reference.column = false) →
      ∀ e ∈ diff old new r, e.table? ≠ some t.name) ∧
    (∀ o ∈ old.tables, ∀ t ∈ new.tables, o.name = t.name → ∀ x ∈ o.constraints,
      x ∈ t.constraints → (diff old new r).Restores t.name x) ∧
    ((old.tables.map Table.bare).Perm (new.tables.map Table.bare) →
      (∀ table x, Constraint.dropStep table x ∉ diff old new r) ∧
        ∀ t, .dropTable t ∉ diff old new r) := by
  let c : Comparison := ⟨old, new, r⟩
  have hpair : ∀ o ∈ old.tables, ∀ t ∈ new.tables, o.name = t.name → ⟨o, t⟩ ∈ c.surviving :=
    fun o hold t hnew hname => Comparison.mem_surviving.mpr
      ⟨hnew, ho.findTable_iff.mpr ⟨hold, hname⟩⟩
  refine ⟨fun o hold t hnew hagrees hstay e he hname => ?_, fun o hold t hnew hname x hx hx' => ?_,
    fun hbare => ⟨Comparison.dropStep_notMem_of_bare (c := c) ho hn hbare, fun t ht => ?_⟩⟩
  · have hslice := Comparison.slice_eq_nil_of_agrees (c := c) ho hn
      (hpair o hold t hnew hagrees.name) hagrees hstay
    exact List.filter_eq_nil_iff.mp hslice e he (by simpa using hname)
  · exact Comparison.plan_restores (c := c) ho hn (hpair o hold t hnew hname) hx hx'
  · obtain ⟨steps, hsteps, hmem⟩ := Comparison.mem_phase (c := c) ht
    cases hsteps
    rw [Comparison.dropTableSteps, Comparison.droppedTables_eq_nil (c := c) hn hbare] at hmem
    cases hmem

namespace Sample

/-- The shop with wider keys of customers. -/
def bigShop : Schema where
  tables := [
    { name := "Legacy"
      columns := [{ name := "email", dataType := .varchar 80, nullable := false }]
      primaryKey := ⟨"PK_Legacy", ["email"]⟩
      declaredForeignKeys := [⟨"FK_Legacy", "email", "Customer", "email", none, none⟩] },
    { name := "Customer"
      columns := [
        { name := "id", dataType := .bigInt, nullable := false },
        { name := "email", dataType := .varchar 80 }]
      primaryKey := ⟨"PK_Customer", ["id"]⟩
      uniques := [⟨"UQ_Customer_email", ["email"]⟩] },
    { name := "Orders"
      columns := [
        { name := "id", dataType := .integer, nullable := false },
        { name := "customer", dataType := .bigInt,
          reference := some ⟨"Customer", "id", none, none⟩ }]
      primaryKey := ⟨"PK_Orders", ["id"]⟩
      indexes := [⟨"IX_Orders_customer", ["customer"], []⟩] }]

/-- The shop with a default, a comment and hints in its tables. -/
def remarkedShop : Schema :=
  { shop with tables := shop.tables.map fun t =>
      { t with
        columns := t.columns.map fun c =>
          if c.name = "email" then
            { c with default := some (.literal .null), comment := some "lower case" }
          else { c with hints := [⟨.dialect .mySql, .columnType "TEXT"⟩] }
        hints := [⟨.all, .options "CACHE"⟩] } }

theorem bigShop_built : bigShop.Built :=
  Schema.built_of_drafts (by decide) (by decide) rfl

theorem remarkedShop_built : remarkedShop.Built where
  tables t ht :=
    have hbuild : ∀ t ∈ remarkedShop.tables, t.draft.build = .ok t := by with_unfolding_all decide
    ⟨t.draft, hbuild t ht⟩
  views := shop_built.views
  build := rfl

end Sample

/-- The key of the customers is put back, and the table that refers to their addresses is left
alone. -/
theorem shop_legacy_untouched :
    (.dropPrimaryKey "Customer" ⟨"PK_Customer", ["id"]⟩ ∈ diff Sample.shop Sample.bigShop .all ∧
      (diff Sample.shop Sample.bigShop .all).Restores "Customer"
        (.primaryKey ⟨"PK_Customer", ["id"]⟩)) ∧
    (∀ e ∈ diff Sample.shop Sample.bigShop .all, e.table? ≠ some "Legacy") ∧
    diff Sample.shop Sample.remarkedShop .all ≠ [] ∧
    ∀ table x, Constraint.dropStep table x ∉ diff Sample.shop Sample.remarkedShop .all := by
  obtain ⟨huntouched, hrestores, -⟩ :=
    diff_leaves_untouched Sample.shop_built Sample.bigShop_built .all
  obtain ⟨t, hold, hnew, hname, hstay⟩ : ∃ t ∈ Sample.shop.tables, t ∈ Sample.bigShop.tables ∧
      t.name = "Legacy" ∧ ∀ f ∈ t.foreignKeys,
        ¬ (RecreateOptions.all.foreignKeys = true ∧
          Sample.shop.Restructures Sample.bigShop f.reference.table f.reference.column) ∧
        ∀ e ∈ diff Sample.shop Sample.bigShop .all,
          e.unkeys f.reference.table f.reference.column = false := by
    with_unfolding_all decide
  obtain ⟨o, ho, t', ht', hsame, hx, hx', hcustomer⟩ : ∃ o ∈ Sample.shop.tables,
      ∃ t ∈ Sample.bigShop.tables, o.name = t.name ∧
        .primaryKey ⟨"PK_Customer", ["id"]⟩ ∈ o.constraints ∧
        .primaryKey ⟨"PK_Customer", ["id"]⟩ ∈ t.constraints ∧ t.name = "Customer" := by
    with_unfolding_all decide
  have hagrees : t.Agrees t := ⟨rfl, .refl _, rfl, fun _ => .rfl, fun _ => .rfl, fun _ => .rfl, rfl⟩
  refine ⟨⟨by with_unfolding_all decide, hcustomer ▸ hrestores o ho t' ht' hsame _ hx hx'⟩,
    hname ▸ huntouched t hold t hnew hagrees hstay, by with_unfolding_all decide, ?_⟩
  exact ((diff_leaves_untouched Sample.shop_built Sample.remarkedShop_built .all).2.2
    (by with_unfolding_all decide)).1

end Schemata
