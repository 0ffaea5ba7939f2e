import Schemata.Proofs.PlanSteps

/-! When there is nothing to migrate. The order of what is declared, comments, and hints on tables
and columns leave no trace in a plan; every other difference does. -/
namespace Schemata

/-- Two versions of a table that differ at most in the order of columns, keys and indexes, in
comments, and in hints on the table or its columns. -/
structure Table.Agrees (a b : Table) : Prop where
  name : a.name = b.name
  columns : (a.columns.map fun c => (c.name, c.shape)).Perm
    (b.columns.map fun c => (c.name, c.shape))
  primaryKey : a.primaryKey = b.primaryKey
  uniques : ∀ u, u ∈ a.uniques ↔ u ∈ b.uniques
  indexes : ∀ i, i ∈ a.indexes ↔ i ∈ b.indexes
  foreignKeys : ∀ f, f ∈ a.foreignKeys ↔ f ∈ b.foreignKeys
  onDelete : a.onDelete = b.onDelete

/-- Two schemas with the same tables in some order, and the same views. -/
structure Schema.Agrees (s u : Schema) : Prop where
  tables : ∃ ts, ts.Perm u.tables ∧ List.Forall₂ Table.Agrees s.tables ts
  views : ∀ v, v ∈ s.views ↔ v ∈ u.views

section Catalogs

variable {a b : Table}

theorem Table.Valid.columnShape_iff (h : a.Valid) {name : String} {shape : ColumnShape} :
    a.columnShape? name = some shape ↔
      (name, shape) ∈ a.columns.map fun c => (c.name, c.shape) := by
  simp only [Table.columnShape?, Option.map_eq_some_iff, h.findColumn_iff, List.mem_map,
    Prod.mk.injEq, and_assoc]

theorem Table.Valid.shapes_nodup (h : a.Valid) :
    (a.columns.map fun c => (c.name, c.shape)).Nodup := by
  apply List.Nodup.of_map Prod.fst
  rw [List.map_map]
  exact h.columns_nodup

/-- A catalog keeps of a table just what versions that agree have in common. -/
theorem Table.agrees_iff (ha : a.Valid) (hb : b.Valid) :
    a.Agrees b ↔ a.name = b.name ∧ a.state = b.state := by
  constructor
  · intro h
    refine ⟨h.name, TableState.ext_holds ?_ h.onDelete fun x => ?_⟩
    · funext name
      apply Option.ext
      intro shape
      change a.columnShape? name = some shape ↔ b.columnShape? name = some shape
      rw [ha.columnShape_iff, hb.columnShape_iff, h.columns.mem_iff]
    · rw [Table.state_holds, Table.state_holds]
      cases x with
      | primaryKey k => simp [h.primaryKey]
      | unique u => simpa using h.uniques u
      | index i => simpa using h.indexes i
      | foreignKey f => simpa using h.foreignKeys f
  · rintro ⟨hname, hstate⟩
    have hheld : ∀ x, x ∈ a.constraints ↔ x ∈ b.constraints := by
      intro x
      rw [← Table.state_holds, ← Table.state_holds, hstate]
    have hcolumns : a.columnShape? = b.columnShape? := congrArg TableState.columns hstate
    constructor
    · exact hname
    · rw [List.perm_ext_iff_of_nodup ha.shapes_nodup hb.shapes_nodup]
      rintro ⟨name, shape⟩
      rw [← ha.columnShape_iff, ← hb.columnShape_iff, hcolumns]
    · simpa using hheld (.primaryKey a.primaryKey)
    · exact fun u => by simpa using hheld (.unique u)
    · exact fun i => by simpa using hheld (.index i)
    · exact fun f => by simpa using hheld (.foreignKey f)
    · exact congrArg TableState.onDelete hstate

end Catalogs

namespace Schema

variable {s u : Schema}

theorem Agrees.forward (h : s.Agrees u) {t : Table} (ht : t ∈ s.tables) :
    ∃ t' ∈ u.tables, t.Agrees t' := by
  obtain ⟨ts, hperm, hall⟩ := h.tables
  obtain ⟨i, hi, rfl⟩ := List.mem_iff_getElem.mp ht
  have hi' : i < ts.length := hall.length_eq ▸ hi
  exact ⟨ts[i], hperm.mem_iff.mp (List.getElem_mem hi'), hall.get hi hi'⟩

theorem Agrees.backward (h : s.Agrees u) {t : Table} (ht : t ∈ u.tables) :
    ∃ t' ∈ s.tables, t'.Agrees t := by
  obtain ⟨ts, hperm, hall⟩ := h.tables
  obtain ⟨i, hi, rfl⟩ := List.mem_iff_getElem.mp (hperm.mem_iff.mpr ht)
  have hi' : i < s.tables.length := hall.length_eq ▸ hi
  exact ⟨s.tables[i], List.getElem_mem hi', hall.get hi' hi⟩

variable (hs : s.Built) (hu : u.Built)
include hs hu

theorem Agrees.catalog_eq (h : s.Agrees u) : s.catalog = u.catalog := by
  have htables : s.catalog.tables = u.catalog.tables := by
    funext name
    apply Option.ext
    intro state
    simp only [catalog, Option.map_eq_some_iff, hs.findTable_iff, hu.findTable_iff]
    constructor
    · rintro ⟨t, ⟨ht, rfl⟩, rfl⟩
      obtain ⟨t', ht', hagree⟩ := h.forward ht
      obtain ⟨hname, hstate⟩ := (Table.agrees_iff (hs.table ht) (hu.table ht')).mp hagree
      exact ⟨t', ⟨ht', hname.symm⟩, hstate.symm⟩
    · rintro ⟨t, ⟨ht, rfl⟩, rfl⟩
      obtain ⟨t', ht', hagree⟩ := h.backward ht
      obtain ⟨hname, hstate⟩ := (Table.agrees_iff (hs.table ht') (hu.table ht)).mp hagree
      exact ⟨t', ⟨ht', hname⟩, hstate⟩
  have hviews : s.catalog.views = u.catalog.views := by
    ext v
    simpa [catalog] using h.views v
  rw [show s.catalog = ⟨s.catalog.tables, s.catalog.views⟩ from rfl, htables, hviews]

theorem agrees_of_catalog_eq (h : s.catalog = u.catalog) : s.Agrees u := by
  -- Each table is paired with the one of its name.
  let partner (t : Table) : Table := (u.findTable? t.name).getD t
  have hpartner : ∀ t ∈ s.tables, partner t ∈ u.tables ∧ t.Agrees (partner t) := by
    intro t ht
    have hfind : s.findTable? t.name = some t := hs.findTable_iff.mpr ⟨ht, rfl⟩
    have hstates : (s.findTable? t.name).map Table.state = (u.findTable? t.name).map Table.state :=
      congrFun (congrArg Catalog.tables h) t.name
    rw [hfind, Option.map_some] at hstates
    obtain ⟨t', hfind', hstate⟩ := Option.map_eq_some_iff.mp hstates.symm
    obtain ⟨ht', hname⟩ := hu.findTable_iff.mp hfind'
    have heq : partner t = t' := by simp [partner, hfind']
    rw [heq]
    exact ⟨ht', (Table.agrees_iff (hs.table ht) (hu.table ht')).mpr ⟨hname.symm, hstate.symm⟩⟩
  have hnames : (s.tables.map partner).map (·.name) = s.tables.map (·.name) := by
    rw [List.map_map]
    exact List.map_congr_left fun t ht => (hpartner t ht).2.name.symm
  have hnodup : (s.tables.map partner).Nodup :=
    List.Nodup.of_map _ (hnames ▸ hs.tables_nodup)
  refine ⟨⟨s.tables.map partner, ?_, ?_⟩, fun v => ?_⟩
  · rw [List.perm_ext_iff_of_nodup hnodup (List.Nodup.of_map _ hu.tables_nodup)]
    intro t
    constructor
    · intro ht
      obtain ⟨t', ht', rfl⟩ := List.mem_map.mp ht
      exact (hpartner t' ht').1
    · intro ht
      have hstates := congrFun (congrArg Catalog.tables h) t.name
      simp only [catalog, hu.findTable_iff.mpr ⟨ht, rfl⟩, Option.map_some] at hstates
      obtain ⟨t', hfind, -⟩ := Option.map_eq_some_iff.mp hstates
      obtain ⟨ht', hname⟩ := hs.findTable_iff.mp hfind
      refine List.mem_map.mpr ⟨t', ht', ?_⟩
      simp [partner, hname, hu.findTable_iff.mpr ⟨ht, rfl⟩]
  · rw [List.forall₂_map_right_iff, List.forall₂_same]
    exact fun t ht => (hpartner t ht).2
  · have hviews := congrArg Catalog.views h
    simpa [catalog] using congrArg (v ∈ ·) hviews

end Schema

namespace TablePair

variable {p : TablePair} {r : RecreateOptions} (h : p.old.state = p.new.state)
  (hn : p.new.Valid)
include h

include hn in
theorem altered_eq_nil (d : Bool) : p.altered d = [] := by
  rw [List.eq_nil_iff_forall_not_mem]
  intro a ha
  obtain ⟨hafter, hbefore, hchange, hempty⟩ := mem_altered.mp ha
  have hshapes : p.old.columnShape? a.after.name = p.new.columnShape? a.after.name :=
    congrFun (congrArg TableState.columns h) a.after.name
  rw [Comparison.columnShape_of_mem hn hafter, Table.columnShape?, hbefore] at hshapes
  rw [hchange, changeOf_isEmpty_iff.mpr (Option.some.inj hshapes)] at hempty
  cases hempty

theorem dropped_eq_nil : p.dropped = [] := by
  rw [dropped, List.filter_eq_nil_iff]
  intro c hc hnone
  have hshapes : p.old.columnShape? c.name = p.new.columnShape? c.name :=
    congrFun (congrArg TableState.columns h) c.name
  rw [Option.isNone_iff_eq_none] at hnone
  rw [Table.columnShape?, Table.columnShape?, hnone, Option.map_none, Option.map_eq_none_iff]
    at hshapes
  exact List.find?_eq_none.mp hshapes c hc (beq_self_eq_true c.name)

theorem added_eq_nil : p.added = [] :=
  dropped_eq_nil (p := ⟨p.new, p.old⟩) h.symm

include hn

theorem changesColumns_eq_false : p.changesColumns = false := by
  simp [changesColumns, altered_eq_nil h hn, dropped_eq_nil h]

/-- No constraint of the old version is missing from the new one, and no column changes its type or
nullability. -/
structure Steady (p : TablePair) : Prop where
  constraints : ∀ x ∈ p.old.constraints, x ∈ p.new.constraints
  columns : ∀ column, p.isRestructured column = false

theorem steady_of_state : p.Steady where
  constraints x hx := by rwa [← Table.state_holds, ← h, Table.state_holds]
  columns column := by simp [isRestructured, altered_eq_nil h hn]

end TablePair

namespace TablePair.Steady

variable {p : TablePair} {r : RecreateOptions} (h : p.Steady) (hn : p.new.Valid)
include h

theorem touches_eq_false (columns : List String) : p.touches columns = false := by
  rw [touches, List.any_eq_false]
  intro column _
  simp [h.columns]

theorem replacesPrimaryKey_eq_false : p.replacesPrimaryKey r = false := by
  have hkey : p.old.primaryKey = p.new.primaryKey :=
    Table.primaryKey_mem_constraints.mp (h.constraints _ (Table.primaryKey_mem_constraints.mpr rfl))
  simp [replacesPrimaryKey, hkey, h.touches_eq_false]

include hn

theorem droppedUniques_eq_nil : p.droppedUniques r = [] := by
  rw [droppedUniques, List.filter_eq_nil_iff]
  intro u hu
  have hnew : u ∈ p.new.uniques :=
    Table.unique_mem_constraints.mp (h.constraints _ (Table.unique_mem_constraints.mpr hu))
  rw [Comparison.replacesUnique_iff hn.uniques_nodup, h.touches_eq_false]
  simp [hnew]

theorem losesKey_eq_false (column : String) : p.losesKey r column = false := by
  simp [losesKey, h.replacesPrimaryKey_eq_false, h.droppedUniques_eq_nil hn]

end TablePair.Steady

namespace Comparison

variable {c : Comparison} {p : TablePair}

/-- If no key goes and no column changes its form, foreign keys can stay. -/
theorem mustRebuild_eq_false (hn : c.new.Built) (h : ∀ q ∈ c.surviving, q.Steady)
    (hp : p ∈ c.surviving) (f : ForeignKey) : c.mustRebuild p f = false := by
  have hkeyed : c.isUnkeyed f.reference.table f.reference.column = false := by
    rw [isUnkeyed, List.any_eq_false]
    intro q hq
    simp [(h q hq).losesKey_eq_false (hn.table (mem_surviving.mp hq).1)]
  have htarget : ((c.surviving.find? fun q => q.new.name == f.reference.table).any fun q =>
      q.isRestructured f.reference.column) = false := by
    cases hfind : c.surviving.find? fun q => q.new.name == f.reference.table with
    | none => rfl
    | some q => exact (h q (List.mem_of_find?_eq_some hfind)).columns _
  rw [mustRebuild, hkeyed, (h p hp).columns, htarget]
  simp

theorem droppedConstraints_eq_nil (h : p.Steady) (hn : p.new.Valid)
    (hstay : ∀ f ∈ p.old.foreignKeys, c.mustRebuild p f = false) :
    c.droppedConstraints p = [] := by
  rw [List.eq_nil_iff_forall_not_mem]
  intro x hx
  have hnew := h.constraints x (droppedConstraints_subset hx)
  rw [mem_droppedConstraints] at hx
  cases x with
  | primaryKey k => simp [h.replacesPrimaryKey_eq_false] at hx
  | unique u =>
    rcases (replacesUnique_iff hn.uniques_nodup).mp hx.2 with hmissing | ⟨-, htouched⟩
    · exact hmissing (Table.unique_mem_constraints.mp hnew)
    · simp [h.touches_eq_false] at htouched
  | index i =>
    rcases (replacesIndex_iff hn.indexes_nodup).mp hx.2 with hmissing | ⟨-, htouched⟩
    · exact hmissing (Table.index_mem_constraints.mp hnew)
    · simp [h.touches_eq_false] at htouched
  | foreignKey f =>
    rcases hx.2 with hmissing | hrebuilt
    · exact hmissing (Table.foreignKey_mem_constraints.mp hnew)
    · simp [hstay f hx.1] at hrebuilt

/-- There is nothing to do for a table in both schemas that the catalogs show alike, unless one of
its foreign keys has to be built again. -/
theorem pairSteps_eq_nil (ho : c.old.Built) (hn : c.new.Built) (hp : p ∈ c.surviving)
    (h : p.old.state = p.new.state)
    (hstay : ∀ f ∈ p.old.foreignKeys, c.mustRebuild p f = false) :
    c.dropSteps p ++ c.columnSteps p ++ c.addSteps p = [] := by
  obtain ⟨hmem, hfind⟩ := mem_surviving.mp hp
  have hnew := hn.table hmem
  have hold := ho.table (ho.findTable_iff.mp hfind).1
  have hdropped : c.droppedConstraints p = [] :=
    droppedConstraints_eq_nil (TablePair.steady_of_state h hnew) hnew hstay
  have hadded : c.addedConstraints p = [] := by
    rw [List.eq_nil_iff_forall_not_mem]
    intro x hx
    have hkept : x ∈ p.old.constraints ∧ x ∉ c.droppedConstraints p := by
      rw [hdropped, ← Table.state_holds, h, Table.state_holds]
      exact ⟨addedConstraints_subset hp hx, List.not_mem_nil⟩
    exact ((kept_iff hp hold hnew x).mp hkept).2 hx
  have hactions : p.old.onDelete = p.new.onDelete := congrArg TableState.onDelete h
  simp [dropSteps_eq, addSteps_eq, columnSteps, hdropped, hadded, TablePair.altered_eq_nil h hnew,
    TablePair.added_eq_nil h, TablePair.dropped_eq_nil h, hactions]

variable (ho : c.old.Built) (hn : c.new.Built) (h : c.old.catalog = c.new.catalog)
include h

theorem states_eq (name : String) :
    (c.old.findTable? name).map Table.state = (c.new.findTable? name).map Table.state :=
  congrFun (congrArg Catalog.tables h) name

include hn in
theorem surviving_states_eq {p : TablePair} (hp : p ∈ c.surviving) :
    p.old.state = p.new.state := by
  obtain ⟨hmem, hold⟩ := mem_surviving.mp hp
  have hstates := states_eq h p.new.name
  rw [hold, hn.findTable_iff.mpr ⟨hmem, rfl⟩] at hstates
  exact Option.some.inj hstates

include ho hn in
theorem slice_eq_nil (name : String) : c.plan.filter (·.table? = some name) = [] := by
  have hsteady : ∀ q ∈ c.surviving, q.Steady := fun q hq =>
    TablePair.steady_of_state (surviving_states_eq hn h hq) (hn.table (mem_surviving.mp hq).1)
  have hstates := states_eq h name
  rw [slice_plan ho hn]
  cases hold : c.old.findTable? name with
  | none =>
    cases hnew : c.new.findTable? name with
    | none => rfl
    | some t => simp [hold, hnew] at hstates
  | some o =>
    cases hnew : c.new.findTable? name with
    | none => simp [hold, hnew] at hstates
    | some t =>
      obtain ⟨hmem, hname⟩ := hn.findTable_iff.mp hnew
      have hp : ⟨o, t⟩ ∈ c.surviving := mem_surviving.mpr ⟨hmem, hname ▸ hold⟩
      exact pairSteps_eq_nil ho hn hp (surviving_states_eq hn h hp) fun f _ =>
        mustRebuild_eq_false hn hsteady hp f

include ho hn in
theorem isAffected_eq_false (table : String) : c.isAffected table = false := by
  have hdropped : c.droppedTables = [] := by
    rw [droppedTables, List.filter_eq_nil_iff]
    intro t ht hnone
    have hstates := states_eq h t.name
    rw [Option.isNone_iff_eq_none] at hnone
    rw [ho.findTable_iff.mpr ⟨ht, rfl⟩, hnone] at hstates
    cases hstates
  have hchanged : (c.surviving.any fun p => p.changesColumns && p.old.name == table) = false := by
    rw [List.any_eq_false]
    intro p hp
    simp [TablePair.changesColumns_eq_false (surviving_states_eq hn h hp)
      (hn.table (mem_surviving.mp hp).1)]
  rw [isAffected, hdropped, hchanged]
  rfl

include ho hn in
theorem goneViews_eq_nil : c.goneViews [] = [] := by
  rw [List.eq_nil_iff_forall_not_mem]
  refine goneViews_induction (fun gone hgone v hv hdrops => ?_) fun _ => List.not_mem_nil
  have hnew : v ∈ c.new.views := by
    have hviews : c.old.views.toFinset = c.new.views.toFinset := congrArg Catalog.views h
    rwa [← List.mem_toFinset, ← hviews, List.mem_toFinset]
  rw [List.eq_nil_iff_forall_not_mem.mpr hgone, dropsView,
    hn.findView_iff.mpr ⟨hnew, rfl⟩] at hdrops
  simp [isAffected_eq_false ho hn h] at hdrops

include ho hn in
theorem slice_views_eq_nil : c.plan.filter (·.table? = none) = [] := by
  have hdropped : c.droppedViews = [] := by
    rw [List.eq_nil_iff_forall_not_mem]
    intro v hv
    have hgone := (mem_droppedViews.mp hv).2
    rw [goneViews_eq_nil ho hn h] at hgone
    cases hgone
  have hcreated : c.createdViews = [] := by
    rw [List.eq_nil_iff_forall_not_mem]
    intro v hv
    obtain ⟨hnew, hfree⟩ := (mem_createdViews ho).mp hv
    have hold : v ∈ c.old.views := by
      have hviews : c.old.views.toFinset = c.new.views.toFinset := congrArg Catalog.views h
      rwa [← List.mem_toFinset, hviews, List.mem_toFinset]
    exact hfree v hold (by simp [hdropped]) rfl
  rw [slice_plan_views, dropViewSteps, createViewSteps_eq, hdropped, hcreated]
  rfl

include ho hn in
theorem plan_eq_nil : c.plan = [] := by
  rw [List.eq_nil_iff_forall_not_mem]
  intro e he
  cases htable : e.table? with
  | none =>
    have hslice : e ∈ c.plan.filter (·.table? = none) := by simp [he, htable]
    rw [slice_views_eq_nil ho hn h] at hslice
    cases hslice
  | some name =>
    have hslice : e ∈ c.plan.filter (·.table? = some name) := by simp [he, htable]
    rw [slice_eq_nil ho hn h] at hslice
    cases hslice

omit h in
include ho hn in
/-- A plan without steps leaves the catalog of the old schema as it is and ends at that of the new
one. -/
theorem catalog_eq_of_plan_nil (hplan : c.plan = []) : c.old.catalog = c.new.catalog := by
  have htables : c.old.catalog.tables = c.new.catalog.tables := by
    funext name
    have hrun := run_slot ho hn name
    rw [hplan] at hrun
    exact Option.some.inj hrun
  have hviews : c.old.catalog.views = c.new.catalog.views := by
    have hrun := run_views ho hn
    rw [hplan] at hrun
    exact Option.some.inj hrun
  rw [show c.old.catalog = ⟨c.old.catalog.tables, c.old.catalog.views⟩ from rfl, htables, hviews]

end Comparison

section KeyColumns

/-- A column is in a key if some constraint that the table holds has it. -/
theorem Table.isKeyColumn_iff {t : Table} {column : String} :
    t.isKeyColumn column = true ↔ ∃ x, t.state.Holds x ∧ column ∈ x.columns := by
  simp only [Table.state_holds, isKeyColumn, Bool.not_eq_true',
    List.isEmpty_eq_false_iff_exists_mem, constraintsTouching, List.mem_append,
    List.mem_ite_nil_right, List.contains_iff_mem, List.mem_singleton, List.mem_map,
    List.mem_filter, beq_iff_eq]
  constructor
  · rintro ⟨name, ((⟨hc, -⟩ | ⟨u, ⟨hu, hc⟩, -⟩) | ⟨i, ⟨hi, hc⟩, -⟩) | ⟨f, ⟨hf, rfl⟩, -⟩⟩
    · exact ⟨.primaryKey t.primaryKey, primaryKey_mem_constraints.mpr rfl, hc⟩
    · exact ⟨.unique u, unique_mem_constraints.mpr hu, hc⟩
    · exact ⟨.index i, index_mem_constraints.mpr hi, hc⟩
    · exact ⟨.foreignKey f, foreignKey_mem_constraints.mpr hf, List.mem_singleton.mpr rfl⟩
  · rintro ⟨x, hx, hc⟩
    refine ⟨x.name, ?_⟩
    cases x with
    | primaryKey k =>
      obtain rfl := primaryKey_mem_constraints.mp hx
      exact Or.inl (Or.inl (Or.inl ⟨hc, rfl⟩))
    | unique u => exact Or.inl (Or.inl (Or.inr ⟨u, ⟨unique_mem_constraints.mp hx, hc⟩, rfl⟩))
    | index i => exact Or.inl (Or.inr ⟨i, ⟨index_mem_constraints.mp hx, hc⟩, rfl⟩)
    | foreignKey f =>
      have hcolumn : f.column = column := (List.mem_singleton.mp hc).symm
      exact Or.inr ⟨f, ⟨foreignKey_mem_constraints.mp hx, hcolumn⟩, rfl⟩

/-- Whether a column is the target of a foreign key can be told from the catalog. -/
theorem Schema.Built.isReferenced_iff {s : Schema} (h : s.Built) {table column : String} :
    s.isReferenced table column = true ↔ ∃ name state, s.catalog.tables name = some state ∧
      ∃ f ∈ state.foreignKeys, f.reference.table = table ∧ f.reference.column = column := by
  simp only [isReferenced, List.any_eq_true, Bool.and_eq_true, beq_iff_eq, catalog,
    Option.map_eq_some_iff, h.findTable_iff]
  constructor
  · rintro ⟨t, ht, f, hf, htarget⟩
    exact ⟨t.name, t.state, ⟨t, ⟨ht, rfl⟩, rfl⟩, f, List.mem_toFinset.mpr hf, htarget⟩
  · rintro ⟨name, state, ⟨t, ⟨ht, -⟩, rfl⟩, f, hf, htarget⟩
    exact ⟨t, ht, f, List.mem_toFinset.mp hf, htarget⟩

theorem Comparison.isKeyColumn_eq {c : Comparison} (ho : c.old.Built) (hn : c.new.Built)
    (h : c.old.catalog = c.new.catalog) {p : TablePair} (hp : p ∈ c.surviving) (column : String) :
    c.old.isKeyColumn p.old column = c.new.isKeyColumn p.new column := by
  rw [Bool.eq_iff_iff]
  simp only [Schema.isKeyColumn, Bool.or_eq_true, Table.isKeyColumn_iff, ho.isReferenced_iff,
    hn.isReferenced_iff, h, surviving_states_eq hn h hp, surviving_name hp]

end KeyColumns

namespace Dialect

variable {d : Dialect} {old new : Schema} (ho : old.Built) (hn : new.Built)
  (h : old.catalog = new.catalog)
include ho hn h

theorem widthAlters_eq_nil (plan : Plan) : d.widthAlters old new plan = [] := by
  rw [List.eq_nil_iff_forall_not_mem]
  intro e he
  obtain ⟨t, ht, o, hfind, after, -, before, -, -, hwidth, -⟩ := mem_widthAlters.mp he
  have hp : ⟨o, t⟩ ∈ (Comparison.mk old new .none).surviving :=
    Comparison.mem_surviving.mpr ⟨ht, hfind⟩
  have hkey : old.isKeyColumn o after.name = new.isKeyColumn t after.name :=
    Comparison.isKeyColumn_eq ho hn h hp after.name
  simp [changesWidth, hkey] at hwidth

theorem migrationPlan_eq_nil : d.migrationPlan old new = [] := by
  have hplan : diff old new d.recreateOptions = [] :=
    Comparison.plan_eq_nil (c := ⟨old, new, d.recreateOptions⟩) ho hn h
  simp [migrationPlan, hplan, widthAlters_eq_nil ho hn h, Plan.insertAlters]

end Dialect

/-- A plan has no step exactly if the schemas agree. Then the migration script of every dialect is
the comment at its head and the update of the version. -/
theorem diff_eq_nil_iff {old new : Schema} (ho : old.Built) (hn : new.Built)
    (recreate : RecreateOptions) :
    (diff old new recreate = [] ↔ old.Agrees new) ∧
      (old.Agrees new → old.resolve = .ok () → new.resolve = .ok () →
        ∀ (d : Dialect) (version : Nat) (options : MigrationOptions), options.additional = none →
          d.migrationScript old new version options =
            .ok [d.migrationHeader version,
              .plain ("UPDATE " ++ d.quote options.versionTable ++ " SET " ++
                d.quote options.versionColumn ++ " = " ++ toString version)]) := by
  constructor
  · constructor
    · intro hplan
      apply Schema.agrees_of_catalog_eq ho hn
      exact Comparison.catalog_eq_of_plan_nil (c := ⟨old, new, recreate⟩) ho hn hplan
    · intro hagrees
      exact Comparison.plan_eq_nil (c := ⟨old, new, recreate⟩) ho hn (hagrees.catalog_eq ho hn)
  · intro hagrees hold hnew d version options hadditional
    have hplan := Dialect.migrationPlan_eq_nil (d := d) ho hn (hagrees.catalog_eq ho hn)
    unfold Dialect.migrationScript
    rw [hold, hnew, hadditional, hplan]
    have hprocedure : d.needsDefaultProcedure [] = false := Bool.and_false _
    simp [Dialect.prologue, Dialect.epilogue, hprocedure, Resolve.statements, Dialect.byTable,
      emitAll, bind, Except.bind, pure, Except.pure]

namespace Sample

/-- The shop in another order, with comments and with hints on a table and a column. -/
def restatedShop : Schema where
  tables := [
    { name := "Orders"
      columns := [
        { name := "customer", dataType := .integer, comment := some "who pays"
          reference := some ⟨"Customer", "id", none, none⟩ },
        { name := "id", dataType := .integer, nullable := false }]
      primaryKey := ⟨"PK_Orders", ["id"]⟩
      indexes := [⟨"IX_Orders_customer", ["customer"], []⟩]
      hints := [⟨.all, .options "CACHE"⟩] },
    { name := "Legacy"
      columns := [{ name := "email", dataType := .varchar 80, nullable := false }]
      primaryKey := ⟨"PK_Legacy", ["email"]⟩
      declaredForeignKeys := [⟨"FK_Legacy", "email", "Customer", "email", none, none⟩]
      comment := some "no longer filled" },
    { name := "Customer"
      columns := [
        { name := "email", dataType := .varchar 80 },
        { name := "note", dataType := .clob, hints := [⟨.dialect .mySql, .columnType "TEXT"⟩] },
        { name := "id", dataType := .integer, nullable := false }]
      primaryKey := ⟨"PK_Customer", ["id"]⟩
      uniques := [⟨"UQ_Customer_email", ["email"]⟩]
      onDelete := [.delete "Orders" (some (.binary .eq (.column none "customer")
        (.column (some "OLD") "id")))] }]
  views := shop.views.reverse

theorem restatedShop_built : restatedShop.Built :=
  Schema.built_of_drafts (by decide +kernel) (by decide +kernel) rfl

end Sample

theorem shop_restated : Sample.shop.Built ∧ Sample.restatedShop.Built ∧
    diff Sample.shop Sample.restatedShop .all = [] ∧ Sample.shop.Agrees Sample.restatedShop ∧
    Dialect.sqlServer.migrationScript Sample.shop Sample.restatedShop 8 {} =
      .ok [.comment "Migration from version 7 to 8 for Microsoft SQL Server",
        .plain "UPDATE SchemaVersion SET Version = 8"] := by
  have hplan : diff Sample.shop Sample.restatedShop .all = [] := by decide +kernel
  obtain ⟨hiff, hscript⟩ := diff_eq_nil_iff Sample.shop_built Sample.restatedShop_built .all
  refine ⟨Sample.shop_built, Sample.restatedShop_built, hplan, hiff.mp hplan, ?_⟩
  rw [hscript (hiff.mp hplan) (by decide +kernel) (by decide +kernel) .sqlServer 8 {} rfl]
  decide +kernel

end Schemata
