import Schemata.Proofs.TablePlan
import Mathlib.Data.List.Perm.Basic

/-! Primary keys, unique constraints, indexes and foreign keys under one type. A table's state is
its columns, its delete actions and the constraints that it holds. -/
namespace Schemata

inductive Constraint where
  | primaryKey (key : PrimaryKey)
  | unique (constraint : UniqueConstraint)
  | index (index : Index)
  | foreignKey (key : ForeignKey)
  deriving DecidableEq, Repr

namespace Constraint

def name : Constraint → String
  | primaryKey k => k.name
  | unique u => u.name
  | index i => i.name
  | foreignKey f => f.name

def columns : Constraint → List String
  | primaryKey k => k.columns
  | unique u => u.columns
  | index i => i.columns
  | foreignKey f => [f.column]

def dropStep (table : String) : Constraint → Step
  | primaryKey k => .dropPrimaryKey table k
  | unique u => .dropUnique table u
  | index i => .dropIndex table i
  | foreignKey f => .dropForeignKey table f

def addStep (table : String) : Constraint → Step
  | primaryKey k => .addPrimaryKey table k
  | unique u => .addUnique table u
  | index i => .addIndex table i
  | foreignKey f => .addForeignKey table f

end Constraint

namespace Table

def constraints (t : Table) : List Constraint :=
  .primaryKey t.primaryKey :: (t.uniques.map .unique ++ t.indexes.map .index ++
    t.foreignKeys.map .foreignKey)

@[simp] theorem primaryKey_mem_constraints {t : Table} {k : PrimaryKey} :
    .primaryKey k ∈ t.constraints ↔ k = t.primaryKey := by
  simp [constraints]

@[simp] theorem unique_mem_constraints {t : Table} {u : UniqueConstraint} :
    .unique u ∈ t.constraints ↔ u ∈ t.uniques := by
  simp [constraints]

@[simp] theorem index_mem_constraints {t : Table} {i : Index} :
    .index i ∈ t.constraints ↔ i ∈ t.indexes := by
  simp [constraints]

@[simp] theorem foreignKey_mem_constraints {t : Table} {f : ForeignKey} :
    .foreignKey f ∈ t.constraints ↔ f ∈ t.foreignKeys := by
  simp [constraints]

variable {t : Table}

theorem Valid.constraints_nodup (h : t.Valid) : (t.constraints.map (·.name)).Nodup := by
  have hperm : (t.constraints.map (·.name)).Perm t.constraintNames := by
    simp only [constraints, constraintNames, foreignKeys, List.map_cons, List.map_append,
      List.map_map, Function.comp_def, Constraint.name, List.append_assoc]
    exact ((List.perm_append_comm.append_left _).append_left _).cons _
  exact hperm.nodup_iff.mpr h.names_nodup

theorem Valid.uniques_nodup (h : t.Valid) : (t.uniques.map (·.name)).Nodup := by
  refine h.constraints_nodup.sublist ?_
  simp only [constraints, List.map_cons, List.map_append, List.map_map, Function.comp_def,
    Constraint.name, List.append_assoc]
  exact (List.sublist_append_left _ _).cons _

theorem Valid.indexes_nodup (h : t.Valid) : (t.indexes.map (·.name)).Nodup := by
  refine h.constraints_nodup.sublist ?_
  simp only [constraints, List.map_cons, List.map_append, List.map_map, Function.comp_def,
    Constraint.name, List.append_assoc]
  exact ((List.sublist_append_left _ _).trans (List.sublist_append_right _ _)).cons _

theorem Valid.eq_of_name (h : t.Valid) {x y : Constraint} (hx : x ∈ t.constraints)
    (hy : y ∈ t.constraints) (hn : x.name = y.name) : x = y :=
  List.inj_on_of_nodup_map h.constraints_nodup hx hy hn

theorem Valid.columns_of_constraint (h : t.Valid) {x : Constraint} (hx : x ∈ t.constraints) :
    ∀ c ∈ x.columns, c ∈ t.columnNames := by
  cases x with
  | primaryKey k => exact (primaryKey_mem_constraints.mp hx) ▸ h.primaryKey.2
  | unique u => exact (h.uniques u (unique_mem_constraints.mp hx)).2
  | index i => exact (h.indexes i (index_mem_constraints.mp hx)).2
  | foreignKey f =>
    intro c hc
    rw [List.mem_singleton.mp hc]
    rcases List.mem_append.mp (foreignKey_mem_constraints.mp hx) with hf | hf
    · obtain ⟨d, hd, hf⟩ := List.mem_filterMap.mp hf
      obtain ⟨r, _, rfl⟩ := Option.map_eq_some_iff.mp hf
      exact List.mem_map_of_mem hd
    · exact h.declared f hf

end Table

namespace TableState

def Holds (s : TableState) : Constraint → Prop
  | .primaryKey k => s.primaryKey = some k
  | .unique u => u ∈ s.uniques
  | .index i => i ∈ s.indexes
  | .foreignKey f => f ∈ s.foreignKeys

variable {s s' : TableState}

theorem ext_holds (hc : s.columns = s'.columns) (hd : s.onDelete = s'.onDelete)
    (h : ∀ x, s.Holds x ↔ s'.Holds x) : s = s' := by
  obtain ⟨columns, key, uniques, indexes, foreignKeys, onDelete⟩ := s
  obtain ⟨columns', key', uniques', indexes', foreignKeys', onDelete'⟩ := s'
  have hkey : key = key' := Option.ext fun k => h (.primaryKey k)
  have huniques : uniques = uniques' := Finset.ext fun u => h (.unique u)
  have hindexes : indexes = indexes' := Finset.ext fun i => h (.index i)
  have hforeign : foreignKeys = foreignKeys' := Finset.ext fun f => h (.foreignKey f)
  cases hc
  cases hd
  subst hkey huniques hindexes hforeign
  rfl

theorem mem_names {n : String} : n ∈ s.names ↔ ∃ x, s.Holds x ∧ x.name = n := by
  simp only [names, Finset.mem_union, Option.mem_toFinset, Option.mem_def, Option.map_eq_some_iff,
    Finset.mem_image]
  constructor
  · rintro (((⟨k, hk, rfl⟩ | ⟨u, hu, rfl⟩) | ⟨i, hi, rfl⟩) | ⟨f, hf, rfl⟩)
    · exact ⟨.primaryKey k, hk, rfl⟩
    · exact ⟨.unique u, hu, rfl⟩
    · exact ⟨.index i, hi, rfl⟩
    · exact ⟨.foreignKey f, hf, rfl⟩
  · rintro ⟨x, hx, rfl⟩
    cases x with
    | primaryKey k => exact Or.inl (Or.inl (Or.inl ⟨k, hx, rfl⟩))
    | unique u => exact Or.inl (Or.inl (Or.inr ⟨u, hx, rfl⟩))
    | index i => exact Or.inl (Or.inr ⟨i, hx, rfl⟩)
    | foreignKey f => exact Or.inr ⟨f, hx, rfl⟩

/-- Among constraints of one valid table, one that is not held has a free name. -/
theorem name_free {t : Table} (ht : t.Valid) (hs : ∀ y, s.Holds y → y ∈ t.constraints)
    {x : Constraint} (hx : x ∈ t.constraints) (hn : ¬ s.Holds x) : x.name ∉ s.names := by
  intro hmem
  obtain ⟨y, hy, hname⟩ := mem_names.mp hmem
  exact hn (ht.eq_of_name (hs y hy) hx hname ▸ hy)

theorem step_drop {x : Constraint} (table : String) (hx : s.Holds x) (hc : s.Has x.columns) :
    s.step (x.dropStep table) = some (s.next (x.dropStep table)) := by
  have hen : s.Enabled (x.dropStep table) := by
    cases x <;> exact ⟨hx, hc⟩
  simp [step, hen]

theorem holds_drop {x y : Constraint} (table : String) (hx : s.Holds x) :
    (s.next (x.dropStep table)).Holds y ↔ s.Holds y ∧ y ≠ x := by
  cases x <;> cases y <;>
    simp_all [Holds, next, Constraint.dropStep, and_comm, eq_comm]

theorem no_primaryKey {t : Table} (hs : ∀ y, s.Holds y → y ∈ t.constraints) {k : PrimaryKey}
    (hk : .primaryKey k ∈ t.constraints) (hn : ¬ s.Holds (.primaryKey k)) :
    s.primaryKey = none := by
  refine Option.eq_none_iff_forall_ne_some.mpr fun k' hk' => hn ?_
  have h₁ := Table.primaryKey_mem_constraints.mp (hs (.primaryKey k') hk')
  have h₂ := Table.primaryKey_mem_constraints.mp hk
  exact h₂ ▸ h₁ ▸ hk'

theorem step_add {t : Table} (ht : t.Valid) (hs : ∀ y, s.Holds y → y ∈ t.constraints)
    {x : Constraint} (table : String) (hx : x ∈ t.constraints) (hn : ¬ s.Holds x)
    (hc : s.Has x.columns) : s.step (x.addStep table) = some (s.next (x.addStep table)) := by
  have hfree := name_free ht hs hx hn
  have hen : s.Enabled (x.addStep table) := by
    cases x with
    | primaryKey k => exact ⟨no_primaryKey hs hx hn, hfree, hc⟩
    | unique u => exact ⟨hn, hfree, hc⟩
    | index i => exact ⟨hn, hfree, hc⟩
    | foreignKey f => exact ⟨hn, hfree, hc⟩
  simp [step, hen]

theorem holds_add {t : Table} (hs : ∀ y, s.Holds y → y ∈ t.constraints) {x y : Constraint}
    (table : String) (hx : x ∈ t.constraints) (hn : ¬ s.Holds x) :
    (s.next (x.addStep table)).Holds y ↔ s.Holds y ∨ y = x := by
  cases x with
  | primaryKey k =>
    have hnone := no_primaryKey hs hx hn
    cases y <;> simp [Holds, next, Constraint.addStep, hnone, eq_comm]
  | unique u => cases y <;> simp [Holds, next, Constraint.addStep, or_comm]
  | index i => cases y <;> simp [Holds, next, Constraint.addStep, or_comm]
  | foreignKey f => cases y <;> simp [Holds, next, Constraint.addStep, or_comm]

end TableState

namespace Table

variable {t : Table}

theorem state_holds {x : Constraint} : t.state.Holds x ↔ x ∈ t.constraints := by
  cases x <;> simp [TableState.Holds, state, created, eq_comm]

theorem created_holds {x : Constraint} :
    t.created.Holds x ↔ x ∈ t.constraints ∧ ∀ f, x ≠ .foreignKey f := by
  cases x <;> simp [TableState.Holds, created, eq_comm]

theorem columnShape_isSome {name : String} :
    (t.columnShape? name).isSome = true ↔ name ∈ t.columnNames := by
  simp [columnShape?, findColumn?, columnNames]

/-- A state with the columns of a valid table has the columns of all its constraints. -/
theorem Valid.has_columns (h : t.Valid) {s : TableState} (hs : s.columns = t.columnShape?)
    {x : Constraint} (hx : x ∈ t.constraints) : s.Has x.columns := by
  intro c hc
  rw [hs]
  exact columnShape_isSome.mpr (h.columns_of_constraint hx c hc)

end Table

end Schemata
