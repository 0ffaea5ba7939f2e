import Schemata.Plan.Diff
import Schemata.Proofs.Built
import Mathlib.Data.Finset.Image
import Mathlib.Data.Finset.Option
import Mathlib.Data.List.Basic
import Mathlib.Logic.Function.Basic

/-! What a database holds, and what each step of a plan does to it. Tables and columns are looked
up by name, so that neither their order nor that of the constraints matters. -/
namespace Schemata

/-- What a catalog keeps of a column. -/
structure ColumnShape where
  dataType : DataType
  nullable : Bool
  default : Option DefaultValue
  deriving DecidableEq, Repr

def Column.shape (c : Column) : ColumnShape :=
  ⟨c.dataType, c.nullable, c.default⟩

structure TableState where
  columns : String → Option ColumnShape
  primaryKey : Option PrimaryKey
  uniques : Finset UniqueConstraint
  indexes : Finset Index
  foreignKeys : Finset ForeignKey
  onDelete : List Dml

structure Catalog where
  tables : String → Option TableState
  views : Finset View

namespace Table

def columnShape? (t : Table) (name : String) : Option ColumnShape :=
  (t.findColumn? name).map Column.shape

/-- The table right after its creation: no foreign keys and no trigger yet. -/
def created (t : Table) : TableState where
  columns := t.columnShape?
  primaryKey := some t.primaryKey
  uniques := t.uniques.toFinset
  indexes := t.indexes.toFinset
  foreignKeys := ∅
  onDelete := []

def state (t : Table) : TableState :=
  { t.created with foreignKeys := t.foreignKeys.toFinset, onDelete := t.onDelete }

end Table

def Schema.catalog (s : Schema) : Catalog where
  tables name := (s.findTable? name).map Table.state
  views := s.views.toFinset

namespace TableState

/-- Names of all constraints and indexes on the table. -/
def names (s : TableState) : Finset String :=
  (s.primaryKey.map (·.name)).toFinset ∪ s.uniques.image (·.name) ∪ s.indexes.image (·.name) ∪
    s.foreignKeys.image (·.name)

def Has (s : TableState) (columns : List String) : Prop :=
  ∀ c ∈ columns, (s.columns c).isSome = true

instance (s : TableState) (columns : List String) : Decidable (s.Has columns) :=
  inferInstanceAs (Decidable (∀ c ∈ columns, _))

/-- What is dropped or altered has to be there as the step describes it; what is added has to be
new, under a free name. Every column that the step names belongs to the table. -/
def Enabled (s : TableState) : Step → Prop
  | .dropTrigger t => t.onDelete ≠ [] ∧ s.onDelete = t.onDelete
  | .dropForeignKey _ f => f ∈ s.foreignKeys ∧ s.Has [f.column]
  | .dropUnique _ u => u ∈ s.uniques ∧ s.Has u.columns
  | .dropIndex _ i => i ∈ s.indexes ∧ s.Has i.columns
  | .dropPrimaryKey _ k => s.primaryKey = some k ∧ s.Has k.columns
  | .alterColumn _ before after _ =>
    after.name = before.name ∧ s.columns before.name = some before.shape
  | .addColumn _ c => s.columns c.name = none
  | .dropColumn _ c => s.columns c.name = some c.shape
  | .addPrimaryKey _ k => s.primaryKey = none ∧ k.name ∉ s.names ∧ s.Has k.columns
  | .addUnique _ u => u ∉ s.uniques ∧ u.name ∉ s.names ∧ s.Has u.columns
  | .addIndex _ i => i ∉ s.indexes ∧ i.name ∉ s.names ∧ s.Has i.columns
  | .addForeignKey _ f => f ∉ s.foreignKeys ∧ f.name ∉ s.names ∧ s.Has [f.column]
  | .createTrigger t => t.onDelete ≠ [] ∧ s.onDelete = []
  | .dropTable _ | .createTable _ | .dropView _ | .createView _ => False

instance (s : TableState) (step : Step) : Decidable (s.Enabled step) := by
  cases step <;> simp only [Enabled] <;> infer_instance

def next (s : TableState) : Step → TableState
  | .dropTrigger _ => { s with onDelete := [] }
  | .dropForeignKey _ f => { s with foreignKeys := s.foreignKeys.erase f }
  | .dropUnique _ u => { s with uniques := s.uniques.erase u }
  | .dropIndex _ i => { s with indexes := s.indexes.erase i }
  | .dropPrimaryKey _ _ => { s with primaryKey := none }
  | .alterColumn _ _ after _ =>
    { s with columns := Function.update s.columns after.name (some after.shape) }
  | .addColumn _ c => { s with columns := Function.update s.columns c.name (some c.shape) }
  | .dropColumn _ c => { s with columns := Function.update s.columns c.name none }
  | .addPrimaryKey _ k => { s with primaryKey := some k }
  | .addUnique _ u => { s with uniques := insert u s.uniques }
  | .addIndex _ i => { s with indexes := insert i s.indexes }
  | .addForeignKey _ f => { s with foreignKeys := insert f s.foreignKeys }
  | .createTrigger t => { s with onDelete := t.onDelete }
  | .dropTable _ | .createTable _ | .dropView _ | .createView _ => s

def step (s : TableState) (e : Step) : Option TableState :=
  if s.Enabled e then some (s.next e) else none

def run (s : TableState) (steps : List Step) : Option TableState :=
  steps.foldlM step s

theorem run_append (s : TableState) (as bs : List Step) :
    s.run (as ++ bs) = (s.run as).bind fun s' => s'.run bs :=
  List.foldlM_append ..

/-- Runs one kind of step over a list; `st done` is the table when the steps for `done` have run. -/
theorem run_map {α : Type} (f : α → Step) (st : List α → TableState) {xs : List α}
    (h : ∀ done x rest, xs = done ++ x :: rest → (st done).step (f x) = some (st (done ++ [x]))) :
    (st []).run (xs.map f) = some (st xs) := by
  suffices hrun : ∀ rest done, xs = done ++ rest → (st done).run (rest.map f) = some (st xs) from
    hrun xs [] rfl
  intro rest
  induction rest with
  | nil =>
    intro done hx
    rw [hx, List.append_nil]
    rfl
  | cons x rest ih =>
    intro done hx
    rw [List.map_cons, run, List.foldlM_cons, h done x rest hx]
    exact ih (done ++ [x]) (by rw [hx, List.append_assoc, List.singleton_append])

end TableState

/-- What the catalog has under one table's name. -/
abbrev Slot := Option TableState

namespace Slot

/-- A table that is created brings columns for all its keys and indexes, under names that differ. -/
def Enabled : Slot → Step → Prop
  | none, .createTable t =>
    (t.primaryKey.name :: (t.uniques.map (·.name) ++ t.indexes.map (·.name))).Nodup ∧
      t.created.Has t.primaryKey.columns ∧ (∀ u ∈ t.uniques, t.created.Has u.columns) ∧
      ∀ i ∈ t.indexes, t.created.Has i.columns
  | some _, .dropTable _ => True
  | some s, e => s.Enabled e
  | none, _ => False

instance (slot : Slot) (e : Step) : Decidable (Slot.Enabled slot e) := by
  cases slot <;> cases e <;> simp only [Enabled] <;> infer_instance

def next : Slot → Step → Slot
  | _, .createTable t => some t.created
  | _, .dropTable _ => none
  | slot, e => slot.map (·.next e)

def step (slot : Slot) (e : Step) : Option Slot :=
  if Slot.Enabled slot e then some (Slot.next slot e) else none

def run (slot : Slot) (steps : List Step) : Option Slot :=
  steps.foldlM step slot

theorem run_append (slot : Slot) (as bs : List Step) :
    Slot.run slot (as ++ bs) = (Slot.run slot as).bind fun slot' => Slot.run slot' bs :=
  List.foldlM_append ..

/-- As long as the table is not dropped, its slot follows the state of the table. -/
theorem run_some {s s' : TableState} {steps : List Step} (h : s.run steps = some s')
    (hd : ∀ e ∈ steps, ∀ t, e ≠ .dropTable t) : Slot.run (some s) steps = some (some s') := by
  induction steps generalizing s with
  | nil =>
    have hs : s = s' := Option.some.inj h
    rw [hs]
    rfl
  | cons e steps ih =>
    rw [TableState.run, List.foldlM_cons] at h
    obtain ⟨s₁, h₁, h⟩ := Option.bind_eq_some_iff.mp h
    have hstep : Slot.step (some s) e = some (some s₁) := by
      have he := hd e List.mem_cons_self
      unfold TableState.step at h₁
      split at h₁
      · rename_i hen
        cases h₁
        cases e <;> simp_all [Slot.step, Slot.Enabled, Slot.next, TableState.Enabled]
      · cases h₁
    rw [Slot.run, List.foldlM_cons, hstep]
    exact ih h fun e' he' => hd e' (List.mem_cons_of_mem e he')

end Slot

namespace Catalog

/-- Views are told apart by name: none is created beside another of its name. -/
def ViewEnabled (views : Finset View) : Step → Prop
  | .dropView v => v ∈ views
  | .createView v => v.name ∉ views.image (·.name)
  | _ => False

instance (views : Finset View) (e : Step) : Decidable (ViewEnabled views e) := by
  cases e <;> simp only [ViewEnabled] <;> infer_instance

def nextViews (views : Finset View) : Step → Finset View
  | .dropView v => views.erase v
  | .createView v => insert v views
  | _ => views

def stepViews (views : Finset View) (e : Step) : Option (Finset View) :=
  if ViewEnabled views e then some (nextViews views e) else none

def runViews (views : Finset View) (steps : List Step) : Option (Finset View) :=
  steps.foldlM stepViews views

/-- The catalog after a step, or `none` if the step is stuck. -/
def step (c : Catalog) (e : Step) : Option Catalog :=
  match e.table? with
  | some name =>
    (Slot.step (c.tables name) e).map fun slot =>
      { c with tables := Function.update c.tables name slot }
  | none => (stepViews c.views e).map fun views => { c with views }

def run (c : Catalog) (steps : List Step) : Option Catalog :=
  steps.foldlM step c

/-- Each step looks at one table or at the views alone, so a plan runs through if it does so on
every table and on the views, taken apart. -/
theorem run_of_slots {c c' : Catalog} {steps : List Step}
    (ht : ∀ name, Slot.run (c.tables name) (steps.filter (·.table? = some name)) =
      some (c'.tables name))
    (hv : runViews c.views (steps.filter (·.table? = none)) = some c'.views) :
    c.run steps = some c' := by
  induction steps generalizing c with
  | nil =>
    obtain ⟨tables, views⟩ := c
    obtain ⟨tables', views'⟩ := c'
    have htables : tables = tables' := funext fun name => Option.some.inj (ht name)
    have hviews : views = views' := Option.some.inj hv
    rw [htables, hviews]
    rfl
  | cons e steps ih =>
    rw [run, List.foldlM_cons]
    cases he : e.table? with
    | none =>
      simp only [he, List.filter_cons, reduceCtorEq, decide_false, Bool.false_eq_true, if_false]
        at ht
      simp only [he, List.filter_cons, decide_true, if_true, runViews, List.foldlM_cons] at hv
      obtain ⟨views, hs, hv⟩ := Option.bind_eq_some_iff.mp hv
      have hstep : c.step e = some { c with views } := by simp [step, he, hs]
      rw [hstep]
      exact ih ht hv
    | some name =>
      have hn := ht name
      simp only [he, List.filter_cons, decide_true, if_true, Slot.run, List.foldlM_cons] at hn
      obtain ⟨slot, hs, hn⟩ := Option.bind_eq_some_iff.mp hn
      have hstep : c.step e = some { c with tables := Function.update c.tables name slot } := by
        simp [step, he, hs]
      rw [hstep]
      simp only [he, List.filter_cons, reduceCtorEq, decide_false, Bool.false_eq_true, if_false]
        at hv
      refine ih (fun m => ?_) hv
      by_cases hm : m = name
      · subst m
        change Slot.run (Function.update c.tables name slot name) _ = _
        rw [Function.update_self]
        exact hn
      · have hne : some name ≠ some m := fun h => hm (Option.some.inj h).symm
        have := ht m
        simp only [he, List.filter_cons, hne, decide_false, Bool.false_eq_true, if_false] at this
        simpa [Function.update_of_ne hm] using this

end Catalog

end Schemata
