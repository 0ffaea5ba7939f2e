import Schemata.Plan

/-!
The plan that turns one schema into another. What stands in the way of a change is dropped first
and created again last; within each phase the order of declaration is kept.
-/

namespace Schemata

/-- A table that is in both schemas. -/
structure TablePair where
  old : Table
  new : Table
  deriving DecidableEq, Repr

/-- A column that is in both versions of its table and differs. -/
structure AlteredColumn where
  before : Column
  after : Column
  change : ColumnChange
  deriving DecidableEq, Repr

namespace TablePair

/-- The change of a column; with `defaults` a structural change also sets its default again. -/
def changeOf (defaults : Bool) (before after : Column) : ColumnChange :=
  let change := ColumnChange.between before after
  if defaults && change.isStructural && after.default.isSome then { change with default := true }
  else change

/-- The columns that change, in the order of the new table. -/
def altered (p : TablePair) (defaults : Bool) : List AlteredColumn :=
  p.new.columns.filterMap fun after =>
    match p.old.findColumn? after.name with
    | none => none
    | some before =>
      let change := changeOf defaults before after
      if change.isEmpty then none else some ⟨before, after, change⟩

def added (p : TablePair) : List Column :=
  p.new.columns.filter fun c => (p.old.findColumn? c.name).isNone

def dropped (p : TablePair) : List Column :=
  p.old.columns.filter fun c => (p.new.findColumn? c.name).isNone

/-- Whether the column's type or nullability changes. -/
def isRestructured (p : TablePair) (column : String) : Bool :=
  (p.altered false).any fun a => a.change.isStructural && a.after.name == column

def touches (p : TablePair) (columns : List String) : Bool :=
  columns.any p.isRestructured

/-- Whether views that read the table have to be created again. -/
def changesColumns (p : TablePair) : Bool :=
  !(p.altered false).isEmpty || !p.dropped.isEmpty

/-- Whether the primary key is dropped, and added in its new form. -/
def replacesPrimaryKey (p : TablePair) (r : RecreateOptions) : Bool :=
  p.old.primaryKey != p.new.primaryKey || (r.primaryKeys && p.touches p.old.primaryKey.columns)

/-- Whether a unique constraint of one version is dropped or added, given those of the other. -/
def replacesUnique (p : TablePair) (r : RecreateOptions) (others : List UniqueConstraint)
    (u : UniqueConstraint) : Bool :=
  (others.find? fun o => o.name == u.name) != some u || (r.uniques && p.touches u.columns)

def droppedUniques (p : TablePair) (r : RecreateOptions) : List UniqueConstraint :=
  p.old.uniques.filter (p.replacesUnique r p.new.uniques)

def addedUniques (p : TablePair) (r : RecreateOptions) : List UniqueConstraint :=
  p.new.uniques.filter (p.replacesUnique r p.old.uniques)

/-- Whether an index of one version is dropped or added, given those of the other. -/
def replacesIndex (p : TablePair) (r : RecreateOptions) (others : List Index) (i : Index) :
    Bool :=
  (others.find? fun o => o.name == i.name) != some i || (r.indexes && p.touches i.columns)

def droppedIndexes (p : TablePair) (r : RecreateOptions) : List Index :=
  p.old.indexes.filter (p.replacesIndex r p.new.indexes)

def addedIndexes (p : TablePair) (r : RecreateOptions) : List Index :=
  p.new.indexes.filter (p.replacesIndex r p.old.indexes)

/-- Whether a key that is dropped holds the column. -/
def losesKey (p : TablePair) (r : RecreateOptions) (column : String) : Bool :=
  (p.replacesPrimaryKey r && p.old.primaryKey.columns.contains column) ||
    (p.droppedUniques r).any fun u => u.columns.contains column

end TablePair

/-- Two schemas to be compared, and what has to be created again around a column change. -/
structure Comparison where
  old : Schema
  new : Schema
  recreate : RecreateOptions

namespace Comparison

/-- The tables that are in both schemas, in the order of the new one. -/
def surviving (c : Comparison) : List TablePair :=
  c.new.tables.filterMap fun t => (c.old.findTable? t.name).map fun o => ⟨o, t⟩

def droppedTables (c : Comparison) : List Table :=
  c.old.tables.filter fun t => (c.new.findTable? t.name).isNone

def createdTables (c : Comparison) : List Table :=
  c.new.tables.filter fun t => (c.old.findTable? t.name).isNone

/-- Whether the plan drops a primary key or unique constraint that holds the column. -/
def isUnkeyed (c : Comparison) (table column : String) : Bool :=
  c.surviving.any fun p => p.old.name == table && p.losesKey c.recreate column

/-- Whether a foreign key is dropped and added although it stays the same: its target loses a key,
or one of its two columns is restructured. -/
def mustRebuild (c : Comparison) (p : TablePair) (f : ForeignKey) : Bool :=
  c.isUnkeyed f.reference.table f.reference.column ||
    (c.recreate.foreignKeys &&
      (p.isRestructured f.column ||
        ((c.surviving.find? fun q => q.new.name == f.reference.table).any fun q =>
          q.isRestructured f.reference.column)))

/-- Whether views that read the table have to be dropped. -/
def isAffected (c : Comparison) (table : String) : Bool :=
  (c.droppedTables.any fun t => t.name == table) ||
    c.surviving.any fun p => p.changesColumns && p.old.name == table

/-- Whether an old view goes, given names of views that go. -/
def dropsView (c : Comparison) (gone : List String) (v : View) : Bool :=
  c.new.findView? v.name != some v ||
    v.referencedTables.any fun t => c.isAffected t || gone.contains t

/-- Adds the name of a view that goes. -/
def visit (c : Comparison) (gone : List String) (v : View) : List String :=
  if gone.contains v.name || !c.dropsView gone v then gone else v.name :: gone

/-- One sweep over the old views. A view that goes counts at once for those after it. -/
def sweep (c : Comparison) (gone : List String) : List String :=
  c.old.views.foldl c.visit gone

def stayingViews (c : Comparison) (gone : List String) : List View :=
  c.old.views.filter fun v => !gone.contains v.name

theorem visit_cases (c : Comparison) (gone : List String) (v : View) :
    (c.visit gone v = gone ∧ (c.dropsView gone v = true → v.name ∈ gone)) ∨
      (c.visit gone v = v.name :: gone ∧ c.dropsView gone v = true ∧ v.name ∉ gone) := by
  cases hgone : gone.contains v.name <;> cases hdrops : c.dropsView gone v <;>
    simp_all [visit]

theorem visits_retain (c : Comparison) (views : List View) (gone : List String) :
    gone.Sublist (views.foldl c.visit gone) := by
  induction views generalizing gone with
  | nil => exact List.Sublist.refl gone
  | cons v views ih =>
    refine List.Sublist.trans ?_ (ih (c.visit gone v))
    rcases c.visit_cases gone v with ⟨hvisit, -⟩ | ⟨hvisit, -⟩
    · exact hvisit.symm ▸ List.Sublist.refl gone
    · rw [hvisit]
      exact List.sublist_cons_self _ _

theorem visits_find (c : Comparison) (views : List View) (gone : List String)
    (h : (views.foldl c.visit gone).length ≠ gone.length) :
    ∃ v ∈ views, v.name ∈ views.foldl c.visit gone ∧ v.name ∉ gone := by
  induction views generalizing gone with
  | nil => exact absurd rfl h
  | cons v views ih =>
    rw [List.foldl_cons] at h ⊢
    rcases c.visit_cases gone v with ⟨hvisit, -⟩ | ⟨hvisit, -, hnot⟩
    · rw [hvisit] at h ⊢
      obtain ⟨w, hw, hfound⟩ := ih gone h
      exact ⟨w, List.mem_cons_of_mem v hw, hfound⟩
    · rw [hvisit]
      exact ⟨v, List.mem_cons_self,
        (c.visits_retain views (v.name :: gone)).subset List.mem_cons_self, hnot⟩

/-- A sweep that finds something leaves fewer views. -/
theorem stayingViews_sweep (c : Comparison) (gone : List String)
    (h : (c.sweep gone).length ≠ gone.length) :
    (c.stayingViews (c.sweep gone)).length < (c.stayingViews gone).length := by
  have hsub : gone ⊆ c.sweep gone := (c.visits_retain c.old.views gone).subset
  obtain ⟨v, hv, hfound, hnot⟩ := c.visits_find c.old.views gone h
  have hstay : c.stayingViews (c.sweep gone) =
      (c.stayingViews gone).filter fun v => !(c.sweep gone).contains v.name := by
    rw [stayingViews, stayingViews, List.filter_filter]
    refine List.filter_congr fun w _ => ?_
    by_cases hw : w.name ∈ c.sweep gone
    · simp [hw]
    · have hkept : w.name ∉ gone := fun hgone => hw (hsub hgone)
      simp [hw, hkept]
  rw [hstay, List.length_filter_lt_length_iff_exists]
  refine ⟨v, ?_, ?_⟩
  · simp [stayingViews, hv, hnot]
  · simpa [sweep] using hfound

/-- Names of the old views that go, from some that are known to. Sweeps are made until one finds
nothing more. -/
def goneViews (c : Comparison) (gone : List String) : List String :=
  let next := c.sweep gone
  if next.length = gone.length then gone else c.goneViews next
termination_by (c.stayingViews gone).length
decreasing_by exact c.stayingViews_sweep gone ‹_›

/-- The old views that go, in declaration order: those that differ, those that read what changes,
and those that read a view which goes. -/
def droppedViews (c : Comparison) : List View :=
  let gone := c.goneViews []
  c.old.views.filter fun v => gone.contains v.name

def dropViewSteps (c : Comparison) : List Step :=
  c.droppedViews.reverse.map .dropView

def dropTriggerSteps (c : Comparison) : List Step :=
  (c.surviving.filter fun p => p.old.hasTrigger && p.old.onDelete != p.new.onDelete).map
    fun p => .dropTrigger p.old

def dropForeignKeySteps (c : Comparison) : List Step :=
  (c.droppedTables.flatMap fun t => t.foreignKeys.map (.dropForeignKey t.name)) ++
    c.surviving.flatMap fun p =>
      (p.old.foreignKeys.filter fun f =>
        !p.new.foreignKeys.contains f || c.mustRebuild p f).map (.dropForeignKey p.old.name)

def dropKeySteps (c : Comparison) : List Step :=
  c.surviving.flatMap fun p =>
    (p.droppedUniques c.recreate).map (.dropUnique p.old.name) ++
      (p.droppedIndexes c.recreate).map (.dropIndex p.old.name) ++
      if p.replacesPrimaryKey c.recreate then [.dropPrimaryKey p.old.name p.old.primaryKey] else []

def dropTableSteps (c : Comparison) : List Step :=
  c.droppedTables.map .dropTable

def createTableSteps (c : Comparison) : List Step :=
  c.createdTables.map .createTable

def changeColumnSteps (c : Comparison) : List Step :=
  c.surviving.flatMap fun p =>
    (p.altered c.recreate.defaults).map
        (fun a => .alterColumn p.new.name a.before a.after a.change) ++
      p.added.map (.addColumn p.new.name) ++ p.dropped.map (.dropColumn p.new.name)

def addKeySteps (c : Comparison) : List Step :=
  c.surviving.flatMap fun p =>
    (if p.replacesPrimaryKey c.recreate then
        [.addPrimaryKey p.new.name p.new.primaryKey]
      else []) ++
      (p.addedUniques c.recreate).map (.addUnique p.new.name) ++
      (p.addedIndexes c.recreate).map (.addIndex p.new.name)

/-- The foreign keys of a new table that the plan adds. -/
def addedForeignKeys (c : Comparison) (t : Table) : List ForeignKey :=
  match c.old.findTable? t.name with
  | none => t.foreignKeys
  | some old =>
    t.foreignKeys.filter fun f => !old.foreignKeys.contains f || c.mustRebuild ⟨old, t⟩ f

def addForeignKeySteps (c : Comparison) : List Step :=
  c.new.tables.flatMap fun t => (c.addedForeignKeys t).map (.addForeignKey t.name)

def createTriggerSteps (c : Comparison) : List Step :=
  (c.new.tables.filter fun t => t.hasTrigger &&
    ((c.old.findTable? t.name).map (·.onDelete)) != some t.onDelete).map .createTrigger

def createViewSteps (c : Comparison) : List Step :=
  let dropped := c.droppedViews
  (c.new.views.filter fun v => (c.old.findView? v.name).isNone ||
    dropped.any fun d => d.name == v.name).map .createView

/-- The plan, phase after phase. -/
def plan (c : Comparison) : Plan :=
  c.dropViewSteps ++ c.dropTriggerSteps ++ c.dropForeignKeySteps ++ c.dropKeySteps ++
    c.dropTableSteps ++ c.createTableSteps ++ c.changeColumnSteps ++ c.addKeySteps ++
    c.addForeignKeySteps ++ c.createTriggerSteps ++ c.createViewSteps

end Comparison

/-- The plan that turns one schema into another. -/
def diff (old new : Schema) (recreate : RecreateOptions) : Plan :=
  (Comparison.mk old new recreate).plan

end Schemata
