import Schemata.Proofs.Constraint
import Schemata.Proofs.DroppedViews

/-! A plan turns the catalog of the old schema into that of the new one, and no step of it is
stuck. -/
namespace Schemata

namespace TableState

variable {s : TableState} {t : Table}

/-- Dropping constraints that the table holds leaves the others, the columns and the trigger. -/
theorem run_drops (table : String) {xs : List Constraint} (hn : xs.Nodup)
    (h : ∀ x ∈ xs, s.Holds x ∧ s.Has x.columns) :
    ∃ s', s.run (xs.map (·.dropStep table)) = some s' ∧ s'.columns = s.columns ∧
      s'.onDelete = s.onDelete ∧ ∀ y, s'.Holds y ↔ s.Holds y ∧ y ∉ xs := by
  induction xs generalizing s with
  | nil => exact ⟨s, rfl, rfl, rfl, by simp⟩
  | cons x xs ih =>
    obtain ⟨hx, hc⟩ := h x List.mem_cons_self
    rw [List.nodup_cons] at hn
    have hcolumns : (s.next (x.dropStep table)).columns = s.columns := by cases x <;> rfl
    have hactions : (s.next (x.dropStep table)).onDelete = s.onDelete := by cases x <;> rfl
    have hrest : ∀ y ∈ xs, (s.next (x.dropStep table)).Holds y ∧
        (s.next (x.dropStep table)).Has y.columns := by
      intro y hy
      obtain ⟨hys, hyc⟩ := h y (List.mem_cons_of_mem x hy)
      have hne : y ≠ x := fun he => hn.1 (he ▸ hy)
      refine ⟨(holds_drop table hx).mpr ⟨hys, hne⟩, ?_⟩
      unfold Has
      rw [hcolumns]
      exact hyc
    obtain ⟨s', hrun, hc', hd', hh⟩ := ih hn.2 hrest
    refine ⟨s', ?_, hc'.trans hcolumns, hd'.trans hactions, fun y => ?_⟩
    · rw [List.map_cons, run, List.foldlM_cons, step_drop table hx hc]
      exact hrun
    · rw [hh y, holds_drop table hx, List.mem_cons, not_or, and_assoc]

/-- Adding constraints of a valid table to some of its others. -/
theorem run_adds (table : String) (ht : t.Valid) {xs : List Constraint} (hn : xs.Nodup)
    (hs : ∀ y, s.Holds y → y ∈ t.constraints)
    (h : ∀ x ∈ xs, x ∈ t.constraints ∧ ¬ s.Holds x ∧ s.Has x.columns) :
    ∃ s', s.run (xs.map (·.addStep table)) = some s' ∧ s'.columns = s.columns ∧
      s'.onDelete = s.onDelete ∧ ∀ y, s'.Holds y ↔ s.Holds y ∨ y ∈ xs := by
  induction xs generalizing s with
  | nil => exact ⟨s, rfl, rfl, rfl, by simp⟩
  | cons x xs ih =>
    obtain ⟨hx, hnot, hc⟩ := h x List.mem_cons_self
    rw [List.nodup_cons] at hn
    have hcolumns : (s.next (x.addStep table)).columns = s.columns := by cases x <;> rfl
    have hactions : (s.next (x.addStep table)).onDelete = s.onDelete := by cases x <;> rfl
    have hs' : ∀ y, (s.next (x.addStep table)).Holds y → y ∈ t.constraints := by
      intro y hy
      rcases (holds_add hs table hx hnot).mp hy with hy | rfl
      · exact hs y hy
      · exact hx
    have hrest : ∀ y ∈ xs, y ∈ t.constraints ∧ ¬ (s.next (x.addStep table)).Holds y ∧
        (s.next (x.addStep table)).Has y.columns := by
      intro y hy
      obtain ⟨hyt, hys, hyc⟩ := h y (List.mem_cons_of_mem x hy)
      refine ⟨hyt, fun hh => ?_, ?_⟩
      · rcases (holds_add hs table hx hnot).mp hh with hh | rfl
        · exact hys hh
        · exact hn.1 hy
      · unfold Has
        rw [hcolumns]
        exact hyc
    obtain ⟨s', hrun, hc', hd', hh⟩ := ih hn.2 hs' hrest
    refine ⟨s', ?_, hc'.trans hcolumns, hd'.trans hactions, fun y => ?_⟩
    · rw [List.map_cons, run, List.foldlM_cons, step_add ht hs table hx hnot hc]
      exact hrun
    · rw [hh y, holds_add hs table hx hnot, List.mem_cons, or_assoc]

/-- The state in which the named columns are already those of `t`. -/
def overlay (s : TableState) (t : Table) (names : List String) : TableState :=
  { s with columns := fun n => if n ∈ names then t.columnShape? n else s.columns n }

theorem update_overlay {names : List String} {name : String} {shape : Option ColumnShape}
    (h : t.columnShape? name = shape) :
    { s.overlay t names with
      columns := Function.update (s.overlay t names).columns name shape } =
      s.overlay t (names ++ [name]) := by
  have hcolumns : Function.update (s.overlay t names).columns name shape =
      (s.overlay t (names ++ [name])).columns := by
    funext n
    by_cases hn : n = name
    · subst n
      simp [overlay, h]
    · simp [overlay, hn]
  rw [hcolumns]
  rfl

/-- Column steps with distinct columns, each of which brings its column to the form in `t`. -/
theorem run_overlay {α : Type} (f : α → Step) (key : α → String) {xs : List α}
    {names : List String} (hn : (xs.map key).Nodup) (hd : ∀ x ∈ xs, key x ∉ names)
    (h : ∀ x ∈ xs, ∀ done, key x ∉ done →
      (s.overlay t done).step (f x) = some (s.overlay t (done ++ [key x]))) :
    (s.overlay t names).run (xs.map f) = some (s.overlay t (names ++ xs.map key)) := by
  have hrun : (s.overlay t (names ++ [].map key)).run (xs.map f) =
      some (s.overlay t (names ++ xs.map key)) := by
    refine run_map f (fun done => s.overlay t (names ++ done.map key)) ?_
    rintro done x rest rfl
    have hx : x ∈ done ++ x :: rest := by simp
    have hnot : key x ∉ names ++ done.map key := by
      rw [List.mem_append, not_or]
      refine ⟨hd x hx, fun hmem => ?_⟩
      rw [List.map_append, List.map_cons, List.nodup_append] at hn
      exact hn.2.2 _ hmem _ List.mem_cons_self rfl
    rw [h x hx _ hnot, List.map_append, List.map_singleton, List.append_assoc]
  simpa using hrun

end TableState

namespace TablePair

variable {p : TablePair} {r : RecreateOptions}

theorem mem_altered {d : Bool} {a : AlteredColumn} :
    a ∈ p.altered d ↔ a.after ∈ p.new.columns ∧ p.old.findColumn? a.after.name = some a.before ∧
      a.change = changeOf d a.before a.after ∧ a.change.isEmpty = false := by
  simp only [altered, List.mem_filterMap]
  constructor
  · rintro ⟨after, hafter, h⟩
    cases hf : p.old.findColumn? after.name with
    | none => simp [hf] at h
    | some before =>
      simp only [hf] at h
      split at h
      · cases h
      · rename_i hempty
        cases h
        exact ⟨hafter, hf, rfl, by simpa using hempty⟩
  · rintro ⟨hafter, hf, hchange, hempty⟩
    refine ⟨a.after, hafter, ?_⟩
    simp only [hf, ← hchange, hempty]
    rfl

theorem changeOf_isEmpty (d : Bool) (before after : Column) :
    (changeOf d before after).isEmpty = (ColumnChange.between before after).isEmpty := by
  unfold changeOf
  dsimp only
  split
  · rename_i h
    simp only [Bool.and_eq_true, ColumnChange.isStructural] at h
    simp [ColumnChange.isEmpty, h.1.2]
  · rfl

/-- A column changes unless it keeps its shape. -/
theorem changeOf_isEmpty_iff {d : Bool} {before after : Column} :
    (changeOf d before after).isEmpty = true ↔ before.shape = after.shape := by
  rw [changeOf_isEmpty]
  simp [ColumnChange.isEmpty, ColumnChange.between, Column.shape, and_assoc]

theorem altered_after {d : Bool} {c : Column} {a : AlteredColumn}
    (h : (match p.old.findColumn? c.name with
      | none => none
      | some before =>
        let change := changeOf d before c
        if change.isEmpty then none else some ⟨before, c, change⟩) = some a) : a.after = c := by
  split at h
  · cases h
  · dsimp only at h
    split at h
    · cases h
    · cases h
      rfl

theorem altered_nodup (hn : p.new.Valid) (d : Bool) :
    ((p.altered d).map (·.after.name)).Nodup := by
  refine List.pairwise_map.mpr (List.Pairwise.filterMap _ (fun a a' hne b hb b' hb' => ?_)
    (List.pairwise_map.mp hn.columns_nodup))
  rw [altered_after hb, altered_after hb']
  exact hne

end TablePair

namespace Comparison

variable {p : TablePair}

theorem columnShape_of_mem {t : Table} (h : t.Valid) {c : Column} (hc : c ∈ t.columns) :
    t.columnShape? c.name = some c.shape := by
  rw [Table.columnShape?, h.findColumn_iff.mpr ⟨hc, rfl⟩, Option.map_some]

section Columns

variable (ho : p.old.Valid) (hn : p.new.Valid) {s : TableState}
  (hs : s.columns = p.old.columnShape?) {done : List String}
include hs

include ho hn in
theorem step_alterColumn {d : Bool} {a : AlteredColumn} (ha : a ∈ p.altered d)
    (hd : a.after.name ∉ done) :
    (s.overlay p.new done).step (.alterColumn p.new.name a.before a.after a.change) =
      some (s.overlay p.new (done ++ [a.after.name])) := by
  obtain ⟨hafter, hbefore, -, -⟩ := TablePair.mem_altered.mp ha
  obtain ⟨hmem, hname⟩ := ho.findColumn_iff.mp hbefore
  have hen : (s.overlay p.new done).Enabled
      (.alterColumn p.new.name a.before a.after a.change) := by
    refine ⟨hname.symm, ?_⟩
    simp [TableState.overlay, hname, hd, hs, Table.columnShape?, hbefore]
  rw [TableState.step, if_pos hen]
  exact congrArg some (TableState.update_overlay (columnShape_of_mem hn hafter))

include hn in
theorem step_addColumn {a : Column} (ha : a ∈ p.added) (hd : a.name ∉ done) :
    (s.overlay p.new done).step (.addColumn p.new.name a) =
      some (s.overlay p.new (done ++ [a.name])) := by
  obtain ⟨hmem, hnone⟩ := List.mem_filter.mp ha
  rw [Option.isNone_iff_eq_none] at hnone
  have hen : (s.overlay p.new done).Enabled (.addColumn p.new.name a) := by
    simp [TableState.Enabled, TableState.overlay, hd, hs, Table.columnShape?, hnone]
  rw [TableState.step, if_pos hen]
  exact congrArg some (TableState.update_overlay (columnShape_of_mem hn hmem))

include ho in
theorem step_dropColumn {a : Column} (ha : a ∈ p.dropped) (hd : a.name ∉ done) :
    (s.overlay p.new done).step (.dropColumn p.new.name a) =
      some (s.overlay p.new (done ++ [a.name])) := by
  obtain ⟨hmem, hnone⟩ := List.mem_filter.mp ha
  rw [Option.isNone_iff_eq_none] at hnone
  have hen : (s.overlay p.new done).Enabled (.dropColumn p.new.name a) := by
    simp [TableState.Enabled, TableState.overlay, hd, hs, columnShape_of_mem ho hmem]
  rw [TableState.step, if_pos hen]
  exact congrArg some (TableState.update_overlay (by simp [Table.columnShape?, hnone]))

omit hs in
include ho hn in
theorem columnShape_of_untouched (d : Bool) {n : String}
    (ha : n ∉ (p.altered d).map (·.after.name)) (hb : n ∉ p.added.map (·.name))
    (hc : n ∉ p.dropped.map (·.name)) : p.old.columnShape? n = p.new.columnShape? n := by
  unfold Table.columnShape?
  cases hnew : p.new.findColumn? n with
  | none =>
    cases hold : p.old.findColumn? n with
    | none => rfl
    | some before =>
      obtain ⟨hmem, rfl⟩ := ho.findColumn_iff.mp hold
      exact absurd (List.mem_map_of_mem (List.mem_filter.mpr ⟨hmem, by rw [hnew]; rfl⟩)) hc
  | some after =>
    obtain ⟨hmem, rfl⟩ := hn.findColumn_iff.mp hnew
    cases hold : p.old.findColumn? after.name with
    | none => exact absurd (List.mem_map_of_mem (List.mem_filter.mpr ⟨hmem, by rw [hold]; rfl⟩)) hb
    | some before =>
      by_cases hempty : (TablePair.changeOf d before after).isEmpty = true
      · exact congrArg some (TablePair.changeOf_isEmpty_iff.mp hempty)
      · have haltered : ⟨before, after, TablePair.changeOf d before after⟩ ∈ p.altered d :=
          TablePair.mem_altered.mpr ⟨hmem, hold, rfl, by simpa using hempty⟩
        exact absurd (List.mem_map_of_mem (f := (·.after.name)) haltered) ha

include ho hn in
/-- The column steps bring the columns of a table from the old form to the new one. -/
theorem run_columnSteps (c : Comparison) :
    s.run (c.columnSteps p) = some { s with columns := p.new.columnShape? } := by
  let altered := (p.altered c.recreate.defaults).map (·.after.name)
  let added := p.added.map (·.name)
  let dropped := p.dropped.map (·.name)
  have hstart : s = s.overlay p.new [] := by simp [TableState.overlay]
  have hold : ∀ n ∈ altered, (p.old.findColumn? n).isSome = true := by
    intro n h
    obtain ⟨a, ha, rfl⟩ := List.mem_map.mp h
    rw [(TablePair.mem_altered.mp ha).2.1]
    rfl
  have hnew : ∀ n ∈ altered ++ added, (p.new.findColumn? n).isSome = true := by
    intro n h
    rcases List.mem_append.mp h with h | h
    · obtain ⟨a, ha, rfl⟩ := List.mem_map.mp h
      rw [hn.findColumn_iff.mpr ⟨(TablePair.mem_altered.mp ha).1, rfl⟩]
      rfl
    · obtain ⟨a, ha, rfl⟩ := List.mem_map.mp h
      rw [hn.findColumn_iff.mpr ⟨(List.mem_filter.mp ha).1, rfl⟩]
      rfl
  have h₁ : (s.overlay p.new []).run ((p.altered c.recreate.defaults).map fun a =>
      .alterColumn p.new.name a.before a.after a.change) = some (s.overlay p.new altered) :=
    TableState.run_overlay _ (fun a : AlteredColumn => a.after.name)
      (TablePair.altered_nodup hn _) (fun _ _ h => nomatch h)
      fun a ha done hd => step_alterColumn ho hn hs ha hd
  have h₂ : (s.overlay p.new altered).run (p.added.map (.addColumn p.new.name)) =
      some (s.overlay p.new (altered ++ added)) := by
    refine TableState.run_overlay _ Column.name
      (hn.columns_nodup.sublist (List.filter_sublist.map _)) (fun a ha h => ?_)
      fun a ha done hd => step_addColumn hn hs ha hd
    have hnone := (List.mem_filter.mp ha).2
    rw [Option.isNone_iff_eq_none] at hnone
    simpa [hnone] using hold a.name h
  have h₃ : (s.overlay p.new (altered ++ added)).run (p.dropped.map (.dropColumn p.new.name)) =
      some (s.overlay p.new (altered ++ added ++ dropped)) := by
    refine TableState.run_overlay _ Column.name
      (ho.columns_nodup.sublist (List.filter_sublist.map _)) (fun a ha h => ?_)
      fun a ha done hd => step_dropColumn ho hs ha hd
    have hnone := (List.mem_filter.mp ha).2
    rw [Option.isNone_iff_eq_none] at hnone
    simpa [hnone] using hnew a.name h
  have hend : s.overlay p.new (altered ++ added ++ dropped) =
      { s with columns := p.new.columnShape? } := by
    have hcolumns : (s.overlay p.new (altered ++ added ++ dropped)).columns =
        p.new.columnShape? := by
      funext n
      by_cases hmem : n ∈ altered ++ added ++ dropped
      · exact if_pos hmem
      · rw [List.mem_append, List.mem_append, not_or, not_or] at hmem
        obtain ⟨⟨hna, hnb⟩, hnc⟩ := hmem
        refine (if_neg (by simp [hna, hnb, hnc])).trans ?_
        rw [hs]
        exact columnShape_of_untouched ho hn c.recreate.defaults hna hnb hnc
    simp only [TableState.overlay] at hcolumns ⊢
    rw [hcolumns]
  rw [hstart, columnSteps, TableState.run_append, TableState.run_append, h₁, Option.bind_some, h₂,
    Option.bind_some, h₃, hend]
  rfl

end Columns

def droppedConstraints (c : Comparison) (p : TablePair) : List Constraint :=
  (c.droppedForeignKeys p).map Constraint.foreignKey ++
    (p.droppedUniques c.recreate).map Constraint.unique ++
    (p.droppedIndexes c.recreate).map Constraint.index ++
    if p.replacesPrimaryKey c.recreate then [Constraint.primaryKey p.old.primaryKey] else []

def addedConstraints (c : Comparison) (p : TablePair) : List Constraint :=
  (if p.replacesPrimaryKey c.recreate then [Constraint.primaryKey p.new.primaryKey] else []) ++
    (p.addedUniques c.recreate).map Constraint.unique ++
    (p.addedIndexes c.recreate).map Constraint.index ++
    (c.addedForeignKeys p.new).map Constraint.foreignKey

theorem dropSteps_eq (c : Comparison) (p : TablePair) : c.dropSteps p =
    (if p.old.hasTrigger && p.old.onDelete != p.new.onDelete then [Step.dropTrigger p.old]
        else []) ++
      (c.droppedConstraints p).map (·.dropStep p.old.name) := by
  by_cases h : p.replacesPrimaryKey c.recreate = true <;>
    simp [dropSteps, droppedConstraints, h, Constraint.dropStep, Function.comp_def]

theorem addSteps_eq (c : Comparison) (p : TablePair) : c.addSteps p =
    (c.addedConstraints p).map (·.addStep p.new.name) ++
      if p.new.hasTrigger && some p.old.onDelete != some p.new.onDelete
      then [Step.createTrigger p.new] else [] := by
  by_cases h : p.replacesPrimaryKey c.recreate = true <;>
    simp [addSteps, addedConstraints, h, Constraint.addStep, Function.comp_def]

section Constraints

variable {c : Comparison} (hp : p ∈ c.surviving) (ho : p.old.Valid) (hn : p.new.Valid)

theorem find_bne_iff {α : Type} [DecidableEq α] {key : α → String} {l : List α}
    (h : (l.map key).Nodup) {a : α} :
    ((l.find? fun b => key b == key a) != some a) = true ↔ a ∉ l := by
  rw [bne_iff_ne, ne_eq, find_key_eq_some_iff h, and_iff_left rfl]

theorem replacesUnique_iff {others : List UniqueConstraint} {r : RecreateOptions}
    (h : (others.map (·.name)).Nodup) {u : UniqueConstraint} :
    p.replacesUnique r others u = true ↔
      u ∉ others ∨ r.uniques = true ∧ p.touches u.columns = true := by
  rw [TablePair.replacesUnique, Bool.or_eq_true, Bool.and_eq_true, find_bne_iff h]

theorem replacesIndex_iff {others : List Index} {r : RecreateOptions}
    (h : (others.map (·.name)).Nodup) {i : Index} :
    p.replacesIndex r others i = true ↔
      i ∉ others ∨ r.indexes = true ∧ p.touches i.columns = true := by
  rw [TablePair.replacesIndex, Bool.or_eq_true, Bool.and_eq_true, find_bne_iff h]

theorem replacesPrimaryKey_iff {r : RecreateOptions} : p.replacesPrimaryKey r = true ↔
    p.old.primaryKey ≠ p.new.primaryKey ∨
      r.primaryKeys = true ∧ p.touches p.old.primaryKey.columns = true := by
  rw [TablePair.replacesPrimaryKey, Bool.or_eq_true, Bool.and_eq_true, bne_iff_ne]

/-- A constraint of one version that the other one has too, and that stays through the plan. -/
theorem mem_droppedConstraints (x : Constraint) : x ∈ c.droppedConstraints p ↔
    match x with
    | .primaryKey k => k = p.old.primaryKey ∧ p.replacesPrimaryKey c.recreate = true
    | .unique u => u ∈ p.old.uniques ∧ p.replacesUnique c.recreate p.new.uniques u = true
    | .index i => i ∈ p.old.indexes ∧ p.replacesIndex c.recreate p.new.indexes i = true
    | .foreignKey f =>
      f ∈ p.old.foreignKeys ∧ (f ∉ p.new.foreignKeys ∨ c.mustRebuild p f = true) := by
  cases x <;> simp [droppedConstraints, droppedForeignKeys, TablePair.droppedUniques,
    TablePair.droppedIndexes, and_comm]

include hp in
theorem mem_addedConstraints (x : Constraint) : x ∈ c.addedConstraints p ↔
    match x with
    | .primaryKey k => k = p.new.primaryKey ∧ p.replacesPrimaryKey c.recreate = true
    | .unique u => u ∈ p.new.uniques ∧ p.replacesUnique c.recreate p.old.uniques u = true
    | .index i => i ∈ p.new.indexes ∧ p.replacesIndex c.recreate p.old.indexes i = true
    | .foreignKey f =>
      f ∈ p.new.foreignKeys ∧ (f ∉ p.old.foreignKeys ∨ c.mustRebuild p f = true) := by
  have hold := (mem_surviving.mp hp).2
  cases x with
  | foreignKey f => simp [addedConstraints, addedForeignKeys, hold]
  | _ =>
    simp [addedConstraints, TablePair.addedUniques, TablePair.addedIndexes, and_comm]

include hp ho hn in
/-- What the plan leaves of the old constraints is what it does not add of the new ones. -/
theorem kept_iff (x : Constraint) :
    (x ∈ p.old.constraints ∧ x ∉ c.droppedConstraints p) ↔
      (x ∈ p.new.constraints ∧ x ∉ c.addedConstraints p) := by
  rw [mem_droppedConstraints, mem_addedConstraints hp]
  cases x with
  | primaryKey k =>
    simp only [Table.primaryKey_mem_constraints]
    by_cases h : p.replacesPrimaryKey c.recreate = true
    · simp [h]
    · have hk : p.old.primaryKey = p.new.primaryKey := by
        rw [replacesPrimaryKey_iff, not_or, not_ne_iff] at h
        exact h.1
      simp [hk]
  | unique u =>
    simp only [Table.unique_mem_constraints, replacesUnique_iff ho.uniques_nodup,
      replacesUnique_iff hn.uniques_nodup]
    tauto
  | index i =>
    simp only [Table.index_mem_constraints, replacesIndex_iff ho.indexes_nodup,
      replacesIndex_iff hn.indexes_nodup]
    tauto
  | foreignKey f =>
    simp only [Table.foreignKey_mem_constraints]
    tauto

include ho in
theorem droppedConstraints_nodup : (c.droppedConstraints p).Nodup := by
  have hsub : (c.droppedConstraints p).Sublist
      (p.old.foreignKeys.map Constraint.foreignKey ++ p.old.uniques.map Constraint.unique ++
        p.old.indexes.map Constraint.index ++ [Constraint.primaryKey p.old.primaryKey]) := by
    refine (((List.filter_sublist.map _).append (List.filter_sublist.map _)).append
      (List.filter_sublist.map _)).append ?_
    split
    · exact List.Sublist.refl _
    · exact List.nil_sublist _
  refine List.Nodup.sublist hsub ?_
  have hperm : List.Perm (p.old.foreignKeys.map Constraint.foreignKey ++
      p.old.uniques.map Constraint.unique ++ p.old.indexes.map Constraint.index ++
      [Constraint.primaryKey p.old.primaryKey]) p.old.constraints := by
    rw [List.append_assoc (p.old.foreignKeys.map _)]
    exact (List.perm_append_comm.append_right _).trans (List.perm_append_singleton _ _)
  exact hperm.nodup_iff.mpr (List.Nodup.of_map _ ho.constraints_nodup)

include hp hn in
theorem addedConstraints_nodup : (c.addedConstraints p).Nodup := by
  have hold := (mem_surviving.mp hp).2
  have hsub : (c.addedConstraints p).Sublist p.new.constraints := by
    have hkey : (if p.replacesPrimaryKey c.recreate then [.primaryKey p.new.primaryKey]
        else []).Sublist [Constraint.primaryKey p.new.primaryKey] := by
      split
      · exact List.Sublist.refl _
      · exact List.nil_sublist _
    have hforeign : (c.addedForeignKeys p.new).Sublist p.new.foreignKeys := by
      rw [addedForeignKeys, hold]
      exact List.filter_sublist
    exact ((hkey.append (List.filter_sublist.map _)).append (List.filter_sublist.map _)).append
      (hforeign.map _)
  exact List.Nodup.sublist hsub (List.Nodup.of_map _ hn.constraints_nodup)

theorem droppedConstraints_subset {x : Constraint} (hx : x ∈ c.droppedConstraints p) :
    x ∈ p.old.constraints := by
  have h := (mem_droppedConstraints x).mp hx
  cases x <;> simp_all

include hp in
theorem addedConstraints_subset {x : Constraint} (hx : x ∈ c.addedConstraints p) :
    x ∈ p.new.constraints := by
  have h := (mem_addedConstraints hp x).mp hx
  cases x <;> simp_all

theorem run_dropTrigger {s : TableState} (hs : s.onDelete = p.old.onDelete) :
    s.run (if p.old.hasTrigger && p.old.onDelete != p.new.onDelete then [.dropTrigger p.old]
      else []) = some { s with
        onDelete := if p.old.onDelete = p.new.onDelete then p.new.onDelete else [] } := by
  by_cases heq : p.old.onDelete = p.new.onDelete
  · simp only [heq, bne_self_eq_false, Bool.and_false, Bool.false_eq_true, if_false, if_true]
    rw [← heq, ← hs]
    rfl
  · by_cases hempty : p.old.onDelete = []
    · have hno : p.old.hasTrigger = false := by simp [Table.hasTrigger, hempty]
      simp only [hno, Bool.false_and, Bool.false_eq_true, if_false, if_neg heq]
      rw [← hempty, ← hs]
      rfl
    · have hyes : p.old.hasTrigger = true := by simpa [Table.hasTrigger] using hempty
      have hen : s.Enabled (.dropTrigger p.old) := ⟨hempty, hs⟩
      simp [hyes, heq, TableState.run, TableState.step, hen, TableState.next]

theorem run_createTrigger {s : TableState}
    (hs : s.onDelete = if p.old.onDelete = p.new.onDelete then p.new.onDelete else []) :
    s.run (if p.new.hasTrigger && some p.old.onDelete != some p.new.onDelete
      then [.createTrigger p.new] else []) = some { s with onDelete := p.new.onDelete } := by
  by_cases heq : p.old.onDelete = p.new.onDelete
  · simp only [heq, bne_self_eq_false, Bool.and_false, Bool.false_eq_true, if_false]
    rw [if_pos heq] at hs
    rw [← hs]
    rfl
  · rw [if_neg heq] at hs
    by_cases hempty : p.new.onDelete = []
    · have hno : p.new.hasTrigger = false := by simp [Table.hasTrigger, hempty]
      simp only [hno, Bool.false_and, Bool.false_eq_true, if_false]
      rw [hempty, ← hs]
      rfl
    · have hyes : p.new.hasTrigger = true := by simpa [Table.hasTrigger] using hempty
      have hen : s.Enabled (.createTrigger p.new) := ⟨hempty, hs⟩
      simp [hyes, heq, TableState.run, TableState.step, hen, TableState.next]

include hp ho hn in
/-- The steps on a table in both schemas lead from its old state to its new one. -/
theorem run_pair : p.old.state.run (c.dropSteps p ++ c.columnSteps p ++ c.addSteps p) =
    some p.new.state := by
  have htrigger := run_dropTrigger (p := p) (s := p.old.state) rfl
  set s₁ : TableState := { p.old.state with
    onDelete := if p.old.onDelete = p.new.onDelete then p.new.onDelete else [] } with hs₁
  have hheld₁ : ∀ x, s₁.Holds x ↔ x ∈ p.old.constraints := fun x => Table.state_holds
  obtain ⟨s₂, hdrop, hcolumns₂, hactions₂, hheld₂⟩ := TableState.run_drops p.old.name
    (s := s₁) (droppedConstraints_nodup (c := c) ho) fun x hx =>
      have hold := droppedConstraints_subset hx
      ⟨(hheld₁ x).mpr hold, ho.has_columns rfl hold⟩
  have hchange := run_columnSteps ho hn (s := s₂) hcolumns₂ c
  set s₃ : TableState := { s₂ with columns := p.new.columnShape? } with hs₃
  have hheld₃ : ∀ x, s₃.Holds x ↔ x ∈ p.new.constraints ∧ x ∉ c.addedConstraints p := by
    intro x
    rw [← kept_iff hp ho hn, ← hheld₁, ← hheld₂]
    cases x <;> rfl
  obtain ⟨s₄, hadd, hcolumns₄, hactions₄, hheld₄⟩ := TableState.run_adds p.new.name hn
    (s := s₃) (addedConstraints_nodup hp hn) (fun y hy => ((hheld₃ y).mp hy).1) fun x hx =>
      have hnew := addedConstraints_subset hp hx
      ⟨hnew, fun h => ((hheld₃ x).mp h).2 hx, hn.has_columns rfl hnew⟩
  have hcreate := run_createTrigger (p := p) (s := s₄) (hactions₄.trans hactions₂)
  rw [dropSteps_eq, addSteps_eq]
  simp only [TableState.run_append, htrigger, hdrop, hchange, hadd, hcreate, Option.bind_some]
  refine congrArg some (TableState.ext_holds hcolumns₄ rfl fun x => ?_)
  have hsame : ({ s₄ with onDelete := p.new.onDelete } : TableState).Holds x ↔ s₄.Holds x := by
    cases x <;> rfl
  rw [hsame, hheld₄, hheld₃, Table.state_holds]
  constructor
  · rintro (h | h)
    · exact h.1
    · exact addedConstraints_subset hp h
  · intro h
    by_cases hx : x ∈ c.addedConstraints p
    · exact Or.inr hx
    · exact Or.inl ⟨h, hx⟩

end Constraints

/-- A table that is only in the old schema loses its foreign keys and goes. -/
theorem run_dropped {t : Table} (ht : t.Valid) :
    Slot.run (some t.state) (t.foreignKeys.map (Step.dropForeignKey t.name) ++ [Step.dropTable t]) =
      some none := by
  have hnodup : (t.foreignKeys.map Constraint.foreignKey).Nodup :=
    (List.Nodup.of_map _ ht.constraints_nodup).sublist (List.sublist_append_right _ _ |>.cons _)
  have hheld : ∀ x ∈ t.foreignKeys.map Constraint.foreignKey,
      t.state.Holds x ∧ t.state.Has x.columns := by
    intro x hx
    obtain ⟨f, hf, rfl⟩ := List.mem_map.mp hx
    have hmem : .foreignKey f ∈ t.constraints := Table.foreignKey_mem_constraints.mpr hf
    exact ⟨Table.state_holds.mpr hmem, ht.has_columns rfl hmem⟩
  obtain ⟨s, hrun, -, -, -⟩ := TableState.run_drops t.name hnodup hheld
  rw [List.map_map] at hrun
  have hslot : Slot.run (some t.state) (t.foreignKeys.map (.dropForeignKey t.name)) =
      some (some s) := by
    refine Slot.run_some hrun fun e he t' => ?_
    obtain ⟨f, _, rfl⟩ := List.mem_map.mp he
    exact Step.noConfusion
  rw [Slot.run_append, hslot]
  rfl

theorem createTable_enabled {t : Table} (ht : t.Valid) :
    Slot.Enabled none (.createTable t) := by
  refine ⟨ht.names_nodup.sublist (List.Sublist.cons_cons _ ?_), ?_, ?_, ?_⟩
  · simp only [List.append_assoc]
    exact (List.Sublist.refl _).append (List.sublist_append_left _ _)
  · exact ht.has_columns (x := .primaryKey t.primaryKey) rfl (by simp)
  · exact fun u hu => ht.has_columns (x := .unique u) rfl (by simpa using hu)
  · exact fun i hi => ht.has_columns (x := .index i) rfl (by simpa using hi)

/-- A table that is only in the new schema is created, then gets foreign keys and trigger. -/
theorem run_created {t : Table} (ht : t.Valid) :
    Slot.run none (Step.createTable t :: (t.foreignKeys.map (Step.addForeignKey t.name) ++
      if t.hasTrigger then [Step.createTrigger t] else [])) = some (some t.state) := by
  have hnodup : (t.foreignKeys.map Constraint.foreignKey).Nodup :=
    (List.Nodup.of_map _ ht.constraints_nodup).sublist (List.sublist_append_right _ _ |>.cons _)
  have hmissing : ∀ x ∈ t.foreignKeys.map Constraint.foreignKey,
      x ∈ t.constraints ∧ ¬ t.created.Holds x ∧ t.created.Has x.columns := by
    intro x hx
    obtain ⟨f, hf, rfl⟩ := List.mem_map.mp hx
    have hmem : .foreignKey f ∈ t.constraints := Table.foreignKey_mem_constraints.mpr hf
    exact ⟨hmem, fun h => (Table.created_holds.mp h).2 f rfl, ht.has_columns rfl hmem⟩
  obtain ⟨s, hrun, hcolumns, hactions, hheld⟩ := TableState.run_adds t.name ht hnodup
    (fun y hy => (Table.created_holds.mp hy).1) hmissing
  rw [List.map_map] at hrun
  have htrigger : s.run (if t.hasTrigger then [.createTrigger t] else []) =
      some { s with onDelete := t.onDelete } := by
    by_cases hempty : t.onDelete = []
    · simp only [Table.hasTrigger, hempty, List.isEmpty_nil, Bool.not_true, Bool.false_eq_true,
        if_false]
      rw [show [] = s.onDelete from hactions.symm]
      rfl
    · have hyes : t.hasTrigger = true := by simpa [Table.hasTrigger] using hempty
      have hen : s.Enabled (.createTrigger t) := ⟨hempty, hactions⟩
      simp [hyes, TableState.run, TableState.step, hen, TableState.next]
  have hstate : { s with onDelete := t.onDelete } = t.state := by
    refine TableState.ext_holds hcolumns rfl fun x => ?_
    have hsame : ({ s with onDelete := t.onDelete } : TableState).Holds x ↔ s.Holds x := by
      cases x <;> rfl
    rw [hsame, hheld, Table.created_holds, Table.state_holds]
    cases x <;> simp
  have hstep : Slot.step none (.createTable t) = some (some t.created) :=
    if_pos (createTable_enabled ht)
  rw [Slot.run, List.foldlM_cons, hstep]
  refine Slot.run_some (s := t.created) ?_ fun e he t' => ?_
  · refine (TableState.run_append _ _ _).trans ?_
    rw [show t.created.run (t.foreignKeys.map (.addForeignKey t.name)) = some s from hrun,
      Option.bind_some, htrigger, hstate]
  · rcases List.mem_append.mp he with he | he
    · obtain ⟨f, _, rfl⟩ := List.mem_map.mp he
      exact Step.noConfusion
    · rw [(List.mem_ite_nil_right.mp he).2 |> List.mem_singleton.mp]
      exact Step.noConfusion

theorem pair_keeps_table {c : Comparison} {e : Step}
    (he : e ∈ c.dropSteps p ++ c.columnSteps p ++ c.addSteps p) (t : Table) :
    e ≠ .dropTable t := by
  rintro rfl
  rw [dropSteps_eq, addSteps_eq] at he
  simp only [columnSteps, List.mem_append, List.mem_map, List.mem_ite_nil_right,
    List.mem_singleton, reduceCtorEq, and_false, exists_false, or_false, false_or] at he
  rcases he with ⟨x, _, hx⟩ | ⟨x, _, hx⟩ <;> cases x <;> cases hx

variable {c : Comparison} (ho : c.old.Built) (hn : c.new.Built)

include ho hn in
theorem run_slot (name : String) :
    Slot.run (c.old.catalog.tables name) (c.plan.filter (·.table? = some name)) =
      some (c.new.catalog.tables name) := by
  rw [slice_plan ho hn]
  simp only [Schema.catalog]
  cases hold : c.old.findTable? name with
  | none =>
    cases hnew : c.new.findTable? name with
    | none => rfl
    | some t => exact run_created (hn.table (hn.findTable_iff.mp hnew).1)
  | some o =>
    have hvalid := ho.table (ho.findTable_iff.mp hold).1
    cases hnew : c.new.findTable? name with
    | none => exact run_dropped hvalid
    | some t =>
      obtain ⟨hmem, hname⟩ := hn.findTable_iff.mp hnew
      have hp : ⟨o, t⟩ ∈ c.surviving := mem_surviving.mpr ⟨hmem, hname ▸ hold⟩
      exact Slot.run_some (run_pair hp hvalid (hn.table hmem)) fun e he t' =>
        pair_keeps_table he t'

end Comparison

namespace Catalog

theorem runViews_append (views : Finset View) (as bs : List Step) :
    runViews views (as ++ bs) = (runViews views as).bind fun views' => runViews views' bs :=
  List.foldlM_append ..

theorem runViews_drop (views : Finset View) {vs : List View} (hn : vs.Nodup)
    (h : ∀ v ∈ vs, v ∈ views) :
    runViews views (vs.map .dropView) = some (views \ vs.toFinset) := by
  induction vs generalizing views with
  | nil => simp [runViews]
  | cons v vs ih =>
    rw [List.nodup_cons] at hn
    have hen : ViewEnabled views (.dropView v) := h v List.mem_cons_self
    have hrest : ∀ w ∈ vs, w ∈ views.erase v := fun w hw =>
      Finset.mem_erase.mpr ⟨fun he => hn.1 (he ▸ hw), h w (List.mem_cons_of_mem v hw)⟩
    rw [List.map_cons, runViews, List.foldlM_cons, stepViews, if_pos hen]
    refine (ih _ hn.2 hrest).trans (congrArg some ?_)
    ext w
    simp only [Finset.mem_sdiff, Finset.mem_erase, List.toFinset_cons, Finset.mem_insert,
      List.mem_toFinset]
    tauto

theorem runViews_create (views : Finset View) {vs : List View} (hn : (vs.map (·.name)).Nodup)
    (h : ∀ v ∈ vs, ∀ w ∈ views, w.name ≠ v.name) :
    runViews views (vs.map .createView) = some (views ∪ vs.toFinset) := by
  induction vs generalizing views with
  | nil => simp [runViews]
  | cons v vs ih =>
    rw [List.map_cons, List.nodup_cons] at hn
    have hen : ViewEnabled views (.createView v) := by
      simpa [ViewEnabled] using h v List.mem_cons_self
    have hrest : ∀ u ∈ vs, ∀ w ∈ insert v views, w.name ≠ u.name := by
      intro u hu w hw
      rcases Finset.mem_insert.mp hw with rfl | hw
      · exact fun he => hn.1 (he ▸ List.mem_map_of_mem hu)
      · exact h u (List.mem_cons_of_mem v hu) w hw
    rw [List.map_cons, runViews, List.foldlM_cons, stepViews, if_pos hen]
    refine (ih _ hn.2 hrest).trans (congrArg some ?_)
    ext w
    simp only [Finset.mem_union, Finset.mem_insert, List.toFinset_cons, List.mem_toFinset]
    tauto

end Catalog

namespace Comparison

variable {c : Comparison} (ho : c.old.Built) (hn : c.new.Built)

include hn in
/-- An old view that stays is a view of the new schema. -/
theorem new_of_kept {v : View} (hv : v ∈ c.old.views) (h : v ∉ c.droppedViews) :
    v ∈ c.new.views := by
  by_contra hnew
  exact h (dropped_of_changed hv fun hf => hnew (hn.findView_iff.mp hf).1)

/-- The views that the plan creates. -/
def createdViews (c : Comparison) : List View :=
  c.new.views.filter fun v => (c.old.findView? v.name).isNone ||
    c.droppedViews.any fun d => d.name == v.name

theorem createViewSteps_eq : c.createViewSteps = c.createdViews.map .createView :=
  rfl

include ho in
/-- A view is created exactly if no old view of its name stays. -/
theorem mem_createdViews {v : View} : v ∈ c.createdViews ↔
    v ∈ c.new.views ∧ ∀ w ∈ c.old.views, w ∉ c.droppedViews → w.name ≠ v.name := by
  rw [createdViews, List.mem_filter]
  refine and_congr_right fun _ => ?_
  rw [Bool.or_eq_true, Option.isNone_iff_eq_none, List.any_eq_true]
  constructor
  · rintro (hnone | ⟨d, hd, hdn⟩) w hw hkept hname
    · rw [ho.findView_iff.mpr ⟨hw, hname⟩] at hnone
      cases hnone
    · have hdw : d = w := List.inj_on_of_nodup_map ho.views_nodup ((mem_droppedViews.mp hd).1) hw
        ((beq_iff_eq.mp hdn).trans hname.symm)
      exact hkept (hdw ▸ hd)
  · intro h
    cases hf : c.old.findView? v.name with
    | none => exact Or.inl rfl
    | some w =>
      obtain ⟨hw, hname⟩ := ho.findView_iff.mp hf
      by_cases hd : w ∈ c.droppedViews
      · exact Or.inr ⟨w, hd, beq_iff_eq.mpr hname⟩
      · exact absurd hname (h w hw hd)

include ho hn in
theorem run_views : Catalog.runViews c.old.catalog.views (c.plan.filter (·.table? = none)) =
    some c.new.catalog.views := by
  have hdropped : c.droppedViews.reverse.Nodup :=
    List.nodup_reverse.mpr (droppedViews_nodup ho)
  have hcreated : (c.createdViews.map (·.name)).Nodup :=
    hn.views_nodup.sublist (List.filter_sublist.map _)
  have hdrop := Catalog.runViews_drop c.old.catalog.views hdropped fun v hv =>
    List.mem_toFinset.mpr (mem_droppedViews.mp (List.mem_reverse.mp hv)).1
  have hcreate := Catalog.runViews_create
    (c.old.catalog.views \ c.droppedViews.reverse.toFinset) hcreated fun v hv w hw => by
      rw [Finset.mem_sdiff, List.mem_toFinset, List.mem_reverse] at hw
      exact ((mem_createdViews ho).mp hv).2 w (List.mem_toFinset.mp hw.1) hw.2
  rw [slice_plan_views, createViewSteps_eq, dropViewSteps, Catalog.runViews_append, hdrop,
    Option.bind_some, hcreate]
  refine congrArg some ?_
  ext v
  simp only [Schema.catalog, Finset.mem_union, Finset.mem_sdiff, List.mem_toFinset,
    List.mem_reverse, mem_createdViews ho]
  constructor
  · rintro (⟨hv, hkept⟩ | hv)
    · exact new_of_kept hn hv hkept
    · exact hv.1
  · intro hv
    by_cases hkept : ∃ w ∈ c.old.views, w ∉ c.droppedViews ∧ w.name = v.name
    · obtain ⟨w, hw, hkept, hname⟩ := hkept
      have hwv : w = v :=
        List.inj_on_of_nodup_map hn.views_nodup (new_of_kept hn hw hkept) hv hname
      exact Or.inl (hwv ▸ ⟨hw, hkept⟩)
    · exact Or.inr ⟨hv, fun w hw hk hname => hkept ⟨w, hw, hk, hname⟩⟩

end Comparison

/-- A plan runs to its end from the catalog of the old schema, and there finds that of the new. -/
theorem diff_transforms_catalog {old new : Schema} (ho : old.Built) (hn : new.Built)
    (recreate : RecreateOptions) :
    old.catalog.run (diff old new recreate) = some new.catalog :=
  Catalog.run_of_slots (Comparison.run_slot (c := ⟨old, new, recreate⟩) ho hn)
    (Comparison.run_views (c := ⟨old, new, recreate⟩) ho hn)

namespace Sample

/-- Orders of customers, with a view on a view and a table that is about to go. -/
def shop : Schema where
  tables := [
    { name := "Customer"
      columns := [
        { name := "id", dataType := .integer, nullable := false },
        { name := "email", dataType := .varchar 80 },
        { name := "note", dataType := .clob }]
      primaryKey := ⟨"PK_Customer", ["id"]⟩
      uniques := [⟨"UQ_Customer_email", ["email"]⟩]
      onDelete := [.delete "Orders" (some (.binary .eq (.column none "customer")
        (.column (some "OLD") "id")))] },
    { name := "Orders"
      columns := [
        { name := "id", dataType := .integer, nullable := false },
        { name := "customer", dataType := .integer
          reference := some ⟨"Customer", "id", none, none⟩ }]
      primaryKey := ⟨"PK_Orders", ["id"]⟩
      indexes := [⟨"IX_Orders_customer", ["customer"], []⟩] },
    { name := "Legacy"
      columns := [{ name := "email", dataType := .varchar 80, nullable := false }]
      primaryKey := ⟨"PK_Legacy", ["email"]⟩
      declaredForeignKeys := [⟨"FK_Legacy", "email", "Customer", "email", none, none⟩] }]
  views := [
    { name := "Emails", columns := ["email"]
      query := ⟨{ items := [.column none "email"], source := ⟨"Customer", none⟩ }, []⟩ },
    { name := "Recipients", columns := ["email"]
      query := ⟨{ items := [.column none "email"], source := ⟨"Emails", none⟩ }, []⟩ }]

/-- The shop with wider keys and no notes; shipments come in and the old table goes. -/
def widerShop : Schema where
  tables := [
    { name := "Customer"
      columns := [
        { name := "id", dataType := .bigInt, nullable := false },
        { name := "email", dataType := .varchar 80 },
        { name := "phone", dataType := .varchar 20 }]
      primaryKey := ⟨"PK_Customer", ["id"]⟩
      uniques := [⟨"UQ_Customer_email", ["email", "phone"]⟩] },
    { name := "Orders"
      columns := [
        { name := "id", dataType := .integer, nullable := false },
        { name := "customer", dataType := .bigInt
          reference := some ⟨"Customer", "id", none, none⟩ }]
      primaryKey := ⟨"PK_Orders", ["id"]⟩
      indexes := [⟨"IX_Orders_customer", ["customer"], []⟩] },
    { name := "Shipment"
      columns := [{ name := "id", dataType := .integer, nullable := false }]
      primaryKey := ⟨"PK_Shipment", ["id"]⟩
      declaredForeignKeys := [⟨"FK_Shipment", "id", "Orders", "id", none, none⟩] }]
  views := shop.views

theorem shop_built : shop.Built where
  tables t ht := ⟨t.draft, (by decide +kernel : ∀ t ∈ shop.tables, t.draft.build = .ok t) t ht⟩
  views v hv := ⟨v.draft, (by decide +kernel : ∀ v ∈ shop.views, v.draft.build = .ok v) v hv⟩
  build := rfl

theorem widerShop_built : widerShop.Built where
  tables t ht := ⟨t.draft, (by decide +kernel : ∀ t ∈ widerShop.tables, t.draft.build = .ok t) t ht⟩
  views := shop_built.views
  build := rfl

end Sample

theorem shop_widens : Sample.shop.Built ∧ Sample.widerShop.Built ∧
    Sample.shop.catalog.run (diff Sample.shop Sample.widerShop .all) =
      some Sample.widerShop.catalog :=
  ⟨Sample.shop_built, Sample.widerShop_built,
    diff_transforms_catalog Sample.shop_built Sample.widerShop_built .all⟩

end Schemata
