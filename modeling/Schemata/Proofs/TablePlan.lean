import Schemata.Proofs.Catalog

/-! The part of a plan that concerns one table, or the views. Each phase goes through tables with
distinct names, so what a phase does to a table is written down by that table alone. -/
namespace Schemata

theorem find_key_eq_some_iff {α : Type} {key : α → String} {l : List α}
    (hn : (l.map key).Nodup) {name : String} {a : α} :
    l.find? (fun b => key b == name) = some a ↔ a ∈ l ∧ key a = name := by
  induction l with
  | nil => simp
  | cons b l ih =>
    rw [List.map_cons, List.nodup_cons] at hn
    by_cases hb : key b = name
    · rw [List.find?_cons_of_pos (by simpa using hb), Option.some.injEq, List.mem_cons]
      constructor
      · rintro rfl
        exact ⟨Or.inl rfl, hb⟩
      · rintro ⟨rfl | ha, hk⟩
        · rfl
        · exact absurd (List.mem_map_of_mem ha) (hk.trans hb.symm ▸ hn.1)
    · rw [List.find?_cons_of_neg (by simpa using hb), ih hn.2, List.mem_cons]
      constructor
      · rintro ⟨ha, hk⟩
        exact ⟨Or.inr ha, hk⟩
      · rintro ⟨rfl | ha, hk⟩
        · exact absurd hk hb
        · exact ⟨ha, hk⟩

theorem map_filter_eq_flatMap {α β : Type} (p : α → Bool) (f : α → β) (l : List α) :
    (l.filter p).map f = l.flatMap fun a => if p a then [f a] else [] := by
  induction l with
  | nil => rfl
  | cons a l ih => by_cases h : p a <;> simp [h, ih]

/-- Of steps written by tables with distinct names, those on one table are what it wrote. -/
theorem filter_flatMap_key {α : Type} {key : α → String} {l : List α} {f : α → List Step}
    (hn : (l.map key).Nodup) (hf : ∀ a ∈ l, ∀ e ∈ f a, e.table? = some (key a)) (name : String) :
    (l.flatMap f).filter (·.table? = some name) =
      (l.find? fun a => key a == name).elim [] f := by
  induction l with
  | nil => rfl
  | cons a l ih =>
    rw [List.map_cons, List.nodup_cons] at hn
    have hrest := ih hn.2 fun b hb => hf b (List.mem_cons_of_mem a hb)
    have ha := hf a List.mem_cons_self
    rw [List.flatMap_cons, List.filter_append, hrest]
    by_cases hk : key a = name
    · have hnone : l.find? (fun b => key b == name) = none := by
        rw [List.find?_eq_none]
        intro b hb hbn
        exact hn.1 (hk ▸ beq_iff_eq.mp hbn ▸ List.mem_map_of_mem hb)
      rw [List.find?_cons_of_pos (by simpa using hk), hnone]
      have hall : (f a).filter (fun e => decide (e.table? = some name)) = f a :=
        List.filter_eq_self.mpr fun e he => by simpa [hk] using ha e he
      simp [hall]
    · rw [List.find?_cons_of_neg (by simpa using hk)]
      have hnil : (f a).filter (fun e => decide (e.table? = some name)) = [] :=
        List.filter_eq_nil_iff.mpr fun e he => by simp [ha e he, hk]
      rw [hnil, List.nil_append]

/-- The place of a step's kind in the order of a plan. -/
def Step.phase : Step → Nat
  | dropView _ => 0
  | dropTrigger _ => 1
  | dropForeignKey _ _ => 2
  | dropUnique _ _ | dropIndex _ _ | dropPrimaryKey _ _ => 3
  | dropTable _ => 4
  | createTable _ => 5
  | alterColumn _ _ _ _ | addColumn _ _ | dropColumn _ _ => 6
  | addPrimaryKey _ _ | addUnique _ _ | addIndex _ _ => 7
  | addForeignKey _ _ => 8
  | createTrigger _ => 9
  | createView _ => 10

theorem Step.table_none_iff (e : Step) : e.table? = none ↔ e.phase = 0 ∨ e.phase = 10 := by
  cases e <;> simp [table?, phase]

namespace Schema

variable {s : Schema}

theorem Built.findTable_iff (h : s.Built) {name : String} {t : Table} :
    s.findTable? name = some t ↔ t ∈ s.tables ∧ t.name = name :=
  find_key_eq_some_iff h.tables_nodup

theorem Built.findView_iff (h : s.Built) {name : String} {v : View} :
    s.findView? name = some v ↔ v ∈ s.views ∧ v.name = name :=
  find_key_eq_some_iff h.views_nodup

end Schema

theorem Table.Valid.findColumn_iff {t : Table} (h : t.Valid) {name : String} {c : Column} :
    t.findColumn? name = some c ↔ c ∈ t.columns ∧ c.name = name :=
  find_key_eq_some_iff h.columns_nodup

namespace Comparison

variable {c : Comparison}

theorem mem_surviving {p : TablePair} :
    p ∈ c.surviving ↔ p.new ∈ c.new.tables ∧ c.old.findTable? p.new.name = some p.old := by
  obtain ⟨o, n⟩ := p
  simp only [surviving, List.mem_filterMap, Option.map_eq_some_iff, TablePair.mk.injEq]
  constructor
  · rintro ⟨t, ht, o', ho, rfl, rfl⟩
    exact ⟨ht, ho⟩
  · rintro ⟨hn, ho⟩
    exact ⟨n, hn, o, ho, rfl, rfl⟩

theorem surviving_nodup (h : c.new.Built) : (c.surviving.map (·.new.name)).Nodup := by
  have heq : c.surviving.map (·.new.name) = (c.new.tables.map (·.name)).filterMap fun name =>
      (c.old.findTable? name).map fun _ => name := by
    rw [surviving, List.map_filterMap, List.filterMap_map]
    simp [Function.comp_def]
  rw [heq]
  refine h.tables_nodup.filterMap fun a b n ha hb => ?_
  simp only [Option.mem_def, Option.map_eq_some_iff] at ha hb
  obtain ⟨_, _, rfl⟩ := ha
  obtain ⟨_, _, rfl⟩ := hb
  rfl

theorem find_surviving (h : c.new.Built) (name : String) :
    c.surviving.find? (fun p => p.new.name == name) =
      (c.new.findTable? name).bind fun t => (c.old.findTable? name).map fun o => ⟨o, t⟩ := by
  apply Option.ext
  intro p
  obtain ⟨o, t⟩ := p
  rw [find_key_eq_some_iff (surviving_nodup h), mem_surviving]
  simp only [Option.bind_eq_some_iff, Option.map_eq_some_iff, h.findTable_iff,
    TablePair.mk.injEq]
  constructor
  · rintro ⟨⟨ht, ho⟩, rfl⟩
    exact ⟨t, ⟨ht, rfl⟩, o, ho, rfl, rfl⟩
  · rintro ⟨t', ⟨ht, rfl⟩, o', ho, rfl, rfl⟩
    exact ⟨⟨ht, ho⟩, rfl⟩

theorem find_droppedTables (h : c.old.Built) (name : String) :
    c.droppedTables.find? (fun t => t.name == name) =
      if (c.new.findTable? name).isNone then c.old.findTable? name else none := by
  have hn : (c.droppedTables.map (·.name)).Nodup :=
    h.tables_nodup.sublist (List.filter_sublist.map _)
  apply Option.ext
  intro t
  rw [find_key_eq_some_iff hn, droppedTables, List.mem_filter]
  split
  · rename_i hnone
    rw [h.findTable_iff]
    constructor
    · rintro ⟨⟨ht, -⟩, rfl⟩
      exact ⟨ht, rfl⟩
    · rintro ⟨ht, rfl⟩
      exact ⟨⟨ht, hnone⟩, rfl⟩
  · rename_i hsome
    constructor
    · rintro ⟨⟨-, ht⟩, rfl⟩
      exact absurd ht hsome
    · intro ht
      cases ht

theorem find_createdTables (h : c.new.Built) (name : String) :
    c.createdTables.find? (fun t => t.name == name) =
      if (c.old.findTable? name).isNone then c.new.findTable? name else none :=
  find_droppedTables (c := ⟨c.new, c.old, c.recreate⟩) h name

theorem surviving_name {p : TablePair} (hp : p ∈ c.surviving) : p.old.name = p.new.name := by
  simpa using List.find?_some (mem_surviving.mp hp).2

/-- The foreign keys of a table in both schemas that the plan drops. -/
def droppedForeignKeys (c : Comparison) (p : TablePair) : List ForeignKey :=
  p.old.foreignKeys.filter fun f => !p.new.foreignKeys.contains f || c.mustRebuild p f

/-- What the plan does before the columns of a table in both schemas change. -/
def dropSteps (c : Comparison) (p : TablePair) : List Step :=
  (if p.old.hasTrigger && p.old.onDelete != p.new.onDelete then [Step.dropTrigger p.old] else []) ++
    (c.droppedForeignKeys p).map (Step.dropForeignKey p.old.name) ++
    ((p.droppedUniques c.recreate).map (Step.dropUnique p.old.name) ++
      (p.droppedIndexes c.recreate).map (Step.dropIndex p.old.name) ++
      if p.replacesPrimaryKey c.recreate then [Step.dropPrimaryKey p.old.name p.old.primaryKey]
      else [])

def columnSteps (c : Comparison) (p : TablePair) : List Step :=
  (p.altered c.recreate.defaults).map
      (fun a => Step.alterColumn p.new.name a.before a.after a.change) ++
    p.added.map (Step.addColumn p.new.name) ++ p.dropped.map (Step.dropColumn p.new.name)

/-- What the plan does after the columns of a table in both schemas have changed. -/
def addSteps (c : Comparison) (p : TablePair) : List Step :=
  ((if p.replacesPrimaryKey c.recreate then [Step.addPrimaryKey p.new.name p.new.primaryKey]
        else []) ++
      (p.addedUniques c.recreate).map (Step.addUnique p.new.name) ++
      (p.addedIndexes c.recreate).map (Step.addIndex p.new.name)) ++
    (c.addedForeignKeys p.new).map (Step.addForeignKey p.new.name) ++
    if p.new.hasTrigger && some p.old.onDelete != some p.new.onDelete
    then [Step.createTrigger p.new] else []

section Slices

variable (ho : c.old.Built) (hn : c.new.Built) (name : String)
include hn

theorem slice_dropTriggers : c.dropTriggerSteps.filter (·.table? = some name) =
    (c.surviving.find? fun p => p.new.name == name).elim [] fun p =>
      if p.old.hasTrigger && p.old.onDelete != p.new.onDelete then [.dropTrigger p.old]
      else [] := by
  rw [dropTriggerSteps, map_filter_eq_flatMap]
  refine filter_flatMap_key (surviving_nodup hn) (fun p hp e he => ?_) name
  split at he
  · rw [List.mem_singleton.mp he]
    exact congrArg some (surviving_name hp)
  · cases he

theorem slice_dropKeys : c.dropKeySteps.filter (·.table? = some name) =
    (c.surviving.find? fun p => p.new.name == name).elim [] fun p =>
      (p.droppedUniques c.recreate).map (Step.dropUnique p.old.name) ++
        (p.droppedIndexes c.recreate).map (Step.dropIndex p.old.name) ++
        if p.replacesPrimaryKey c.recreate then [Step.dropPrimaryKey p.old.name p.old.primaryKey]
        else [] := by
  refine filter_flatMap_key (surviving_nodup hn) (fun p hp e he => ?_) name
  rw [← surviving_name hp]
  simp only [List.mem_append, List.mem_map, List.mem_ite_nil_right, List.mem_singleton] at he
  rcases he with (⟨_, _, rfl⟩ | ⟨_, _, rfl⟩) | ⟨_, rfl⟩ <;> rfl

theorem slice_changeColumns : c.changeColumnSteps.filter (·.table? = some name) =
    (c.surviving.find? fun p => p.new.name == name).elim [] c.columnSteps := by
  refine filter_flatMap_key (surviving_nodup hn) (fun p hp e he => ?_) name
  simp only [List.mem_append, List.mem_map] at he
  rcases he with (⟨_, _, rfl⟩ | ⟨_, _, rfl⟩) | ⟨_, _, rfl⟩ <;> rfl

theorem slice_addKeys : c.addKeySteps.filter (·.table? = some name) =
    (c.surviving.find? fun p => p.new.name == name).elim [] fun p =>
      (if p.replacesPrimaryKey c.recreate then [Step.addPrimaryKey p.new.name p.new.primaryKey]
          else []) ++
        (p.addedUniques c.recreate).map (Step.addUnique p.new.name) ++
        (p.addedIndexes c.recreate).map (Step.addIndex p.new.name) := by
  refine filter_flatMap_key (surviving_nodup hn) (fun p hp e he => ?_) name
  simp only [List.mem_append, List.mem_map, List.mem_ite_nil_right, List.mem_singleton] at he
  rcases he with (⟨_, rfl⟩ | ⟨_, _, rfl⟩) | ⟨_, _, rfl⟩ <;> rfl

theorem slice_createTables : c.createTableSteps.filter (·.table? = some name) =
    (c.createdTables.find? fun t => t.name == name).elim [] fun t => [.createTable t] := by
  have hnodup : (c.createdTables.map (·.name)).Nodup :=
    hn.tables_nodup.sublist (List.filter_sublist.map _)
  have heq : c.createTableSteps = c.createdTables.flatMap fun t => [.createTable t] := by
    rw [createTableSteps, List.map_eq_flatMap]
  rw [heq]
  refine filter_flatMap_key hnodup (fun t _ e he => ?_) name
  rw [List.mem_singleton.mp he]
  rfl

theorem slice_addForeignKeys : c.addForeignKeySteps.filter (·.table? = some name) =
    (c.new.findTable? name).elim [] fun t =>
      (c.addedForeignKeys t).map (.addForeignKey t.name) := by
  refine filter_flatMap_key hn.tables_nodup (fun t _ e he => ?_) name
  obtain ⟨_, _, rfl⟩ := List.mem_map.mp he
  rfl

theorem slice_createTriggers : c.createTriggerSteps.filter (·.table? = some name) =
    (c.new.findTable? name).elim [] fun t =>
      if t.hasTrigger && ((c.old.findTable? t.name).map (·.onDelete)) != some t.onDelete
      then [.createTrigger t] else [] := by
  rw [createTriggerSteps, map_filter_eq_flatMap]
  refine filter_flatMap_key hn.tables_nodup (fun t _ e he => ?_) name
  split at he
  · rw [List.mem_singleton.mp he]
    rfl
  · cases he

include ho

theorem slice_dropForeignKeys : c.dropForeignKeySteps.filter (·.table? = some name) =
    ((c.droppedTables.find? fun t => t.name == name).elim [] fun t =>
      t.foreignKeys.map (Step.dropForeignKey t.name)) ++
    (c.surviving.find? fun p => p.new.name == name).elim [] fun p =>
      (c.droppedForeignKeys p).map (Step.dropForeignKey p.old.name) := by
  have hnodup : (c.droppedTables.map (·.name)).Nodup :=
    ho.tables_nodup.sublist (List.filter_sublist.map _)
  rw [dropForeignKeySteps, List.filter_append]
  congr 1
  · refine filter_flatMap_key hnodup (fun t _ e he => ?_) name
    obtain ⟨_, _, rfl⟩ := List.mem_map.mp he
    rfl
  · refine filter_flatMap_key (surviving_nodup hn) (fun p hp e he => ?_) name
    obtain ⟨_, _, rfl⟩ := List.mem_map.mp he
    exact congrArg some (surviving_name hp)

omit hn in
theorem slice_dropTables : c.dropTableSteps.filter (·.table? = some name) =
    (c.droppedTables.find? fun t => t.name == name).elim [] fun t => [.dropTable t] := by
  have hnodup : (c.droppedTables.map (·.name)).Nodup :=
    ho.tables_nodup.sublist (List.filter_sublist.map _)
  have heq : c.dropTableSteps = c.droppedTables.flatMap fun t => [.dropTable t] := by
    rw [dropTableSteps, List.map_eq_flatMap]
  rw [heq]
  refine filter_flatMap_key hnodup (fun t _ e he => ?_) name
  rw [List.mem_singleton.mp he]
  rfl

omit hn ho in
theorem slice_views_of_table {views : List View} {f : View → Step}
    (hf : ∀ v, (f v).table? = none) :
    (views.map f).filter (·.table? = some name) = [] := by
  rw [List.filter_eq_nil_iff]
  intro e he
  obtain ⟨v, _, rfl⟩ := List.mem_map.mp he
  simp [hf v]

theorem slice_plan : c.plan.filter (·.table? = some name) =
    match c.old.findTable? name, c.new.findTable? name with
    | none, none => []
    | some o, none => o.foreignKeys.map (Step.dropForeignKey o.name) ++ [Step.dropTable o]
    | none, some t => Step.createTable t :: (t.foreignKeys.map (Step.addForeignKey t.name) ++
        if t.hasTrigger then [Step.createTrigger t] else [])
    | some o, some t => c.dropSteps ⟨o, t⟩ ++ c.columnSteps ⟨o, t⟩ ++ c.addSteps ⟨o, t⟩ := by
  have hviews : c.dropViewSteps.filter (·.table? = some name) = [] ∧
      c.createViewSteps.filter (·.table? = some name) = [] :=
    ⟨slice_views_of_table name fun _ => rfl, slice_views_of_table name fun _ => rfl⟩
  simp only [plan, List.filter_append, hviews, slice_dropTriggers hn, slice_dropKeys hn,
    slice_changeColumns hn, slice_addKeys hn, slice_createTables hn, slice_addForeignKeys hn,
    slice_createTriggers hn, slice_dropForeignKeys ho hn, slice_dropTables ho,
    find_surviving hn, find_droppedTables ho, find_createdTables hn]
  cases hold : c.old.findTable? name with
  | none =>
    cases hnew : c.new.findTable? name with
    | none => simp
    | some t =>
      have ht : t.name = name := by simpa using List.find?_some hnew
      simp [addedForeignKeys, ht, hold]
  | some o =>
    cases hnew : c.new.findTable? name with
    | none => simp
    | some t =>
      have ht : t.name = name := by simpa using List.find?_some hnew
      simp [dropSteps, columnSteps, addSteps, ht, hold]

omit name in
theorem slice_surviving {p : TablePair} (hp : p ∈ c.surviving) :
    c.plan.filter (·.table? = some p.new.name) =
      c.dropSteps p ++ c.columnSteps p ++ c.addSteps p := by
  obtain ⟨hnew, hold⟩ := mem_surviving.mp hp
  rw [slice_plan ho hn, hold, hn.findTable_iff.mpr ⟨hnew, rfl⟩]

end Slices

/-- The phases of the plan, one list each. -/
def phases (c : Comparison) : List (List Step) :=
  [c.dropViewSteps, c.dropTriggerSteps, c.dropForeignKeySteps, c.dropKeySteps, c.dropTableSteps,
   c.createTableSteps, c.changeColumnSteps, c.addKeySteps, c.addForeignKeySteps,
   c.createTriggerSteps, c.createViewSteps]

theorem plan_eq_flatten : c.plan = c.phases.flatten := by
  simp [plan, phases]

theorem phase_of_mem {i : Nat} {steps : List Step} (hi : c.phases[i]? = some steps) {e : Step}
    (he : e ∈ steps) : e.phase = i := by
  match i with
  | 0 | 1 | 4 | 5 | 9 | 10 =>
    cases hi
    obtain ⟨_, _, rfl⟩ := List.mem_map.mp he
    rfl
  | 2 =>
    cases hi
    rcases List.mem_append.mp he with he | he <;>
      · obtain ⟨_, _, he⟩ := List.mem_flatMap.mp he
        obtain ⟨_, _, rfl⟩ := List.mem_map.mp he
        rfl
  | 3 | 6 | 7 =>
    cases hi
    obtain ⟨p, _, he⟩ := List.mem_flatMap.mp he
    simp only [List.mem_append, List.mem_map, List.mem_ite_nil_right, List.mem_singleton] at he
    rcases he with (⟨_, _, rfl⟩ | ⟨_, _, rfl⟩) | ⟨_, _, rfl⟩ <;> rfl
  | 8 =>
    cases hi
    obtain ⟨_, _, he⟩ := List.mem_flatMap.mp he
    obtain ⟨_, _, rfl⟩ := List.mem_map.mp he
    rfl
  | n + 11 => simp [phases] at hi

theorem slice_plan_views : c.plan.filter (·.table? = none) =
    c.dropViewSteps ++ c.createViewSteps := by
  have hview : ∀ i steps, c.phases[i]? = some steps → i = 0 ∨ i = 10 →
      steps.filter (·.table? = none) = steps := by
    intro i steps hi h
    refine List.filter_eq_self.mpr fun e he => ?_
    simpa [Step.table_none_iff, phase_of_mem hi he] using h
  have htable : ∀ i steps, c.phases[i]? = some steps → i ≠ 0 → i ≠ 10 →
      steps.filter (·.table? = none) = [] := by
    intro i steps hi h₀ h₁
    refine List.filter_eq_nil_iff.mpr fun e he => ?_
    simp [Step.table_none_iff, phase_of_mem hi he, h₀, h₁]
  simp [plan, List.filter_append, hview 0 _ rfl (by simp), htable 1 _ rfl (by simp) (by simp),
    htable 2 _ rfl (by simp) (by simp), htable 3 _ rfl (by simp) (by simp),
    htable 4 _ rfl (by simp) (by simp), htable 5 _ rfl (by simp) (by simp),
    htable 6 _ rfl (by simp) (by simp), htable 7 _ rfl (by simp) (by simp),
    htable 8 _ rfl (by simp) (by simp), htable 9 _ rfl (by simp) (by simp),
    hview 10 _ rfl (by simp)]

end Comparison

end Schemata
