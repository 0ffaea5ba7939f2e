import Schemata.Proofs.PlanSoundness
import Schemata.Proofs.Provenance
import Schemata.Proofs.Resolved

/-! A plan never pulls away what something else still rests on: at each step, everything in the
catalog that depends on the object which the step drops or alters is already gone. -/
namespace Schemata

namespace Catalog

/-- No foreign key of any table targets the column. -/
def Untargeted (c : Catalog) (table column : String) : Prop :=
  ∀ user f, c.Holds user (.foreignKey f) →
    ¬ (f.reference.table = table ∧ f.reference.column = column)

end Catalog

/-- Whether constraints of this kind have to be created again around a column change. -/
def RecreateOptions.covers (r : RecreateOptions) : Constraint → Bool
  | .primaryKey _ => r.primaryKeys
  | .unique _ => r.uniques
  | .index _ => r.indexes
  | .foreignKey _ => r.foreignKeys

/-- What has to hold of a catalog so that the step breaks nothing in it, and finds in it what the
object that it creates depends on. -/
def Step.Safe (r : RecreateOptions) (c : Catalog) : Step → Prop
  | dropColumn table column =>
    (∀ x, c.Holds table x → column.name ∉ x.columns) ∧ c.Untargeted table column.name ∧
      ¬ c.Reads table
  | alterColumn table _ after change =>
    ¬ c.Reads table ∧ (change.isStructural = true →
      (∀ x, c.Holds table x → r.covers x = true → after.name ∉ x.columns) ∧
        (r.foreignKeys = true → c.Untargeted table after.name))
  | dropTable t =>
    (∀ user f, user ≠ t.name → c.Holds user (.foreignKey f) → f.reference.table ≠ t.name) ∧
      ¬ c.Reads t.name
  | dropPrimaryKey table k => ∀ column ∈ k.columns, c.Untargeted table column
  | dropUnique table u => ∀ column ∈ u.columns, c.Untargeted table column
  | dropView v => ¬ c.Reads v.name
  | createView v =>
    ∀ name ∈ v.referencedTables, (c.tables name).isSome = true ∨ ∃ w ∈ c.views, w.name = name
  | addForeignKey _ f =>
    ∃ s, c.tables f.reference.table = some s ∧ (s.columns f.reference.column).isSome = true
  | createTrigger t => ∀ d ∈ t.onDelete, (c.tables d.table).isSome = true
  | _ => True

theorem Constraint.dropStep_phase (x : Constraint) (table : String) :
    (x.dropStep table).phase ≤ 3 := by
  cases x <;> simp [dropStep, Step.phase]

theorem Constraint.addStep_phase (x : Constraint) (table : String) :
    7 ≤ (x.addStep table).phase := by
  cases x <;> simp [addStep, Step.phase]

namespace Schema

/-- No name is both that of a table and that of a view. -/
def KindsApart (s : Schema) : Prop :=
  ∀ t ∈ s.tables, ∀ v ∈ s.views, t.name ≠ v.name

/-- Every view reads only tables and views declared before it. -/
def ViewsOrdered (s : Schema) : Prop :=
  ∀ i, ∀ h : i < s.views.length, ∀ name ∈ (s.views[i]).referencedTables,
    (∃ t ∈ s.tables, t.name = name) ∨ ∃ w ∈ s.views.take i, w.name = name

instance (s : Schema) : Decidable s.KindsApart :=
  inferInstanceAs (Decidable (∀ t ∈ s.tables, ∀ v ∈ s.views, _))

instance (s : Schema) : Decidable s.ViewsOrdered :=
  inferInstanceAs (Decidable (∀ i, ∀ h : i < s.views.length,
    ∀ name ∈ (s.views[i]).referencedTables, _ ∨ _))

variable {s : Schema}

/-- No view reads itself or a view declared after it. -/
theorem ViewsOrdered.not_reads (h : s.ViewsOrdered) (hs : s.Built) (hk : s.KindsApart) {i j : Nat}
    (hij : i ≤ j) (hi : i < s.views.length) (hj : j < s.views.length) :
    (s.views[j]).name ∉ (s.views[i]).referencedTables := by
  intro hmem
  rcases h i hi _ hmem with ⟨t, ht, hname⟩ | ⟨w, hw, hname⟩
  · exact hk t ht _ (List.getElem_mem hj) hname
  · obtain ⟨m, hm, rfl⟩ := List.mem_take_iff_getElem.mp hw
    have hm' : m < (s.views.map (·.name)).length := by rw [List.length_map]; omega
    have hj' : j < (s.views.map (·.name)).length := by rwa [List.length_map]
    have hnames : (s.views.map (·.name))[m] = (s.views.map (·.name))[j] := by
      rw [List.getElem_map, List.getElem_map, hname]
    have heq : m = j := hs.views_nodup.getElem_inj_iff.mp hnames
    omega

theorem ViewsOrdered.pairwise (h : s.ViewsOrdered) (hs : s.Built) (hk : s.KindsApart) :
    s.views.Pairwise fun v w => w.name ∉ v.referencedTables :=
  List.pairwise_iff_getElem.mpr fun _ _ hi hj hij => h.not_reads hs hk hij.le hi hj

theorem ViewsOrdered.not_self (h : s.ViewsOrdered) (hs : s.Built) (hk : s.KindsApart) {v : View}
    (hv : v ∈ s.views) : v.name ∉ v.referencedTables := by
  obtain ⟨i, hi, rfl⟩ := List.getElem_of_mem hv
  exact h.not_reads hs hk le_rfl hi hi

end Schema

namespace TablePair

variable {p : TablePair}

theorem changeOf_isStructural (d : Bool) (before after : Column) :
    (changeOf d before after).isStructural = (ColumnChange.between before after).isStructural := by
  unfold changeOf
  dsimp only
  split <;> rfl

/-- Whether defaults are set again makes no difference to which columns change. -/
theorem altered_false {d : Bool} {a : AlteredColumn} (ha : a ∈ p.altered d) :
    ⟨a.before, a.after, changeOf false a.before a.after⟩ ∈ p.altered false := by
  obtain ⟨hafter, hbefore, hchange, hempty⟩ := mem_altered.mp ha
  refine mem_altered.mpr ⟨hafter, hbefore, rfl, ?_⟩
  rw [changeOf_isEmpty, ← changeOf_isEmpty d, ← hchange, hempty]

theorem isRestructured_of_altered {d : Bool} {a : AlteredColumn} (ha : a ∈ p.altered d)
    (hs : a.change.isStructural = true) : p.isRestructured a.after.name = true := by
  refine List.any_eq_true.mpr ⟨_, altered_false ha, ?_⟩
  rw [changeOf_isStructural, ← changeOf_isStructural d, ← (mem_altered.mp ha).2.2.1, hs]
  simp

theorem changesColumns_of_altered {d : Bool} {a : AlteredColumn} (ha : a ∈ p.altered d) :
    p.changesColumns = true := by
  have hne : p.altered false ≠ [] := List.ne_nil_of_mem (altered_false ha)
  simp [changesColumns, hne]

theorem changesColumns_of_dropped {column : Column} (h : column ∈ p.dropped) :
    p.changesColumns = true := by
  have hne : p.dropped ≠ [] := List.ne_nil_of_mem h
  simp [changesColumns, hne]

theorem touches_of_restructured {column : String} {columns : List String}
    (hr : p.isRestructured column = true) (hc : column ∈ columns) : p.touches columns = true :=
  List.any_eq_true.mpr ⟨column, hc, hr⟩

end TablePair

namespace Comparison

variable {c : Comparison}

theorem isAffected_of_changes {p : TablePair} (hp : p ∈ c.surviving)
    (h : p.changesColumns = true) : c.isAffected p.new.name = true := by
  refine Bool.or_eq_true_iff.mpr (Or.inr (List.any_eq_true.mpr ⟨p, hp, ?_⟩))
  rw [h, surviving_name hp]
  simp

theorem isAffected_of_dropped {t : Table} (ht : t ∈ c.droppedTables) :
    c.isAffected t.name = true :=
  Bool.or_eq_true_iff.mpr (Or.inl (List.any_eq_true.mpr ⟨t, ht, beq_self_eq_true _⟩))

/-- A relation on steps holds along the plan if it holds within each phase and from each phase to
the later ones. -/
theorem pairwise_plan {R : Step → Step → Prop}
    (hsame : ∀ (i : Nat) (steps : List Step), c.phases[i]? = some steps → steps.Pairwise R)
    (hcross : ∀ a b : Step, a.phase < b.phase → R a b) : c.plan.Pairwise R := by
  rw [plan_eq_flatten, List.pairwise_flatten]
  constructor
  · intro steps hsteps
    obtain ⟨i, hi⟩ := List.getElem?_of_mem hsteps
    exact hsame i steps hi
  · refine List.pairwise_iff_getElem.mpr fun i j hi hj hij a ha b hb => hcross a b ?_
    rw [phase_of_mem (List.getElem?_eq_getElem hi) ha,
      phase_of_mem (List.getElem?_eq_getElem hj) hb]
    exact hij

theorem plan_sorted : c.plan.Pairwise fun a b => a.phase ≤ b.phase := by
  refine pairwise_plan (fun i steps hi => ?_) fun a b h => h.le
  refine List.pairwise_of_forall_mem_list fun a ha b hb => ?_
  rw [phase_of_mem hi ha, phase_of_mem hi hb]

theorem mem_phase {e : Step} (he : e ∈ c.plan) :
    ∃ steps, c.phases[e.phase]? = some steps ∧ e ∈ steps := by
  rw [plan_eq_flatten] at he
  obtain ⟨steps, hsteps, he⟩ := List.mem_flatten.mp he
  obtain ⟨i, hi⟩ := List.getElem?_of_mem hsteps
  rw [phase_of_mem hi he]
  exact ⟨steps, hi, he⟩

/-- The plan drops each constraint that a table in both schemas does not keep. -/
theorem dropStep_mem_plan (ho : c.old.Built) (hn : c.new.Built) {p : TablePair}
    (hp : p ∈ c.surviving) {x : Constraint} (hx : x ∈ c.droppedConstraints p) :
    x.dropStep p.old.name ∈ c.plan := by
  have hmem : x.dropStep p.old.name ∈ c.dropSteps p := by
    rw [dropSteps_eq]
    exact List.mem_append_right _ (List.mem_map_of_mem hx)
  refine List.mem_of_mem_filter (p := (·.table? = some p.new.name)) ?_
  rw [slice_surviving ho hn hp]
  exact List.mem_append_left _ (List.mem_append_left _ hmem)

/-- A constraint on a column whose type or nullability changes goes, if its kind is covered. -/
theorem dropped_of_restructured {p : TablePair} {x : Constraint} (hx : x ∈ p.old.constraints)
    (hc : c.recreate.covers x = true) {column : String} (hr : p.isRestructured column = true)
    (hcol : column ∈ x.columns) : x ∈ c.droppedConstraints p := by
  rw [mem_droppedConstraints]
  cases x with
  | primaryKey key =>
    obtain rfl := Table.primaryKey_mem_constraints.mp hx
    have htouches := TablePair.touches_of_restructured hr hcol
    exact ⟨rfl, replacesPrimaryKey_iff.mpr (Or.inr ⟨hc, htouches⟩)⟩
  | unique u =>
    have htouches := TablePair.touches_of_restructured hr hcol
    refine ⟨Table.unique_mem_constraints.mp hx, ?_⟩
    exact Bool.or_eq_true_iff.mpr (Or.inr (Bool.and_eq_true_iff.mpr ⟨hc, htouches⟩))
  | index i =>
    have htouches := TablePair.touches_of_restructured hr hcol
    refine ⟨Table.index_mem_constraints.mp hx, ?_⟩
    exact Bool.or_eq_true_iff.mpr (Or.inr (Bool.and_eq_true_iff.mpr ⟨hc, htouches⟩))
  | foreignKey f =>
    refine ⟨Table.foreignKey_mem_constraints.mp hx, Or.inr ?_⟩
    have hsource : p.isRestructured f.column = true := List.mem_singleton.mp hcol ▸ hr
    have hflag : c.recreate.foreignKeys = true := hc
    simp [mustRebuild, hsource, hflag]

theorem addedForeignKeys_subset {t : Table} {f : ForeignKey} (hf : f ∈ c.addedForeignKeys t) :
    f ∈ t.foreignKeys := by
  unfold addedForeignKeys at hf
  split at hf
  · exact hf
  · exact (List.mem_filter.mp hf).1

/-- Views are dropped after those that read them, and created after those that they read. -/
def ViewOrder : Step → Step → Prop
  | .dropView v, .dropView w => v.name ∉ w.referencedTables
  | .createView v, .createView w => w.name ∉ v.referencedTables
  | _, _ => True

theorem viewOrder_of_phase {a b : Step} (h : a.phase = b.phase → a.phase ≠ 0 ∧ a.phase ≠ 10) :
    ViewOrder a b := by
  cases a <;> cases b <;> simp_all [ViewOrder, Step.phase]

theorem plan_viewOrder (ho : c.old.Built) (hn : c.new.Built) (hko : c.old.KindsApart)
    (hkn : c.new.KindsApart) (hvo : c.old.ViewsOrdered) (hvn : c.new.ViewsOrdered) :
    c.plan.Pairwise ViewOrder := by
  refine pairwise_plan (fun i steps hi => ?_) fun a b h => viewOrder_of_phase (by omega)
  by_cases h₀ : i = 0
  · subst h₀
    cases hi
    have hdropped := (hvo.pairwise ho hko).sublist (List.filter_sublist (p := fun v =>
      (c.goneViews []).contains v.name))
    exact List.pairwise_map.mpr (List.pairwise_reverse.mpr hdropped)
  · by_cases h₁ : i = 10
    · subst h₁
      cases hi
      exact List.pairwise_map.mpr ((hvn.pairwise hn hkn).sublist List.filter_sublist)
    · refine List.pairwise_of_forall_mem_list fun a ha b hb => viewOrder_of_phase ?_
      rw [phase_of_mem hi ha]
      exact fun _ => ⟨h₀, h₁⟩

/-- The catalog when the steps of `done` have run and those of `rest` are still to come. -/
structure Reaches (c : Comparison) (done rest : List Step) (k : Catalog) : Prop where
  old : c.old.Built
  new : c.new.Built
  split : c.plan = done ++ rest
  run : c.old.catalog.run done = some k

theorem exists_reaches (ho : c.old.Built) (hn : c.new.Built) {done rest : List Step}
    (h : c.plan = done ++ rest) : ∃ k, c.Reaches done rest k := by
  have hrun := Catalog.run_of_slots (run_slot ho hn) (run_views ho hn)
  rw [h, Catalog.run_append] at hrun
  obtain ⟨k, hk, -⟩ := Option.bind_eq_some_iff.mp hrun
  exact ⟨k, ho, hn, h, hk⟩

namespace Reaches

section Split

variable {done rest : List Step} {k : Catalog} (h : c.Reaches done rest k)
include h

theorem run_rest : k.run rest = some c.new.catalog := by
  have hrun := Catalog.run_of_slots (run_slot h.old h.new) (run_views h.old h.new)
  rw [h.split, Catalog.run_append, h.run, Option.bind_some] at hrun
  exact hrun

theorem done_mem_plan {x : Step} (hx : x ∈ done) : x ∈ c.plan :=
  h.split ▸ List.mem_append_left _ hx

/-- A step of a phase that is over has run. -/
theorem mem_done {n : Nat} (hn : ∀ x ∈ rest, n < x.phase) {x : Step} (hx : x ∈ c.plan)
    (hphase : x.phase ≤ n) : x ∈ done := by
  rw [h.split] at hx
  rcases List.mem_append.mp hx with hx | hx
  · exact hx
  · exact absurd (hn x hx) (by omega)

/-- Between the drops and the adds, a table in both schemas holds what the plan keeps of it. -/
theorem constraint_kept (h3 : ∀ x ∈ rest, 3 < x.phase) (h7 : ∀ x ∈ done, x.phase < 7)
    {p : TablePair} (hp : p ∈ c.surviving) {x : Constraint} (hx : k.Holds p.new.name x) :
    x ∈ p.old.constraints ∧ x ∉ c.droppedConstraints p := by
  have hold := (mem_surviving.mp hp).2
  rcases Catalog.run_holds h.run hx with ⟨⟨s, hs, hx⟩, hkeep⟩ | hadd | ⟨t, ht, hname, -⟩
  · have hstate : s = p.old.state := by
      simpa [Schema.catalog, hold, eq_comm] using hs
    rw [hstate, Table.state_holds] at hx
    refine ⟨hx, fun hdrop => hkeep (h.mem_done h3 ?_ (x.dropStep_phase _))⟩
    exact surviving_name hp ▸ dropStep_mem_plan h.old h.new hp hdrop
  · exact absurd (h7 _ hadd) (x.addStep_phase _).not_gt
  · obtain ⟨steps, hsteps, hmem⟩ := mem_phase (h.done_mem_plan ht)
    cases hsteps
    obtain ⟨t', ht', heq⟩ := List.mem_map.mp hmem
    cases heq
    rw [createdTables, List.mem_filter, hname, hold] at ht'
    exact absurd ht'.2 (by simp)

/-- Between the drops and the adds of foreign keys, each one that exists stays through the plan. -/
theorem foreignKey_kept (h2 : ∀ x ∈ rest, 2 < x.phase) (h8 : ∀ x ∈ done, x.phase < 8)
    {user : String} {f : ForeignKey} (hf : k.Holds user (.foreignKey f)) :
    ∃ p ∈ c.surviving, p.new.name = user ∧ f ∈ p.old.foreignKeys ∧ f ∈ p.new.foreignKeys ∧
      c.mustRebuild p f = false := by
  rcases Catalog.run_holds h.run hf with ⟨⟨s, hs, hf⟩, hkeep⟩ | hadd | ⟨_, -, -, hnot⟩
  · obtain ⟨o, hold, rfl⟩ := Option.map_eq_some_iff.mp hs
    have hmem : f ∈ o.foreignKeys := Table.foreignKey_mem_constraints.mp (Table.state_holds.mp hf)
    obtain ⟨-, rfl⟩ := h.old.findTable_iff.mp hold
    have hstays : .dropForeignKey o.name f ∉ c.plan :=
      fun hdrop => hkeep (h.mem_done h2 hdrop le_rfl)
    cases hnew : c.new.findTable? o.name with
    | none =>
      have hslice := slice_plan h.old h.new o.name
      rw [hold, hnew] at hslice
      refine absurd (List.mem_of_mem_filter (p := (·.table? = some o.name)) ?_) hstays
      rw [hslice]
      exact List.mem_append_left _ (List.mem_map_of_mem hmem)
    | some t =>
      obtain ⟨ht, hname⟩ := h.new.findTable_iff.mp hnew
      have hp : ⟨o, t⟩ ∈ c.surviving := mem_surviving.mpr ⟨ht, hname ▸ hold⟩
      have hkept : .foreignKey f ∉ c.droppedConstraints ⟨o, t⟩ := fun hdrop =>
        hstays (dropStep_mem_plan h.old h.new hp hdrop)
      rw [mem_droppedConstraints] at hkept
      simp only [hmem, true_and, not_or, not_not, Bool.not_eq_true] at hkept
      exact ⟨⟨o, t⟩, hp, hname, hmem, hkept⟩
  · exact absurd (h8 _ hadd) (by simp [Constraint.addStep, Step.phase])
  · exact absurd rfl (hnot f)

theorem view_kept (h0 : ∀ x ∈ rest, 0 < x.phase) (h10 : ∀ x ∈ done, x.phase < 10) {v : View}
    (hv : v ∈ k.views) : v ∈ c.old.views ∧ v ∉ c.droppedViews := by
  rcases Catalog.run_mem_views h.run hv with ⟨hv, hkeep⟩ | hnew
  · refine ⟨List.mem_toFinset.mp hv, fun hdrop => hkeep (h.mem_done h0 ?_ le_rfl)⟩
    rw [plan_eq_flatten]
    exact List.mem_flatten.mpr ⟨_, List.mem_cons_self,
      List.mem_map_of_mem (List.mem_reverse.mpr hdrop)⟩
  · exact absurd (h10 _ hnew) (by simp [Step.phase])

/-- Once the views are dropped, none reads a table whose columns change or that goes. -/
theorem not_reads (h0 : ∀ x ∈ rest, 0 < x.phase) (h10 : ∀ x ∈ done, x.phase < 10) {name : String}
    (ha : c.isAffected name = true) : ¬ k.Reads name := by
  rintro ⟨v, hv, hr⟩
  obtain ⟨hold, hkept⟩ := h.view_kept h0 h10 hv
  exact hkept (dropped_of_reads hold hr (Or.inl ha))

/-- From the keys on, every table has the columns of the new schema. -/
theorem columns_new (h7 : ∀ x ∈ rest, 7 ≤ x.phase) (name : String) :
    (k.tables name).map TableState.columns = (c.new.findTable? name).map Table.columnShape? := by
  rw [← Catalog.run_columns h.run_rest h7 name]
  simp [Schema.catalog, Function.comp_def, Table.state, Table.created]

end Split

variable {done rest : List Step} {e : Step} {k : Catalog} (h : c.Reaches done (e :: rest) k)
include h

theorem mem_plan : e ∈ c.plan :=
  h.split ▸ List.mem_append_right _ List.mem_cons_self

theorem earlier {n : Nat} (hn : e.phase < n) : ∀ x ∈ done, x.phase < n := by
  intro x hx
  have hsorted := plan_sorted (c := c)
  rw [h.split] at hsorted
  exact ((List.pairwise_append.mp hsorted).2.2 x hx e List.mem_cons_self).trans_lt hn

theorem later {n : Nat} (hn : n < e.phase) : ∀ x ∈ e :: rest, n < x.phase := by
  intro x hx
  have hsorted := plan_sorted (c := c)
  rw [h.split] at hsorted
  rcases List.mem_cons.mp hx with rfl | hx
  · exact hn
  · exact hn.trans_le ((List.pairwise_cons.mp (List.pairwise_append.mp hsorted).2.1).1 x hx)

theorem constraint_kept_at (h3 : 3 < e.phase) (h7 : e.phase < 7) {p : TablePair}
    (hp : p ∈ c.surviving) {x : Constraint} (hx : k.Holds p.new.name x) :
    x ∈ p.old.constraints ∧ x ∉ c.droppedConstraints p :=
  h.constraint_kept (h.later h3) (h.earlier h7) hp hx

theorem foreignKey_kept_at (h2 : 2 < e.phase) (h8 : e.phase < 8) {user : String} {f : ForeignKey}
    (hf : k.Holds user (.foreignKey f)) :
    ∃ p ∈ c.surviving, f ∈ p.new.foreignKeys ∧ c.mustRebuild p f = false := by
  obtain ⟨p, hp, -, -, hnew, hstays⟩ := h.foreignKey_kept (h.later h2) (h.earlier h8) hf
  exact ⟨p, hp, hnew, hstays⟩

theorem not_reads_at (h0 : 0 < e.phase) (h10 : e.phase < 10) {name : String}
    (ha : c.isAffected name = true) : ¬ k.Reads name :=
  h.not_reads (h.later h0) (h.earlier h10) ha

theorem dropColumn_safe (hr : c.new.resolve = .ok ()) {table : String} {column : Column}
    (he : e = .dropColumn table column) : e.Safe c.recreate k := by
  subst he
  obtain ⟨steps, hsteps, hmem⟩ := mem_phase h.mem_plan
  cases hsteps
  obtain ⟨p, hp, hmem⟩ := List.mem_flatMap.mp hmem
  simp only [List.mem_append, List.mem_map, reduceCtorEq, and_false, exists_false, false_or,
    Step.dropColumn.injEq] at hmem
  obtain ⟨dropped, hdrop, rfl, rfl⟩ := hmem
  obtain ⟨ht, hold⟩ := mem_surviving.mp hp
  have hvalid := h.new.table ht
  have hgone : dropped.name ∉ p.new.columnNames := by
    rw [← Table.columnShape_isSome, Table.columnShape?,
      Option.isNone_iff_eq_none.mp (List.mem_filter.mp hdrop).2]
    exact Bool.false_ne_true
  refine ⟨fun x hx hcol => ?_, fun user f hf htarget => ?_, ?_⟩
  · have hnew := ((kept_iff hp (h.old.table (h.old.findTable_iff.mp hold).1) hvalid x).mp
      (h.constraint_kept_at (by simp [Step.phase]) (by simp [Step.phase]) hp hx)).1
    exact hgone (hvalid.columns_of_constraint hnew _ hcol)
  · obtain ⟨q, hq, hfq, -⟩ := h.foreignKey_kept_at (by simp [Step.phase]) (by simp [Step.phase]) hf
    obtain ⟨target, htable, hcol⟩ := Schema.foreignKey_target hr (mem_surviving.mp hq).1 hfq
    rw [htarget.1, h.new.findTable_iff.mpr ⟨ht, rfl⟩] at htable
    cases htable
    rw [htarget.2, Option.isNone_iff_eq_none.mp (List.mem_filter.mp hdrop).2] at hcol
    cases hcol
  · exact h.not_reads_at (by simp [Step.phase]) (by simp [Step.phase])
      (isAffected_of_changes hp (TablePair.changesColumns_of_dropped hdrop))

theorem alterColumn_safe {table : String} {before after : Column} {change : ColumnChange}
    (he : e = .alterColumn table before after change) : e.Safe c.recreate k := by
  subst he
  obtain ⟨steps, hsteps, hmem⟩ := mem_phase h.mem_plan
  cases hsteps
  obtain ⟨p, hp, hmem⟩ := List.mem_flatMap.mp hmem
  simp only [List.mem_append, List.mem_map, reduceCtorEq, and_false, exists_false, or_false,
    Step.alterColumn.injEq] at hmem
  obtain ⟨a, ha, rfl, rfl, rfl, rfl⟩ := hmem
  refine ⟨h.not_reads_at (by simp [Step.phase]) (by simp [Step.phase])
    (isAffected_of_changes hp (TablePair.changesColumns_of_altered ha)), fun hstructural => ?_⟩
  have hr := TablePair.isRestructured_of_altered ha hstructural
  refine ⟨fun x hx hcovers hcol => ?_, fun hflag user f hf htarget => ?_⟩
  · obtain ⟨hold, hkept⟩ :=
      h.constraint_kept_at (by simp [Step.phase]) (by simp [Step.phase]) hp hx
    exact hkept (dropped_of_restructured hold hcovers hr hcol)
  · obtain ⟨q, hq, -, hstays⟩ :=
      h.foreignKey_kept_at (by simp [Step.phase]) (by simp [Step.phase]) hf
    have hfind : c.surviving.find? (fun q => q.new.name == f.reference.table) = some p :=
      (find_key_eq_some_iff (surviving_nodup h.new)).mpr ⟨hp, htarget.1.symm⟩
    rw [mustRebuild, hfind, htarget.2] at hstays
    simp [hflag, hr] at hstays

theorem dropTable_safe (hr : c.new.resolve = .ok ()) {t : Table} (he : e = .dropTable t) :
    e.Safe c.recreate k := by
  subst he
  obtain ⟨steps, hsteps, hmem⟩ := mem_phase h.mem_plan
  cases hsteps
  obtain ⟨t', ht, heq⟩ := List.mem_map.mp hmem
  cases heq
  refine ⟨fun user f _ hf htarget => ?_,
    h.not_reads_at (by simp [Step.phase]) (by simp [Step.phase]) (isAffected_of_dropped ht)⟩
  obtain ⟨q, hq, hfq, -⟩ := h.foreignKey_kept_at (by simp [Step.phase]) (by simp [Step.phase]) hf
  obtain ⟨target, htable, -⟩ := Schema.foreignKey_target hr (mem_surviving.mp hq).1 hfq
  have hnone := (List.mem_filter.mp ht).2
  rw [← htarget, htable] at hnone
  cases hnone

/-- A column of a key that goes is no target of a foreign key that is still there. -/
theorem untargeted_of_losesKey (he : e.phase = 3) {p : TablePair} (hp : p ∈ c.surviving)
    {column : String} (hl : p.losesKey c.recreate column = true) :
    k.Untargeted p.old.name column := by
  intro user f hf htarget
  obtain ⟨q, hq, -, hstays⟩ := h.foreignKey_kept_at (by omega) (by omega) hf
  have hunkeyed : c.isUnkeyed f.reference.table f.reference.column = true := by
    refine List.any_eq_true.mpr ⟨p, hp, ?_⟩
    rw [htarget.1, htarget.2, hl]
    simp
  rw [mustRebuild, hunkeyed, Bool.true_or] at hstays
  cases hstays

theorem dropPrimaryKey_safe {table : String} {key : PrimaryKey}
    (he : e = .dropPrimaryKey table key) : e.Safe c.recreate k := by
  subst he
  obtain ⟨steps, hsteps, hmem⟩ := mem_phase h.mem_plan
  cases hsteps
  obtain ⟨p, hp, hmem⟩ := List.mem_flatMap.mp hmem
  simp only [List.mem_append, List.mem_map, reduceCtorEq, and_false, exists_false, false_or,
    List.mem_ite_nil_right, List.mem_singleton, Step.dropPrimaryKey.injEq] at hmem
  obtain ⟨hreplaced, rfl, rfl⟩ := hmem
  intro column hcol
  refine h.untargeted_of_losesKey rfl hp ?_
  simp [TablePair.losesKey, hreplaced, hcol]

theorem dropUnique_safe {table : String} {u : UniqueConstraint} (he : e = .dropUnique table u) :
    e.Safe c.recreate k := by
  subst he
  obtain ⟨steps, hsteps, hmem⟩ := mem_phase h.mem_plan
  cases hsteps
  obtain ⟨p, hp, hmem⟩ := List.mem_flatMap.mp hmem
  simp only [List.mem_append, List.mem_map, reduceCtorEq, and_false, exists_false, or_false,
    List.mem_ite_nil_right, List.mem_singleton, Step.dropUnique.injEq] at hmem
  obtain ⟨dropped, hdrop, rfl, rfl⟩ := hmem
  intro column hcol
  refine h.untargeted_of_losesKey rfl hp ?_
  refine Bool.or_eq_true_iff.mpr (Or.inr (List.any_eq_true.mpr ⟨dropped, hdrop, ?_⟩))
  simpa using hcol

theorem dropView_safe (hko : c.old.KindsApart) (hvo : c.old.ViewsOrdered)
    (hkn : c.new.KindsApart) (hvn : c.new.ViewsOrdered) {v : View} (he : e = .dropView v) :
    e.Safe c.recreate k := by
  subst he
  obtain ⟨steps, hsteps, hmem⟩ := mem_phase h.mem_plan
  cases hsteps
  obtain ⟨v', hv, heq⟩ := List.mem_map.mp hmem
  cases heq
  have hdropped := List.mem_reverse.mp hv
  rintro ⟨w, hw, hr⟩
  rcases Catalog.run_mem_views h.run hw with ⟨hw, hkeep⟩ | hnew
  · have hold := List.mem_toFinset.mp hw
    have hdrop : .dropView w ∈ c.plan := by
      rw [plan_eq_flatten]
      exact List.mem_flatten.mpr ⟨_, List.mem_cons_self, List.mem_map_of_mem
        (List.mem_reverse.mpr (dropped_of_reads hold hr (Or.inr ⟨v, hdropped, rfl⟩)))⟩
    have horder := plan_viewOrder h.old h.new hko hkn hvo hvn
    rw [h.split] at hdrop horder
    rcases List.mem_append.mp hdrop with hdone | hrest
    · exact hkeep hdone
    · rcases List.mem_cons.mp hrest with heq | hrest
      · cases heq
        exact hvo.not_self h.old hko hold hr
      · exact (List.pairwise_cons.mp (List.pairwise_append.mp horder).2.1).1 _ hrest hr
  · exact absurd (h.earlier (n := 1) (by simp [Step.phase]) _ hnew) (by simp [Step.phase])

theorem table_there (h7 : 6 < e.phase) {name : String}
    (ht : (c.new.findTable? name).isSome = true) : (k.tables name).isSome = true := by
  have hcolumns := congrArg Option.isSome (h.columns_new (h.later h7) name)
  simpa [ht] using hcolumns

theorem createView_safe (hko : c.old.KindsApart) (hvo : c.old.ViewsOrdered)
    (hkn : c.new.KindsApart) (hvn : c.new.ViewsOrdered) {v : View} (he : e = .createView v) :
    e.Safe c.recreate k := by
  subst he
  obtain ⟨steps, hsteps, hmem⟩ := mem_phase h.mem_plan
  cases hsteps
  obtain ⟨v', hv, heq⟩ := List.mem_map.mp hmem
  cases heq
  have hnew : v ∈ c.new.views := (List.mem_filter.mp hv).1
  obtain ⟨i, hi, rfl⟩ := List.getElem_of_mem hnew
  intro name hr
  rcases hvn i hi name hr with ⟨t, ht, rfl⟩ | ⟨w, hw, rfl⟩
  · refine Or.inl (h.table_there (by simp [Step.phase]) ?_)
    rw [h.new.findTable_iff.mpr ⟨ht, rfl⟩]
    rfl
  · have hlast : w ∈ c.new.catalog.views := List.mem_toFinset.mpr (List.mem_of_mem_take hw)
    have horder := plan_viewOrder h.old h.new hko hkn hvo hvn
    rw [h.split] at horder
    rcases Catalog.run_mem_views h.run_rest hlast with ⟨hw, -⟩ | hlater
    · exact Or.inr ⟨w, hw, rfl⟩
    · rcases List.mem_cons.mp hlater with heq | hlater
      · cases heq
        exact absurd hr (hvn.not_self h.new hkn hnew)
      · have hnot := (List.pairwise_cons.mp (List.pairwise_append.mp horder).2.1).1 _ hlater
        exact absurd hr hnot

theorem addForeignKey_safe (hr : c.new.resolve = .ok ()) {table : String} {f : ForeignKey}
    (he : e = .addForeignKey table f) : e.Safe c.recreate k := by
  subst he
  obtain ⟨steps, hsteps, hmem⟩ := mem_phase h.mem_plan
  cases hsteps
  obtain ⟨t, ht, hmem⟩ := List.mem_flatMap.mp hmem
  obtain ⟨f', hf, heq⟩ := List.mem_map.mp hmem
  cases heq
  obtain ⟨target, htable, hcol⟩ := Schema.foreignKey_target hr ht (addedForeignKeys_subset hf)
  have hnew := h.columns_new (h.later (by simp [Step.phase])) f.reference.table
  rw [htable] at hnew
  obtain ⟨s, hs, hcolumns⟩ := Option.map_eq_some_iff.mp hnew
  refine ⟨s, hs, ?_⟩
  rw [hcolumns, Table.columnShape?, Option.isSome_map, hcol]

theorem createTrigger_safe (hr : c.new.resolve = .ok ()) {t : Table} (he : e = .createTrigger t) :
    e.Safe c.recreate k := by
  subst he
  obtain ⟨steps, hsteps, hmem⟩ := mem_phase h.mem_plan
  cases hsteps
  obtain ⟨t', ht, heq⟩ := List.mem_map.mp hmem
  cases heq
  intro d hd
  exact h.table_there (by simp [Step.phase])
    (Schema.action_target hr (List.mem_filter.mp ht).1 hd)

end Reaches

end Comparison

/-- Whatever step of a plan comes next, the catalog at that point is one in which it breaks
nothing. -/
theorem diff_steps_safe {old new : Schema} (ho : old.Built) (hn : new.Built)
    (hr : new.resolve = .ok ()) (hko : old.KindsApart) (hkn : new.KindsApart)
    (hvo : old.ViewsOrdered) (hvn : new.ViewsOrdered) (recreate : RecreateOptions)
    (done rest : List Step) (e : Step) (h : diff old new recreate = done ++ e :: rest) :
    ∃ k, old.catalog.run done = some k ∧ e.Safe recreate k := by
  obtain ⟨k, hk⟩ := Comparison.exists_reaches (c := ⟨old, new, recreate⟩) ho hn h
  refine ⟨k, hk.run, ?_⟩
  cases e with
  | dropView _ => exact hk.dropView_safe hko hvo hkn hvn rfl
  | dropUnique _ _ => exact hk.dropUnique_safe rfl
  | dropPrimaryKey _ _ => exact hk.dropPrimaryKey_safe rfl
  | dropTable _ => exact hk.dropTable_safe hr rfl
  | alterColumn _ _ _ _ => exact hk.alterColumn_safe rfl
  | dropColumn _ _ => exact hk.dropColumn_safe hr rfl
  | addForeignKey _ _ => exact hk.addForeignKey_safe hr rfl
  | createTrigger _ => exact hk.createTrigger_safe hr rfl
  | createView _ => exact hk.createView_safe hko hvo hkn hvn rfl
  | _ => trivial

theorem widening_alters_safely :
    Sample.widerShop.resolve = .ok () ∧ Sample.shop.KindsApart ∧ Sample.shop.ViewsOrdered ∧
      ∃ k, Sample.shop.catalog.run ((diff Sample.shop Sample.widerShop .all).take 10) = some k ∧
        (Step.alterColumn "Customer" { name := "id", dataType := .integer, nullable := false }
          { name := "id", dataType := .bigInt, nullable := false } { dataType := true }).Safe
          .all k :=
  ⟨by decide +kernel, by decide, by decide,
    diff_steps_safe Sample.shop_built Sample.widerShop_built (by decide +kernel) (by decide)
      (by decide) (by decide) (by decide) .all _
      ((diff Sample.shop Sample.widerShop .all).drop 11) _ (by decide +kernel)⟩

end Schemata
