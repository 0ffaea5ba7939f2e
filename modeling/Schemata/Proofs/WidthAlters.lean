import Schemata.Proofs.EmptyPlan
import Schemata.Proofs.NativeTypes

/-! Alters that a migration has on top of its plan, for columns that enter or leave a key. They run
where the constraints that go are gone and those that come have not come yet; what is there then
is in both schemas, and would have kept the column in a key. -/
namespace Schemata

theorem Step.createsDependent_iff (e : Step) : e.createsDependent = true ↔ 7 ≤ e.phase := by
  cases e <;> simp [createsDependent, phase]

/-- In a list sorted by phase, what creates dependents comes last. -/
theorem span_dependents {steps : List Step} (h : steps.Pairwise fun a b => a.phase ≤ b.phase) :
    steps.takeWhile (fun e => !e.createsDependent) = steps.filter (fun e => !e.createsDependent) ∧
      steps.dropWhile (fun e => !e.createsDependent) = steps.filter (·.createsDependent) := by
  induction steps with
  | nil => exact ⟨rfl, rfl⟩
  | cons e steps ih =>
    rw [List.pairwise_cons] at h
    cases he : e.createsDependent with
    | false => simp [he, ih h.2]
    | true =>
      have hall : ∀ x ∈ steps, x.createsDependent = true := fun x hx => by
        rw [Step.createsDependent_iff] at he ⊢
        exact he.trans (h.1 x hx)
      have hnone : steps.filter (fun e => !e.createsDependent) = [] :=
        List.filter_eq_nil_iff.mpr fun x hx => by simp [hall x hx]
      simp [he, hnone, List.filter_eq_self.mpr hall]

namespace Comparison

variable {c : Comparison}

/-- The plan up to the first step that creates a dependent. -/
def early (c : Comparison) : List Step :=
  c.plan.filter fun e => !e.createsDependent

def late (c : Comparison) : List Step :=
  c.plan.filter (·.createsDependent)

theorem early_append_late : c.early ++ c.late = c.plan := by
  obtain ⟨htake, hdrop⟩ := span_dependents (plan_sorted (c := c))
  rw [early, late, ← htake, ← hdrop, List.takeWhile_append_dropWhile]

theorem insertAlters_plan (alters : List Step) :
    Plan.insertAlters c.plan alters = c.early ++ alters ++ c.late := by
  obtain ⟨htake, hdrop⟩ := span_dependents (plan_sorted (c := c))
  rw [Plan.insertAlters, htake, hdrop]
  rfl

theorem early_phase {e : Step} (he : e ∈ c.early) : e.phase < 7 := by
  have hnot := (List.mem_filter.mp he).2
  rwa [Bool.not_eq_true', ← Bool.not_eq_true, Step.createsDependent_iff, not_le] at hnot

theorem late_phase {e : Step} (he : e ∈ c.late) : 7 ≤ e.phase :=
  (Step.createsDependent_iff e).mp (List.mem_filter.mp he).2

namespace Reaches

variable {k : Catalog} (h : c.Reaches c.early c.late k) {p : TablePair} (hp : p ∈ c.surviving)
  {column : String}
include h hp

/-- A constraint that is there between the drops and the adds is in both schemas. -/
theorem isKeyColumn_of_held {x : Constraint} (hx : k.Holds p.new.name x) (hc : column ∈ x.columns) :
    c.old.isKeyColumn p.old column = true ∧ c.new.isKeyColumn p.new column = true := by
  obtain ⟨hmem, hfind⟩ := mem_surviving.mp hp
  have hkept := h.constraint_kept (fun x hx => (late_phase hx).trans_lt' (by decide))
    (fun x hx => early_phase hx) hp hx
  have hnew := (kept_iff hp (h.old.table (h.old.findTable_iff.mp hfind).1) (h.new.table hmem) x).mp
    hkept
  simp only [Schema.isKeyColumn, Bool.or_eq_true]
  exact ⟨Or.inl (Table.isKeyColumn_iff.mpr ⟨x, Table.state_holds.mpr hkept.1, hc⟩),
    Or.inl (Table.isKeyColumn_iff.mpr ⟨x, Table.state_holds.mpr hnew.1, hc⟩)⟩

theorem isKeyColumn_of_targeted {user : String} {f : ForeignKey}
    (hf : k.Holds user (.foreignKey f)) (ht : f.reference.table = p.new.name)
    (hc : f.reference.column = column) :
    c.old.isKeyColumn p.old column = true ∧ c.new.isKeyColumn p.new column = true := by
  obtain ⟨q, hq, -, hold, hnew, -⟩ := h.foreignKey_kept
    (fun x hx => (late_phase hx).trans_lt' (by decide))
    (fun x hx => (early_phase hx).trans (by decide)) hf
  obtain ⟨hmem, hfind⟩ := mem_surviving.mp hq
  have hreferenced : ∀ {s : Schema} {t : Table}, t ∈ s.tables → f ∈ t.foreignKeys →
      s.isReferenced p.new.name column = true := fun hmem hf =>
    List.any_eq_true.mpr ⟨_, hmem, List.any_eq_true.mpr ⟨f, hf, by simp [ht, hc]⟩⟩
  simp only [Schema.isKeyColumn, Bool.or_eq_true, surviving_name hp]
  exact ⟨Or.inr (hreferenced (h.old.findTable_iff.mp hfind).1 hold), Or.inr (hreferenced hmem hnew)⟩

omit hp in
/-- Once the columns have changed, an alter between versions of one shape finds its column and
leaves it as it is. -/
theorem step_alterColumn {t : Table} (ht : t ∈ c.new.tables) {before after : Column}
    (ha : after ∈ t.columns) (hname : before.name = after.name)
    (hshape : before.shape = after.shape) (change : ColumnChange) :
    k.step (.alterColumn t.name before after change) = some k := by
  have hcolumns := h.columns_new (fun x hx => late_phase hx) t.name
  rw [h.new.findTable_iff.mpr ⟨ht, rfl⟩, Option.map_some] at hcolumns
  obtain ⟨s, hs, hcolumns⟩ := Option.map_eq_some_iff.mp hcolumns
  have hthere : s.columns after.name = some after.shape := by
    rw [hcolumns, columnShape_of_mem (h.new.table ht) ha]
  have hslot : Slot.step (some s) (.alterColumn t.name before after change) = some (some s) := by
    have hen : s.Enabled (.alterColumn t.name before after change) :=
      ⟨hname.symm, by rw [hname, hthere, hshape]⟩
    have hnext : s.next (.alterColumn t.name before after change) = s := by
      simp only [TableState.next, ← hthere, Function.update_eq_self]
    simp [Slot.step, Slot.Enabled, Slot.next, hen, hnext]
  simp only [Catalog.step, Step.table?, hs, hslot, Option.map_some]
  rw [← hs, Function.update_eq_self]

end Reaches

end Comparison

namespace Catalog

theorem run_of_idle {k : Catalog} {steps : List Step} (h : ∀ e ∈ steps, k.step e = some k) :
    k.run steps = some k := by
  induction steps with
  | nil => rfl
  | cons e steps ih =>
    rw [run, List.foldlM_cons, h e List.mem_cons_self]
    exact ih fun x hx => h x (List.mem_cons_of_mem e hx)

end Catalog

namespace Dialect

variable {d : Dialect} {old new : Schema}

/-- The type of a column depends on its key status alone, so an alter for its width means that the
status has changed. -/
theorem isKeyColumn_ne_of_changesWidth {p : TablePair} {column : Column}
    (h : d.changesWidth old new p column = true) :
    old.isKeyColumn p.old column.name ≠ new.isKeyColumn p.new column.name :=
  (columnType_key (bne_iff_ne.mp h)).2.2

/-- A migration puts its alters of widths between the steps of the plan that create no dependents
and those that do, and leaves these as they are. When an alter runs, no constraint of the table is
on its column and no foreign key targets it. -/
theorem width_alters_at_safe_point (ho : old.Built) (hn : new.Built) (d : Dialect) :
    let c : Comparison := ⟨old, new, d.recreateOptions⟩
    let alters := d.widthAlters old new c.plan
    c.plan = c.early ++ c.late ∧ d.migrationPlan old new = c.early ++ alters ++ c.late ∧
      ∀ done e rest, alters = done ++ e :: rest →
        ∃ table before after, e = .alterColumn table before after { dataType := true } ∧
          ∃ k, old.catalog.run (c.early ++ done) = some k ∧
            (∀ x, k.Holds table x → after.name ∉ x.columns) ∧ k.Untargeted table after.name := by
  intro c alters
  refine ⟨Comparison.early_append_late.symm, Comparison.insertAlters_plan _, ?_⟩
  intro done e rest hsplit
  obtain ⟨k, hk⟩ := Comparison.exists_reaches (c := c) ho hn Comparison.early_append_late.symm
  have hidle : ∀ x ∈ alters, k.step x = some k := by
    intro x hx
    obtain ⟨t, ht, o, hold, after, ha, before, hb, hfree, -, rfl⟩ := mem_widthAlters.mp hx
    have hsame : (ColumnChange.between before after).isEmpty = true := by
      have hchanged := (alters_iff_changed hn ht hold ha hb d.recreateOptions).not
      rw [Bool.not_eq_true, Bool.not_eq_false] at hchanged
      exact hchanged.mp hfree
    rw [← TablePair.changeOf_isEmpty false, TablePair.changeOf_isEmpty_iff] at hsame
    obtain ⟨hmem, -⟩ := ho.findTable_iff.mp hold
    exact hk.step_alterColumn ht ha ((ho.table hmem).findColumn_iff.mp hb).2 hsame _
  have he : e ∈ alters := hsplit ▸ List.mem_append_right _ List.mem_cons_self
  obtain ⟨t, ht, o, hold, after, -, before, -, -, hwidth, rfl⟩ := mem_widthAlters.mp he
  have hflip := isKeyColumn_ne_of_changesWidth hwidth
  have hp : ⟨o, t⟩ ∈ c.surviving := Comparison.mem_surviving.mpr ⟨ht, hold⟩
  refine ⟨t.name, before, after, rfl, k, ?_, fun x hx hcolumn => ?_, fun user f hf htarget => ?_⟩
  · rw [Catalog.run_append, hk.run, Option.bind_some]
    exact Catalog.run_of_idle fun x hx => hidle x (hsplit ▸ List.mem_append_left _ hx)
  · obtain ⟨hbefore, hafter⟩ := hk.isKeyColumn_of_held hp hx hcolumn
    exact hflip (hbefore.trans hafter.symm)
  · obtain ⟨hbefore, hafter⟩ := hk.isKeyColumn_of_targeted hp hf htarget.1 htarget.2
    exact hflip (hbefore.trans hafter.symm)

end Dialect

namespace Sample

/-- Articles with codes of their own; labels name an article by its number. -/
def catalogue : Schema where
  tables := [
    { name := "Article"
      columns := [
        { name := "Id", dataType := .integer, nullable := false },
        { name := "Code", dataType := .varchar 20 },
        { name := "Alias", dataType := .varchar 20 }]
      primaryKey := ⟨"PK_Article", ["Id"]⟩
      uniques := [⟨"UQ_Article", ["Alias"]⟩] },
    { name := "Label"
      columns := [
        { name := "Id", dataType := .integer, nullable := false },
        { name := "Code", dataType := .varchar 20 }]
      primaryKey := ⟨"PK_Label", ["Id"]⟩
      declaredForeignKeys := [⟨"FK_Label", "Id", "Article", "Id", none, none⟩] }]

/-- Labels name an article by its code, which is unique instead of the alias. -/
def recodedCatalogue : Schema where
  tables := [
    { name := "Article"
      columns := [
        { name := "Id", dataType := .integer, nullable := false },
        { name := "Code", dataType := .varchar 20 },
        { name := "Alias", dataType := .varchar 20 }]
      primaryKey := ⟨"PK_Article", ["Id"]⟩
      uniques := [⟨"UQ_Article", ["Code"]⟩] },
    { name := "Label"
      columns := [
        { name := "Id", dataType := .integer, nullable := false },
        { name := "Code", dataType := .varchar 20 }]
      primaryKey := ⟨"PK_Label", ["Id"]⟩
      declaredForeignKeys := [⟨"FK_Label", "Code", "Article", "Code", none, none⟩] }]

/-- An alter that only states the width of a text again. -/
def restated (table column : String) : Step :=
  .alterColumn table { name := column, dataType := .varchar 20 }
    { name := column, dataType := .varchar 20 } { dataType := true }

theorem catalogue_built : catalogue.Built :=
  Schema.built_of_drafts (by decide) (by decide) rfl

theorem recodedCatalogue_built : recodedCatalogue.Built :=
  Schema.built_of_drafts (by decide) (by decide) rfl

end Sample

/-- The alias leaves a key after the code has entered one: when it is altered, the constraint on it
is gone. -/
theorem alias_leaves_key :
    Sample.catalogue.catalog.Holds "Article" (.unique ⟨"UQ_Article", ["Alias"]⟩) ∧
    ∃ k, Sample.catalogue.catalog.run
        ((Comparison.mk Sample.catalogue Sample.recodedCatalogue
          Dialect.sqlServer.recreateOptions).early ++ [Sample.restated "Article" "Code"]) = some k ∧
      (∀ x, k.Holds "Article" x → "Alias" ∉ x.columns) ∧ k.Untargeted "Article" "Alias" := by
  obtain ⟨-, -, hsafe⟩ := Dialect.width_alters_at_safe_point Sample.catalogue_built
    Sample.recodedCatalogue_built .sqlServer
  obtain ⟨_, _, _, heq, hk⟩ := hsafe [Sample.restated "Article" "Code"]
    (Sample.restated "Article" "Alias") [Sample.restated "Label" "Code"]
    (by with_unfolding_all decide)
  cases heq
  exact ⟨⟨_, rfl, List.mem_toFinset.mpr List.mem_cons_self⟩, hk⟩

end Schemata
