import Schemata.Proofs.Constraint

/-! Where the constraints and views come from that a catalog holds after a run: they were there
before and no step dropped them, or a step brought them in. -/
namespace Schemata

namespace Slot

/-- A constraint on the table after a step was there before it, or the step brought it. -/
theorem step_holds {slot : Slot} {e : Step} {table : String} (ht : e.table? = some table)
    {s' : TableState} (h : Slot.step slot e = some (some s')) {x : Constraint} (hx : s'.Holds x) :
    (∃ s, slot = some s ∧ s.Holds x ∧ e ≠ x.dropStep table) ∨ e = x.addStep table ∨
      ∃ t, e = .createTable t ∧ t.name = table ∧ ∀ f, x ≠ .foreignKey f := by
  unfold Slot.step at h
  split at h
  · rename_i hen
    have hnext : Slot.next slot e = some s' := Option.some.inj h
    cases slot with
    | none =>
      cases e with
      | createTable t =>
        cases hnext
        exact Or.inr (Or.inr ⟨t, rfl, Option.some.inj ht, (Table.created_holds.mp hx).2⟩)
      | _ => exact hen.elim
    | some s =>
      cases e with
      | createTable t => exact hen.elim
      | dropTable t => cases hnext
      | dropView _ | createView _ => cases ht
      | _ =>
        cases hnext
        cases ht
        cases x <;> simp_all [TableState.Holds, TableState.next, TableState.Enabled, Slot.Enabled,
          Constraint.dropStep, Constraint.addStep, eq_comm, or_comm]
  · cases h

/-- From the keys on, a step leaves the columns of a table alone. -/
theorem step_columns {slot slot' : Slot} {e : Step} (he : 7 ≤ e.phase)
    (h : Slot.step slot e = some slot') :
    slot'.map TableState.columns = slot.map TableState.columns := by
  unfold Slot.step at h
  split at h
  · rename_i hen
    cases h
    cases slot with
    | none => cases e <;> simp_all [Step.phase, Slot.Enabled]
    | some s => cases e <;> simp_all [Step.phase, Slot.next, TableState.next]
  · cases h

end Slot

namespace Catalog

variable {c c' : Catalog} {steps : List Step}

def Holds (c : Catalog) (table : String) (x : Constraint) : Prop :=
  ∃ s, c.tables table = some s ∧ s.Holds x

/-- Some view in the catalog reads a table or view of that name. -/
def Reads (c : Catalog) (name : String) : Prop :=
  ∃ v ∈ c.views, name ∈ v.referencedTables

theorem step_slot {e : Step} (h : c.step e = some c') {name : String}
    (hname : e.table? = some name) : Slot.step (c.tables name) e = some (c'.tables name) := by
  rw [step, hname] at h
  obtain ⟨slot, hslot, rfl⟩ := Option.map_eq_some_iff.mp h
  simp [hslot]

theorem step_frame {e : Step} (h : c.step e = some c') {name : String}
    (hname : e.table? ≠ some name) : c'.tables name = c.tables name := by
  unfold step at h
  split at h
  · rename_i n hn
    obtain ⟨slot, -, rfl⟩ := Option.map_eq_some_iff.mp h
    refine Function.update_of_ne (fun he => hname ?_) _ _
    rw [hn, he]
  · obtain ⟨views, -, rfl⟩ := Option.map_eq_some_iff.mp h
    rfl

theorem run_concat (c : Catalog) (steps : List Step) (e : Step) :
    c.run (steps ++ [e]) = (c.run steps).bind (·.step e) := by
  rw [run, List.foldlM_append]
  simp [run, bind]

theorem run_append (c : Catalog) (as bs : List Step) :
    c.run (as ++ bs) = (c.run as).bind (·.run bs) :=
  List.foldlM_append ..

/-- What holds after a run held before and was not lost, or was gained on the way. -/
theorem run_origin (P : Catalog → Prop) (Loses Gains : Step → Prop)
    (hstep : ∀ {c e c'}, c.step e = some c' → P c' → (P c ∧ ¬ Loses e) ∨ Gains e)
    (h : c.run steps = some c') (hp : P c') :
    (P c ∧ ∀ e ∈ steps, ¬ Loses e) ∨ ∃ e ∈ steps, Gains e := by
  induction steps using List.reverseRecOn generalizing c' with
  | nil =>
    cases h
    exact Or.inl ⟨hp, fun e he => nomatch he⟩
  | append_singleton steps e ih =>
    rw [run_concat] at h
    obtain ⟨c₁, h₁, h⟩ := Option.bind_eq_some_iff.mp h
    rcases hstep h hp with ⟨hp₁, hl⟩ | hg
    · rcases ih h₁ hp₁ with ⟨hp, hls⟩ | ⟨e', he', hg⟩
      · refine Or.inl ⟨hp, fun e' he' => ?_⟩
        rcases List.mem_append.mp he' with he' | he'
        · exact hls e' he'
        · rw [List.mem_singleton.mp he']
          exact hl
      · exact Or.inr ⟨e', List.mem_append_left _ he', hg⟩
    · exact Or.inr ⟨e, List.mem_append_right _ (List.mem_singleton_self e), hg⟩

theorem step_holds {e : Step} (h : c.step e = some c') {table : String} {x : Constraint}
    (hx : c'.Holds table x) :
    (c.Holds table x ∧ e ≠ x.dropStep table) ∨ e = x.addStep table ∨
      ∃ t, e = .createTable t ∧ t.name = table ∧ ∀ f, x ≠ .foreignKey f := by
  obtain ⟨s', hs', hx⟩ := hx
  by_cases ht : e.table? = some table
  · have hslot := step_slot h ht
    rw [hs'] at hslot
    rcases Slot.step_holds ht hslot hx with ⟨s, hs, hsx, hne⟩ | hadd
    · exact Or.inl ⟨⟨s, hs, hsx⟩, hne⟩
    · exact Or.inr hadd
  · rw [step_frame h ht] at hs'
    refine Or.inl ⟨⟨s', hs', hx⟩, fun he => ht ?_⟩
    rw [he]
    cases x <;> rfl

/-- A constraint that a run leaves on a table: it was there and no step dropped it, or a step
added it, or the table was created with it. -/
theorem run_holds (h : c.run steps = some c') {table : String} {x : Constraint}
    (hx : c'.Holds table x) :
    (c.Holds table x ∧ x.dropStep table ∉ steps) ∨ x.addStep table ∈ steps ∨
      ∃ t, .createTable t ∈ steps ∧ t.name = table ∧ ∀ f, x ≠ .foreignKey f := by
  rcases run_origin (·.Holds table x) (· = x.dropStep table)
    (fun e => e = x.addStep table ∨ ∃ t, e = .createTable t ∧ t.name = table ∧
      ∀ f, x ≠ .foreignKey f) (fun hs hx => step_holds hs hx) h hx
    with ⟨hx, hl⟩ | ⟨e, he, rfl | ⟨t, rfl, ht⟩⟩
  · exact Or.inl ⟨hx, fun hmem => hl _ hmem rfl⟩
  · exact Or.inr (Or.inl he)
  · exact Or.inr (Or.inr ⟨t, he, ht⟩)

theorem step_mem_views {e : Step} (h : c.step e = some c') {v : View} (hv : v ∈ c'.views) :
    (v ∈ c.views ∧ e ≠ .dropView v) ∨ e = .createView v := by
  cases e with
  | dropView w =>
    obtain ⟨views, hs, rfl⟩ := Option.map_eq_some_iff.mp h
    obtain ⟨-, hs⟩ := Option.ite_none_right_eq_some.mp hs
    rw [← Option.some.inj hs] at hv
    obtain ⟨hne, hv⟩ := Finset.mem_erase.mp hv
    exact Or.inl ⟨hv, fun he => hne (Step.dropView.inj he).symm⟩
  | createView w =>
    obtain ⟨views, hs, rfl⟩ := Option.map_eq_some_iff.mp h
    obtain ⟨-, hs⟩ := Option.ite_none_right_eq_some.mp hs
    rw [← Option.some.inj hs] at hv
    rcases Finset.mem_insert.mp hv with rfl | hv
    · exact Or.inr rfl
    · exact Or.inl ⟨hv, Step.noConfusion⟩
  | _ =>
    obtain ⟨slot, -, rfl⟩ := Option.map_eq_some_iff.mp h
    exact Or.inl ⟨hv, Step.noConfusion⟩

theorem run_mem_views (h : c.run steps = some c') {v : View} (hv : v ∈ c'.views) :
    (v ∈ c.views ∧ .dropView v ∉ steps) ∨ .createView v ∈ steps := by
  rcases run_origin (v ∈ ·.views) (· = .dropView v) (· = .createView v)
    (fun hs hv => step_mem_views hs hv) h hv with ⟨hv, hl⟩ | ⟨e, he, rfl⟩
  · exact Or.inl ⟨hv, fun hmem => hl _ hmem rfl⟩
  · exact Or.inr he

theorem run_columns (h : c.run steps = some c') (hs : ∀ e ∈ steps, 7 ≤ e.phase) (name : String) :
    (c'.tables name).map TableState.columns = (c.tables name).map TableState.columns := by
  induction steps generalizing c with
  | nil =>
    cases h
    rfl
  | cons e steps ih =>
    rw [run, List.foldlM_cons] at h
    obtain ⟨c₁, h₁, h⟩ := Option.bind_eq_some_iff.mp h
    refine (ih h fun e' he' => hs e' (List.mem_cons_of_mem e he')).trans ?_
    by_cases ht : e.table? = some name
    · exact Slot.step_columns (hs e List.mem_cons_self) (step_slot h₁ ht)
    · rw [step_frame h₁ ht]

end Catalog

end Schemata
