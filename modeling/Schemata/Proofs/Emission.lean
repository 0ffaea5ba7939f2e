import Schemata.Migration
import Schemata.Proofs.Built
import Mathlib.Data.List.Perm.Basic

/-! How statements are gathered: a list of things is written one after the other, and the first
that cannot be written ends it. A migration script has room for the statements of every step. -/
namespace Schemata

theorem exists_ok_of_isOk {ε α : Type} {x : Except ε α} (h : x.isOk = true) : ∃ a, x = .ok a := by
  cases x with
  | error e => cases h
  | ok a => exact ⟨a, rfl⟩

theorem mapM_ok_of_forall {ε α β : Type} {f : α → Except ε β} {l : List α}
    (h : ∀ a ∈ l, ∃ b, f a = .ok b) : ∃ bs, l.mapM f = .ok bs := by
  induction l with
  | nil => exact ⟨[], rfl⟩
  | cons a l ih =>
    obtain ⟨b, hb⟩ := h a List.mem_cons_self
    obtain ⟨bs, hbs⟩ := ih fun x hx => h x (List.mem_cons_of_mem a hx)
    refine ⟨b :: bs, ?_⟩
    rw [List.mapM_cons, hb, hbs]
    rfl

theorem mapM_ok_mem {ε α β : Type} {f : α → Except ε β} {l : List α} {bs : List β}
    (h : l.mapM f = .ok bs) {a : α} (ha : a ∈ l) : ∃ b ∈ bs, f a = .ok b := by
  induction l generalizing bs with
  | nil => cases ha
  | cons x l ih =>
    rw [List.mapM_cons] at h
    obtain ⟨b, hb, h⟩ := bind_ok_iff.mp h
    obtain ⟨rest, hrest, h⟩ := bind_ok_iff.mp h
    cases h
    rcases List.mem_cons.mp ha with rfl | ha
    · exact ⟨b, List.mem_cons_self, hb⟩
    · obtain ⟨b', hb', hf⟩ := ih hrest ha
      exact ⟨b', List.mem_cons_of_mem b hb', hf⟩

theorem mem_of_mapM_ok {ε α β : Type} {f : α → Except ε β} {l : List α} {bs : List β}
    (h : l.mapM f = .ok bs) {b : β} (hb : b ∈ bs) : ∃ a ∈ l, f a = .ok b := by
  induction l generalizing bs with
  | nil =>
    cases h
    cases hb
  | cons a l ih =>
    rw [List.mapM_cons] at h
    obtain ⟨first, hfirst, h⟩ := bind_ok_iff.mp h
    obtain ⟨rest, hrest, h⟩ := bind_ok_iff.mp h
    cases h
    rcases List.mem_cons.mp hb with rfl | hb
    · exact ⟨a, List.mem_cons_self, hfirst⟩
    · obtain ⟨a', ha', hf⟩ := ih hrest hb
      exact ⟨a', List.mem_cons_of_mem a ha', hf⟩

section EmitAll

variable {α β : Type} {f : α → Emit}

theorem emitAll_cons (f : α → Emit) (a : α) (l : List α) :
    emitAll f (a :: l) = f a >>= fun x => emitAll f l >>= fun xs => .ok (x ++ xs) := by
  unfold emitAll
  rw [List.mapM_cons]
  cases f a with
  | error e => rfl
  | ok x => cases l.mapM f <;> rfl

theorem emitAll_append (f : α → Emit) (as bs : List α) :
    emitAll f (as ++ bs) = emitAll f as >>= fun x => emitAll f bs >>= fun y => .ok (x ++ y) := by
  induction as with
  | nil =>
    rw [List.nil_append]
    cases h : emitAll f bs <;> rfl
  | cons a as ih =>
    rw [List.cons_append, emitAll_cons, emitAll_cons, ih]
    cases f a with
    | error e => rfl
    | ok x =>
      cases emitAll f as with
      | error e => rfl
      | ok xs =>
        cases emitAll f bs with
        | error e => rfl
        | ok ys => exact congrArg Except.ok (List.append_assoc x xs ys).symm

theorem emitAll_map (f : α → Emit) (g : β → α) (l : List β) :
    emitAll f (l.map g) = emitAll (fun b => f (g b)) l := by
  induction l with
  | nil => rfl
  | cons b l ih => rw [List.map_cons, emitAll_cons, emitAll_cons, ih]

theorem emitAll_flatMap (f : α → Emit) (g : β → List α) (l : List β) :
    emitAll f (l.flatMap g) = emitAll (fun b => emitAll f (g b)) l := by
  induction l with
  | nil => rfl
  | cons b l ih => rw [List.flatMap_cons, emitAll_append, emitAll_cons, ih]

theorem emitAll_congr {g : α → Emit} {l : List α} (h : ∀ a ∈ l, f a = g a) :
    emitAll f l = emitAll g l := by
  induction l with
  | nil => rfl
  | cons a l ih =>
    rw [emitAll_cons, emitAll_cons, h a List.mem_cons_self,
      ih fun b hb => h b (List.mem_cons_of_mem a hb)]

/-- What never fails is written as it is. -/
theorem emitAll_ok_of_forall {g : α → List Statement} {l : List α}
    (h : ∀ a ∈ l, f a = .ok (g a)) : emitAll f l = .ok (l.flatMap g) := by
  induction l with
  | nil => rfl
  | cons a l ih =>
    rw [emitAll_cons, h a List.mem_cons_self, ih fun b hb => h b (List.mem_cons_of_mem a hb)]
    rfl

/-- Once all is written, each element has been, and its statements stand in the whole in their
order. -/
theorem emitAll_ok_mem {l : List α} {out : List Statement} (h : emitAll f l = .ok out) {a : α}
    (ha : a ∈ l) : ∃ statements, f a = .ok statements ∧ statements.Sublist out := by
  cases hm : l.mapM f with
  | error e =>
    rw [emitAll, hm] at h
    cases h
  | ok lists =>
    rw [emitAll, hm] at h
    cases h
    obtain ⟨statements, hmem, hstatements⟩ := mapM_ok_mem hm ha
    exact ⟨statements, hstatements, List.sublist_flatten_of_mem hmem⟩

theorem mem_of_emitAll_ok {l : List α} {out : List Statement} (h : emitAll f l = .ok out)
    {x : Statement} (hx : x ∈ out) :
    ∃ a ∈ l, ∃ statements, f a = .ok statements ∧ x ∈ statements := by
  cases hm : l.mapM f with
  | error e =>
    rw [emitAll, hm] at h
    cases h
  | ok lists =>
    rw [emitAll, hm] at h
    cases h
    obtain ⟨statements, hmem, hx⟩ := List.mem_flatten.mp hx
    obtain ⟨a, ha, hf⟩ := mem_of_mapM_ok hm hmem
    exact ⟨a, ha, statements, hf, hx⟩

/-- Where a statement stands in the whole: within those of one element, which stand together. -/
theorem emitAll_split {l : List α} {out first last : List Statement} {x : Statement}
    (h : emitAll f l = .ok out) (hx : out = first ++ x :: last) :
    ∃ a ∈ l, ∃ own₁ own₂, f a = .ok (own₁ ++ x :: own₂) ∧ own₁ ⊆ first := by
  induction l generalizing out first with
  | nil =>
    cases h
    simp at hx
  | cons a l ih =>
    rw [emitAll_cons] at h
    obtain ⟨own, hown, h⟩ := bind_ok_iff.mp h
    obtain ⟨rest, hrest, h⟩ := bind_ok_iff.mp h
    cases h
    rcases List.append_eq_append_iff.mp hx with ⟨start, rfl, hstart⟩ | ⟨start, rfl, hstart⟩
    · obtain ⟨b, hb, own₁, own₂, hf, hsub⟩ := ih hrest hstart
      exact ⟨b, List.mem_cons_of_mem a hb, own₁, own₂, hf,
        List.Subset.trans hsub (List.subset_append_right _ _)⟩
    · cases start with
      | nil =>
        obtain ⟨b, hb, own₁, own₂, hf, hsub⟩ :=
          ih hrest (hstart.symm.trans (List.nil_append _).symm)
        exact ⟨b, List.mem_cons_of_mem a hb, own₁, own₂, hf,
          List.Subset.trans hsub (List.nil_subset _)⟩
      | cons y start =>
        cases hstart
        exact ⟨a, List.mem_cons_self, first, start, hown, List.Subset.refl _⟩

end EmitAll

theorem Plan.mem_insertAlters {plan : Plan} {alters : List Step} {e : Step} :
    e ∈ plan.insertAlters alters ↔ e ∈ (plan : List Step) ∨ e ∈ alters := by
  have hsplit : e ∈ (plan : List Step) ↔ e ∈ List.takeWhile (fun s => !s.createsDependent) plan ∨
      e ∈ List.dropWhile (fun s => !s.createsDependent) plan := by
    rw [← List.mem_append, List.takeWhile_append_dropWhile]
  rw [insertAlters, List.mem_append, List.mem_append, hsplit]
  tauto

namespace Dialect

variable {d : Dialect} {old new : Schema} {version : Nat} {options : MigrationOptions}
  {script : Script}

/-- The last statement of a migration, which stores the version that is reached. -/
def versionUpdate (d : Dialect) (options : MigrationOptions) (version : Nat) : Statement :=
  .plain ("UPDATE " ++ d.quote options.versionTable ++ " SET " ++
    d.quote options.versionColumn ++ " = " ++ toString version)

/-- A migration script exists only if both schemas resolve and all its parts can be written. -/
theorem migrationScript_parts (h : d.migrationScript old new version options = .ok script) :
    old.resolve = .ok () ∧ new.resolve = .ok () ∧ ∃ steps additional,
      emitAll (d.stepStatements new (d.migrationPlan old new)) (d.migrationPlan old new) =
        .ok steps ∧
      (byTable new ((options.additional.map (·.statements)).getD [])).mapM d.additionalStatement =
        .ok additional ∧
      script = d.migrationHeader version :: d.prologue (d.migrationPlan old new) ++ steps ++
        d.epilogue (d.migrationPlan old new) ++ additional ++
        [d.versionUpdate options version] := by
  unfold migrationScript at h
  obtain ⟨_, hold, h⟩ := bind_ok_iff.mp h
  obtain ⟨_, hnew, h⟩ := bind_ok_iff.mp h
  obtain ⟨_, _, h⟩ := bind_ok_iff.mp h
  obtain ⟨steps, hsteps, h⟩ := bind_ok_iff.mp h
  obtain ⟨additional, hadditional, h⟩ := bind_ok_iff.mp h
  cases h
  exact ⟨hold, hnew, steps, additional, hsteps, hadditional, rfl⟩

theorem step_emitted (h : d.migrationScript old new version options = .ok script) {e : Step}
    (he : e ∈ d.migrationPlan old new) :
    ∃ statements, d.stepStatements new (d.migrationPlan old new) e = .ok statements ∧
      statements.Sublist script := by
  obtain ⟨_, _, steps, additional, hsteps, _, rfl⟩ := migrationScript_parts h
  obtain ⟨statements, hstatements, hin⟩ := emitAll_ok_mem hsteps he
  refine ⟨statements, hstatements, hin.trans ?_⟩
  simp only [List.append_assoc]
  exact (List.sublist_append_left steps _).trans (List.sublist_append_right _ _)

theorem changeRows_of_additional {templates : List DmlStatement} {additional : List Statement}
    (h : templates.mapM d.additionalStatement = .ok additional) {x : Statement}
    (hx : x ∈ additional) : ∃ dml, x = d.changeRows dml := by
  obtain ⟨template, _, hrows⟩ := mem_of_mapM_ok h hx
  unfold additionalStatement at hrows
  split at hrows
  · cases hrows
  · cases hrows
    exact ⟨template.body, rfl⟩

/-- A statement of a migration script comes from a step, unless it frames the steps or changes
rows. -/
theorem mem_migrationScript (h : d.migrationScript old new version options = .ok script)
    {x : Statement} (hx : x ∈ script) :
    x = d.migrationHeader version ∨ x ∈ d.prologue (d.migrationPlan old new) ∨
      (∃ e ∈ d.migrationPlan old new, ∃ own,
        d.stepStatements new (d.migrationPlan old new) e = .ok own ∧ x ∈ own) ∨
      x ∈ d.epilogue (d.migrationPlan old new) ∨ (∃ dml, x = d.changeRows dml) ∨
      ∃ rest, x = .plain ("UPDATE " ++ rest) := by
  obtain ⟨_, _, steps, additional, hsteps, hadditional, rfl⟩ := migrationScript_parts h
  simp only [List.cons_append, List.mem_cons, List.mem_append, List.not_mem_nil, or_false] at hx
  rcases hx with hx | (((hx | hx) | hx) | hx) | hx
  · exact .inl hx
  · exact .inr (.inl hx)
  · exact .inr (.inr (.inl (mem_of_emitAll_ok hsteps hx)))
  · exact .inr (.inr (.inr (.inl hx)))
  · exact .inr (.inr (.inr (.inr (.inl (changeRows_of_additional hadditional hx)))))
  · simp only [versionUpdate, String.append_assoc] at hx
    exact .inr (.inr (.inr (.inr (.inr ⟨_, hx⟩))))

end Dialect

end Schemata
