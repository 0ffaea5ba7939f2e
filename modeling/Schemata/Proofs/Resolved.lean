import Schemata.Resolve
import Schemata.Proofs.Built

/-! What a schema that resolves can rely on: the targets of its foreign keys and the tables that
its delete actions change are there. -/
namespace Schemata

namespace Schema

variable {s : Schema}

theorem resolve_ok_iff : s.resolve = .ok () ↔
    (∀ t ∈ s.tables, Resolve.table s t = .ok ()) ∧ (∀ v ∈ s.views, Resolve.view s v = .ok ()) ∧
      ∀ d ∈ s.statements, Resolve.dml s ("statement " ++ d.name) none d.body = .ok () := by
  simp only [← forM_ok_iff]
  constructor
  · intro h
    obtain ⟨_, ht, h⟩ := bind_ok_iff.mp h
    obtain ⟨_, hv, hd⟩ := bind_ok_iff.mp h
    exact ⟨ht, hv, hd⟩
  · rintro ⟨ht, hv, hd⟩
    exact bind_ok_iff.mpr ⟨(), ht, bind_ok_iff.mpr ⟨(), hv, hd⟩⟩

theorem resolve_table_ok_iff {t : Table} : Resolve.table s t = .ok () ↔
    (∀ f ∈ t.foreignKeys, Resolve.reference s ("table " ++ t.name) f.reference = .ok ()) ∧
      ∀ d ∈ t.onDelete, Resolve.dml s ("ON DELETE of table " ++ t.name) (some t) d = .ok () := by
  simp only [← forM_ok_iff]
  constructor
  · intro h
    obtain ⟨_, hf, hd⟩ := bind_ok_iff.mp h
    exact ⟨hf, hd⟩
  · rintro ⟨hf, hd⟩
    exact bind_ok_iff.mpr ⟨(), hf, hd⟩

theorem reference_ok {source : String} {r : Reference}
    (h : Resolve.reference s source r = .ok ()) :
    ∃ t, s.findTable? r.table = some t ∧ (t.findColumn? r.column).isSome = true := by
  unfold Resolve.reference resolveReference at h
  cases ht : s.findTable? r.table with
  | none => simp [ht] at h
  | some t =>
    cases hc : t.findColumn? r.column with
    | none => simp [ht, hc] at h
    | some column => exact ⟨t, rfl, by rw [hc]; rfl⟩

/-- The target of a foreign key is a table of the schema with the target column. -/
theorem foreignKey_target (h : s.resolve = .ok ()) {t : Table} (ht : t ∈ s.tables)
    {f : ForeignKey} (hf : f ∈ t.foreignKeys) :
    ∃ target, s.findTable? f.reference.table = some target ∧
      (target.findColumn? f.reference.column).isSome = true :=
  reference_ok ((resolve_table_ok_iff.mp ((resolve_ok_iff.mp h).1 t ht)).1 f hf)

theorem action_target (h : s.resolve = .ok ()) {t : Table} (ht : t ∈ s.tables) {d : Dml}
    (hd : d ∈ t.onDelete) : (s.findTable? d.table).isSome = true := by
  have hdml := (resolve_table_ok_iff.mp ((resolve_ok_iff.mp h).1 t ht)).2 d hd
  unfold Resolve.dml at hdml
  split at hdml
  · cases hdml
  · rename_i hfind
    rw [hfind]
    rfl

end Schema

end Schemata
