import Schemata.Proofs.TablePlan
import Mathlib.Logic.Function.Iterate

/-! Which old views a plan drops. The loop stops where a sweep finds nothing, so that what it
returns is closed; and whatever each visit preserves holds of all that it returns. -/
namespace Schemata

namespace Comparison

variable {c : Comparison}

/-- What passes from the names found so far to each view that goes because of them holds of all
names that the visits find. -/
theorem visits_induction {P : String → Prop} {views : List View}
    (hstep : ∀ gone, (∀ name ∈ gone, P name) → ∀ v ∈ views, c.dropsView gone v = true → P v.name)
    {gone : List String} (h : ∀ name ∈ gone, P name) :
    ∀ name ∈ views.foldl c.visit gone, P name := by
  induction views generalizing gone with
  | nil => exact h
  | cons v views ih =>
    have hrest := fun gone hgone w hw => hstep gone hgone w (List.mem_cons_of_mem v hw)
    rw [List.foldl_cons]
    rcases c.visit_cases gone v with ⟨hvisit, -⟩ | ⟨hvisit, hdrops, -⟩
    · rw [hvisit]
      exact ih hrest h
    · rw [hvisit]
      exact ih hrest (List.forall_mem_cons.mpr ⟨hstep gone h v List.mem_cons_self hdrops, h⟩)

theorem goneViews_induction {P : String → Prop}
    (hstep : ∀ gone, (∀ name ∈ gone, P name) → ∀ v ∈ c.old.views, c.dropsView gone v = true →
      P v.name)
    {gone : List String} (h : ∀ name ∈ gone, P name) : ∀ name ∈ c.goneViews gone, P name := by
  fun_induction c.goneViews gone with
  | case1 gone => exact h
  | case2 gone next hgrows ih => exact ih (visits_induction hstep h)

/-- Visits that find nothing were of views which stay or are known to go. -/
theorem known_of_visits {views : List View} {gone : List String}
    (h : views.foldl c.visit gone = gone) {v : View} (hv : v ∈ views)
    (hdrops : c.dropsView gone v = true) : v.name ∈ gone := by
  induction views with
  | nil => cases hv
  | cons w views ih =>
    rw [List.foldl_cons] at h
    rcases c.visit_cases gone w with ⟨hvisit, hknown⟩ | ⟨hvisit, -, hnot⟩
    · rw [hvisit] at h
      rcases List.mem_cons.mp hv with rfl | hv
      · exact hknown hdrops
      · exact ih h hv
    · have hfound := (c.visits_retain views (w.name :: gone)).subset List.mem_cons_self
      rw [← hvisit, h] at hfound
      exact absurd hfound hnot

/-- The loop stops, after at most one sweep for each view that is not known to go at its start, and
there a further sweep finds nothing. -/
theorem goneViews_stops (gone : List String) : ∃ n ≤ (c.stayingViews gone).length,
    c.goneViews gone = c.sweep^[n] gone ∧ c.sweep (c.goneViews gone) = c.goneViews gone := by
  fun_induction c.goneViews gone with
  | case1 gone next hsame =>
    exact ⟨0, Nat.zero_le _, rfl, ((c.visits_retain c.old.views gone).eq_of_length hsame.symm).symm⟩
  | case2 gone next hgrows ih =>
    obtain ⟨n, hn, heq, hfixed⟩ := ih
    have hfewer : (c.stayingViews next).length < (c.stayingViews gone).length :=
      c.stayingViews_sweep gone hgrows
    exact ⟨n + 1, by omega, heq, hfixed⟩

/-- An old view that has to go because of those which do is one of them. -/
theorem goneViews_closed {v : View} (hv : v ∈ c.old.views)
    (h : c.dropsView (c.goneViews []) v = true) : v.name ∈ c.goneViews [] := by
  obtain ⟨-, -, -, hfixed⟩ := c.goneViews_stops []
  exact known_of_visits hfixed hv h

theorem mem_droppedViews {v : View} : v ∈ c.droppedViews ↔
    v ∈ c.old.views ∧ v.name ∈ c.goneViews [] := by
  simp [droppedViews]

theorem droppedViews_nodup (ho : c.old.Built) : c.droppedViews.Nodup :=
  (List.Nodup.of_map _ ho.views_nodup).filter _

/-- A view goes that reads a table which changes, or a view which goes. -/
theorem dropped_of_reads {v : View} (hv : v ∈ c.old.views) {name : String}
    (hr : name ∈ v.referencedTables)
    (h : c.isAffected name = true ∨ ∃ w ∈ c.droppedViews, w.name = name) :
    v ∈ c.droppedViews := by
  refine mem_droppedViews.mpr ⟨hv, goneViews_closed hv ?_⟩
  refine Bool.or_eq_true_iff.mpr (Or.inr (List.any_eq_true.mpr ⟨name, hr, ?_⟩))
  rcases h with ha | ⟨w, hw, rfl⟩
  · rw [ha, Bool.true_or]
  · exact Bool.or_eq_true_iff.mpr
      (Or.inr (List.contains_iff_mem.mpr (mem_droppedViews.mp hw).2))

/-- A view goes that is not in the new schema as it is in the old one. -/
theorem dropped_of_changed {v : View} (hv : v ∈ c.old.views)
    (h : c.new.findView? v.name ≠ some v) : v ∈ c.droppedViews :=
  mem_droppedViews.mpr ⟨hv, goneViews_closed hv (by
    rw [dropsView, bne_iff_ne.mpr h, Bool.true_or])⟩

end Comparison

end Schemata
