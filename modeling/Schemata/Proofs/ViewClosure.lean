import Schemata.Proofs.EmptyPlan

/-! The views that a plan drops are those from which a chain of reads leads to a view that cannot
stay, and no others. -/
namespace Schemata

namespace Schema

/-- The old table goes, or it stays and one of its columns goes or changes. -/
def Disturbs (old new : Schema) (table : String) : Prop :=
  ∃ o ∈ old.tables, o.name = table ∧
    ((∀ t ∈ new.tables, t.name ≠ table) ∨
      ∃ t ∈ new.tables, t.name = table ∧ ∃ b ∈ o.columns,
        (∀ a ∈ t.columns, a.name ≠ b.name) ∨ ∃ a ∈ t.columns, a.name = b.name ∧ a.shape ≠ b.shape)

/-- The view is not in the new schema as it is, or it reads a table that is disturbed. -/
def Outdates (old new : Schema) (v : View) : Prop :=
  v ∉ new.views ∨ ∃ table ∈ v.referencedTables, old.Disturbs new table

instance (old new : Schema) (table : String) : Decidable (old.Disturbs new table) :=
  inferInstanceAs (Decidable (∃ o ∈ old.tables, _ ∧ (_ ∨ _)))

instance (old new : Schema) (v : View) : Decidable (old.Outdates new v) :=
  inferInstanceAs (Decidable (_ ∨ _))

/-- Views of the schema, each of which reads a source named like the next one. -/
inductive ViewChain (s : Schema) : View → View → Prop
  | nil {v : View} : v ∈ s.views → ViewChain s v v
  | cons {u v w : View} : u ∈ s.views → v.name ∈ u.referencedTables → ViewChain s v w →
      ViewChain s u w

variable {s u : Schema} {v w : View}

theorem ViewChain.mem (h : s.ViewChain v w) : v ∈ s.views := by
  cases h with
  | nil hv => exact hv
  | cons hv _ _ => exact hv

/-- Chains do not depend on the order of the views. -/
theorem ViewChain.mono (h : s.ViewChain v w) (hviews : ∀ v ∈ s.views, v ∈ u.views) :
    u.ViewChain v w := by
  induction h with
  | nil hv => exact .nil (hviews _ hv)
  | cons hv hreads _ ih => exact .cons (hviews _ hv) hreads ih

theorem Built.perm_views (h : s.Built) {views : List View} (hperm : views.Perm s.views) :
    ({ s with views := views } : Schema).Built where
  tables := h.tables
  views v hv := h.views v (hperm.mem_iff.mp hv)
  build := by
    obtain ⟨htables, hviews, hstatements⟩ := build_ok_iff.mp h.build
    exact build_ok_iff.mpr ⟨htables, (hperm.map _).nodup_iff.mpr hviews, hstatements⟩

end Schema

namespace TablePair

variable {p : TablePair}

theorem changesColumns_iff (ho : p.old.Valid) (hn : p.new.Valid) : p.changesColumns = true ↔
    ∃ b ∈ p.old.columns, (∀ a ∈ p.new.columns, a.name ≠ b.name) ∨
      ∃ a ∈ p.new.columns, a.name = b.name ∧ a.shape ≠ b.shape := by
  simp only [changesColumns, Bool.or_eq_true, Bool.not_eq_true',
    List.isEmpty_eq_false_iff_exists_mem]
  constructor
  · rintro (⟨a, ha⟩ | ⟨b, hb⟩)
    · obtain ⟨hafter, hbefore, hchange, hempty⟩ := mem_altered.mp ha
      obtain ⟨hmem, hname⟩ := ho.findColumn_iff.mp hbefore
      refine ⟨a.before, hmem, Or.inr ⟨a.after, hafter, hname.symm, fun hshape => ?_⟩⟩
      rw [hchange, ← Bool.not_eq_true, changeOf_isEmpty_iff] at hempty
      exact hempty hshape.symm
    · obtain ⟨hmem, hnone⟩ := List.mem_filter.mp hb
      rw [Option.isNone_iff_eq_none] at hnone
      refine ⟨b, hmem, Or.inl fun a ha hname => ?_⟩
      rw [hn.findColumn_iff.mpr ⟨ha, hname⟩] at hnone
      cases hnone
  · rintro ⟨b, hb, hgone | ⟨a, ha, hname, hshape⟩⟩
    · refine Or.inr ⟨b, List.mem_filter.mpr ⟨hb, ?_⟩⟩
      rw [Option.isNone_iff_eq_none, Option.eq_none_iff_forall_ne_some]
      intro a ha
      obtain ⟨ha, hname⟩ := hn.findColumn_iff.mp ha
      exact hgone a ha hname
    · refine Or.inl ⟨⟨b, a, changeOf false b a⟩, mem_altered.mpr
        ⟨ha, ho.findColumn_iff.mpr ⟨hb, hname.symm⟩, rfl, ?_⟩⟩
      rw [← Bool.not_eq_true, changeOf_isEmpty_iff]
      exact fun h => hshape h.symm

end TablePair

namespace Comparison

variable {c : Comparison} (ho : c.old.Built) (hn : c.new.Built)
include ho hn

theorem isAffected_iff {table : String} :
    c.isAffected table = true ↔ c.old.Disturbs c.new table := by
  simp only [isAffected, Bool.or_eq_true, List.any_eq_true, Bool.and_eq_true, beq_iff_eq]
  constructor
  · rintro (⟨o, hmem, rfl⟩ | ⟨p, hp, hchanges, rfl⟩)
    · obtain ⟨hold, hnone⟩ := List.mem_filter.mp hmem
      rw [Option.isNone_iff_eq_none] at hnone
      refine ⟨o, hold, rfl, Or.inl fun t ht hname => ?_⟩
      rw [hn.findTable_iff.mpr ⟨ht, hname⟩] at hnone
      cases hnone
    · obtain ⟨hnew, hfind⟩ := mem_surviving.mp hp
      obtain ⟨hold, hname⟩ := ho.findTable_iff.mp hfind
      exact ⟨p.old, hold, rfl, Or.inr ⟨p.new, hnew, hname.symm,
        (TablePair.changesColumns_iff (ho.table hold) (hn.table hnew)).mp hchanges⟩⟩
  · rintro ⟨o, hold, rfl, hgone | ⟨t, ht, hname, hchanges⟩⟩
    · refine Or.inl ⟨o, List.mem_filter.mpr ⟨hold, ?_⟩, rfl⟩
      rw [Option.isNone_iff_eq_none, Option.eq_none_iff_forall_ne_some]
      intro t ht
      obtain ⟨ht, hname⟩ := hn.findTable_iff.mp ht
      exact hgone t ht hname
    · have hp : ⟨o, t⟩ ∈ c.surviving :=
        mem_surviving.mpr ⟨ht, ho.findTable_iff.mpr ⟨hold, hname.symm⟩⟩
      exact Or.inr ⟨⟨o, t⟩, hp,
        (TablePair.changesColumns_iff (ho.table hold) (hn.table ht)).mpr hchanges, rfl⟩

/-- A view goes if it is outdated or reads a view that is known to go. -/
theorem dropsView_iff {gone : List String} {v : View} : c.dropsView gone v = true ↔
    c.old.Outdates c.new v ∨ ∃ name ∈ v.referencedTables, name ∈ gone := by
  have hchanged : c.new.findView? v.name ≠ some v ↔ v ∉ c.new.views := by
    rw [ne_eq, hn.findView_iff, and_iff_left rfl]
  simp only [dropsView, Bool.or_eq_true, bne_iff_ne, hchanged, List.any_eq_true,
    isAffected_iff ho hn, List.contains_iff_mem, Schema.Outdates]
  constructor
  · rintro (hchanged | ⟨name, hreads, hdisturbed | hgone⟩)
    · exact Or.inl (Or.inl hchanged)
    · exact Or.inl (Or.inr ⟨name, hreads, hdisturbed⟩)
    · exact Or.inr ⟨name, hreads, hgone⟩
  · rintro ((hchanged | ⟨name, hreads, hdisturbed⟩) | ⟨name, hreads, hgone⟩)
    · exact Or.inl hchanged
    · exact Or.inr ⟨name, hreads, Or.inl hdisturbed⟩
    · exact Or.inr ⟨name, hreads, Or.inr hgone⟩

/-- From each name that the sweeps find, a chain leads to an outdated view. -/
theorem exists_chain_of_gone : ∀ name ∈ c.goneViews [],
    ∃ v w, v.name = name ∧ c.old.ViewChain v w ∧ c.old.Outdates c.new w := by
  refine goneViews_induction (fun gone hgone v hv hdrops => ?_) fun _ h => nomatch h
  rcases (dropsView_iff ho hn).mp hdrops with houtdated | ⟨name, hreads, hname⟩
  · exact ⟨v, v, rfl, .nil hv, houtdated⟩
  · obtain ⟨u, w, rfl, hchain, houtdated⟩ := hgone name hname
    exact ⟨v, w, rfl, .cons hv hreads hchain, houtdated⟩

/-- Along a chain to an outdated view every view goes, from its end to its start. -/
theorem gone_of_chain {v w : View} (h : c.old.ViewChain v w) (houtdated : c.old.Outdates c.new w) :
    v.name ∈ c.goneViews [] := by
  induction h with
  | nil hv => exact goneViews_closed hv ((dropsView_iff ho hn).mpr (Or.inl houtdated))
  | cons hv hreads _ ih =>
    exact goneViews_closed hv ((dropsView_iff ho hn).mpr (Or.inr ⟨_, hreads, ih houtdated⟩))

theorem mem_droppedViews_iff_chain {v : View} : v ∈ c.droppedViews ↔
    ∃ w, c.old.ViewChain v w ∧ c.old.Outdates c.new w := by
  rw [mem_droppedViews]
  constructor
  · rintro ⟨hv, hgone⟩
    obtain ⟨v', w, hname, hchain, houtdated⟩ := exists_chain_of_gone ho hn _ hgone
    have hsame : v' = v := List.inj_on_of_nodup_map ho.views_nodup hchain.mem hv hname
    exact ⟨w, hsame ▸ hchain, houtdated⟩
  · rintro ⟨w, hchain, houtdated⟩
    exact ⟨hchain.mem, gone_of_chain ho hn hchain houtdated⟩

/-- The order in which views are declared makes no difference to which of them go. -/
theorem droppedViews_perm {views views' : List View} (hold : views.Perm c.old.views)
    (hnew : views'.Perm c.new.views) :
    (Comparison.mk { c.old with views := views } { c.new with views := views' }
      c.recreate).droppedViews.Perm c.droppedViews := by
  let c' : Comparison :=
    ⟨{ c.old with views := views }, { c.new with views := views' }, c.recreate⟩
  have ho' : c'.old.Built := ho.perm_views hold
  have hn' : c'.new.Built := hn.perm_views hnew
  refine (List.perm_ext_iff_of_nodup (droppedViews_nodup ho')
    (droppedViews_nodup ho)).mpr fun v => ?_
  have houtdates : ∀ w, c'.old.Outdates c'.new w ↔ c.old.Outdates c.new w := fun w =>
    or_congr (not_congr hnew.mem_iff) Iff.rfl
  have hchains : ∀ w, c'.old.ViewChain v w ↔ c.old.ViewChain v w := fun w =>
    ⟨fun h => h.mono fun _ => hold.mem_iff.mp, fun h => h.mono fun _ => hold.mem_iff.mpr⟩
  rw [mem_droppedViews_iff_chain ho' hn', mem_droppedViews_iff_chain ho hn]
  simp only [hchains, houtdates]

omit hn in
theorem createdViews_eq : c.createdViews = c.new.views.filter fun v =>
    (∀ w ∈ c.old.views, w.name ≠ v.name) ∨ ∃ d ∈ c.droppedViews, d.name = v.name := by
  refine List.filter_congr fun v _ => ?_
  have hfresh : (c.old.findView? v.name).isNone = true ↔ ∀ w ∈ c.old.views, w.name ≠ v.name := by
    rw [Option.isNone_iff_eq_none, Option.eq_none_iff_forall_ne_some]
    simp only [ne_eq, ho.findView_iff, not_and]
  rw [Bool.eq_iff_iff, Bool.or_eq_true, hfresh]
  simp

end Comparison

/-- The views that a plan drops. The loop over the old views stops, after at most as many sweeps as
there are views. What it returns are, in declaration order, just the views from which a chain of
reads leads to an outdated one, whatever the order of declaration. The plan drops them from the last
to the first, and creates after that the views that are new or were dropped. -/
theorem droppedViews_dependency_closure {old new : Schema} (ho : old.Built) (hn : new.Built)
    (r : RecreateOptions) :
    let c : Comparison := ⟨old, new, r⟩
    (∃ n ≤ old.views.length, c.goneViews [] = c.sweep^[n] [] ∧
      c.sweep (c.goneViews []) = c.goneViews []) ∧
    c.droppedViews.Sublist old.views ∧
    (∀ v, v ∈ c.droppedViews ↔ ∃ w, old.ViewChain v w ∧ old.Outdates new w) ∧
    (∀ views views', views.Perm old.views → views'.Perm new.views →
      (Comparison.mk { old with views := views } { new with views := views' }
        r).droppedViews.Perm c.droppedViews) ∧
    (diff old new r).filter (·.table? = none) =
      c.droppedViews.reverse.map .dropView ++
        (new.views.filter fun v => (∀ w ∈ old.views, w.name ≠ v.name) ∨
          ∃ d ∈ c.droppedViews, d.name = v.name).map .createView := by
  intro c
  refine ⟨?_, List.filter_sublist, fun v => Comparison.mem_droppedViews_iff_chain (c := c) ho hn,
    fun views views' hold hnew => Comparison.droppedViews_perm (c := c) ho hn hold hnew, ?_⟩
  · obtain ⟨n, hle, hstops⟩ := c.goneViews_stops []
    exact ⟨n, hle.trans (List.length_filter_le _ _), hstops⟩
  · rw [diff, Comparison.slice_plan_views, Comparison.createViewSteps_eq,
      Comparison.createdViews_eq (c := c) ho]
    rfl

namespace Sample

/-- Views declared before what they read, and two that read each other. -/
def tangledViews : List View := [
  { name := "Recipients", columns := ["email"]
    query := ⟨{ items := [.column none "email"], source := ⟨"Emails", none⟩ }, []⟩ },
  { name := "Ping", columns := ["x"]
    query := ⟨{ items := [.column none "x"], source := ⟨"Pong", none⟩ }, []⟩ },
  { name := "Pong", columns := ["x"]
    query := ⟨{ items := [.column none "x"], source := ⟨"Ping", none⟩ }, []⟩ },
  { name := "Emails", columns := ["email"]
    query := ⟨{ items := [.column none "email"], source := ⟨"Customer", none⟩ }, []⟩ }]

def tangledShop : Schema := { shop with views := tangledViews }

def widerTangledShop : Schema := { widerShop with views := tangledViews }

theorem tangledViews_built : ∀ v ∈ tangledViews, v.draft.build = .ok v := by
  with_unfolding_all decide

theorem tangledShop_built : tangledShop.Built where
  tables := shop_built.tables
  views v hv := ⟨v.draft, tangledViews_built v hv⟩
  build := rfl

theorem widerTangledShop_built : widerTangledShop.Built where
  tables := widerShop_built.tables
  views v hv := ⟨v.draft, tangledViews_built v hv⟩
  build := rfl

end Sample

/-- A chain leads from the recipients over the addresses to a table that changes; a circle of views
that reads no such table stays. -/
theorem tangledShop_drops : Sample.tangledShop.Built ∧ Sample.widerTangledShop.Built ∧
    ∀ v ∈ Sample.tangledShop.views,
      (∃ w, Sample.tangledShop.ViewChain v w ∧
          Sample.tangledShop.Outdates Sample.widerTangledShop w) ↔
        v.name = "Recipients" ∨ v.name = "Emails" := by
  refine ⟨Sample.tangledShop_built, Sample.widerTangledShop_built, fun v hv => ?_⟩
  obtain ⟨-, -, hclosure, -⟩ := droppedViews_dependency_closure Sample.tangledShop_built
    Sample.widerTangledShop_built .all
  rw [← hclosure]
  revert v
  with_unfolding_all decide

end Schemata
