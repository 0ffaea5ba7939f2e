import Schemata.Schema
import Mathlib.Data.List.Nodup
import Mathlib.Tactic.Basic

/-! What the builders accept. A draft is refused at its first fault, so a finished table or view
meets every check, and one that meets every check is the result of its own draft. -/
namespace Schemata

theorem bind_ok_iff {ε α β : Type} {x : Except ε α} {f : α → Except ε β} {b : β} :
    (x >>= f) = .ok b ↔ ∃ a, x = .ok a ∧ f a = .ok b := by
  cases x with
  | error e => simp [bind, Except.bind]
  | ok a => simp [bind, Except.bind]

theorem forM_ok_iff {ε α : Type} {f : α → Except ε Unit} {l : List α} :
    l.forM f = .ok () ↔ ∀ a ∈ l, f a = .ok () := by
  induction l with
  | nil => simp [pure, Except.pure]
  | cons a l ih =>
    rw [List.forall_mem_cons, ← ih]
    constructor
    · intro h
      obtain ⟨⟨⟩, ha, hl⟩ := bind_ok_iff.mp h
      exact ⟨ha, hl⟩
    · rintro ⟨ha, hl⟩
      exact bind_ok_iff.mpr ⟨(), ha, hl⟩

theorem checkIdentifier_ok_iff {text : String} :
    checkIdentifier text = .ok () ↔ isIdentifier text = true := by
  unfold checkIdentifier
  split <;> simp_all

theorem firstRepeat_go_none_iff (seen names : List String) :
    firstRepeat?.go seen names = none ↔ names.Nodup ∧ ∀ n ∈ names, n ∉ seen := by
  induction names generalizing seen with
  | nil => simp [firstRepeat?.go]
  | cons n names ih =>
    by_cases h : n ∈ seen
    · simp [firstRepeat?.go, h]
    · have hs : seen.contains n = false := by simpa using h
      simp only [firstRepeat?.go, hs, Bool.false_eq_true, if_false, ih, List.nodup_cons,
        List.mem_cons, not_or]
      constructor
      · rintro ⟨hn, hm⟩
        refine ⟨⟨fun hmem => (hm n hmem).1 rfl, hn⟩, ?_⟩
        rintro m (rfl | hmem)
        · exact h
        · exact (hm m hmem).2
      · rintro ⟨⟨hmem, hn⟩, hm⟩
        exact ⟨hn, fun m hm' => ⟨fun he => hmem (he ▸ hm'), hm m (Or.inr hm')⟩⟩

theorem firstRepeat_none_iff (names : List String) : firstRepeat? names = none ↔ names.Nodup := by
  simp [firstRepeat?, firstRepeat_go_none_iff]

/-- A check that goes through names and refuses what is no identifier or stands in `seen`. -/
theorem distinct_check_ok_iff (check : List String → List String → Except SchemaError Unit)
    (fault : String → SchemaError) (hnil : ∀ seen, check seen [] = .ok ())
    (hcons : ∀ seen n ns, check seen (n :: ns) = (checkIdentifier n >>= fun _ =>
      if seen.contains n then .error (fault n) else check (n :: seen) ns))
    (seen names : List String) :
    check seen names = .ok () ↔
      names.Nodup ∧ (∀ n ∈ names, n ∉ seen) ∧ ∀ n ∈ names, isIdentifier n = true := by
  induction names generalizing seen with
  | nil => simp [hnil]
  | cons n names ih =>
    rw [hcons, bind_ok_iff]
    simp only [List.nodup_cons, List.forall_mem_cons]
    constructor
    · rintro ⟨_, hi, hc⟩
      split at hc
      · cases hc
      · rename_i hs
        obtain ⟨hn, hm, hid⟩ := (ih (n :: seen)).mp hc
        simp only [List.mem_cons, not_or] at hm
        exact ⟨⟨fun hmem => (hm n hmem).1 rfl, hn⟩, ⟨by simpa using hs, fun m h => (hm m h).2⟩,
          checkIdentifier_ok_iff.mp hi, hid⟩
    · rintro ⟨⟨hmem, hn⟩, ⟨hs, hm⟩, hi, hid⟩
      refine ⟨(), checkIdentifier_ok_iff.mpr hi, ?_⟩
      rw [if_neg (by simpa using hs), ih]
      refine ⟨hn, fun m h => ?_, hid⟩
      simp only [List.mem_cons, not_or]
      exact ⟨fun he => hmem (he ▸ h), hm m h⟩

/-- Of a column only the name is checked. -/
theorem Column.build_ok_iff {c c' : Column} :
    c.build = .ok c' ↔ isIdentifier c.name = true ∧ c' = c := by
  unfold build
  rw [bind_ok_iff]
  constructor
  · rintro ⟨_, hname, h⟩
    cases h
    exact ⟨checkIdentifier_ok_iff.mp hname, rfl⟩
  · rintro ⟨hname, rfl⟩
    exact ⟨(), checkIdentifier_ok_iff.mpr hname, rfl⟩

namespace Table

def columnNames (t : Table) : List String :=
  t.columns.map (·.name)

/-- The columns of a key or index: at least one, and each one of the table. -/
def Lists (t : Table) (columns : List String) : Prop :=
  columns ≠ [] ∧ ∀ c ∈ columns, c ∈ t.columnNames

/-- Names of the primary key, unique constraints, indexes and foreign keys. -/
def constraintNames (t : Table) : List String :=
  t.primaryKey.name :: (t.uniques.map (·.name) ++ t.indexes.map (·.name) ++
    t.declaredForeignKeys.map (·.name) ++
    (t.columns.filterMap (shorthandForeignKey? t.name)).map (·.name))

/-- What the builder checks of a table. -/
structure Valid (t : Table) : Prop where
  name : isIdentifier t.name = true
  nonempty : t.columns ≠ []
  columns_nodup : t.columnNames.Nodup
  primaryKey : t.Lists t.primaryKey.columns
  uniques : ∀ u ∈ t.uniques, t.Lists u.columns
  indexes : ∀ i ∈ t.indexes, t.Lists i.columns
  declared : ∀ f ∈ t.declaredForeignKeys, f.column ∈ t.columnNames
  names_nodup : t.constraintNames.Nodup
  names : ∀ n ∈ t.constraintNames, isIdentifier n = true

/-- The draft that writes the table down again. -/
def draft (t : Table) : TableDraft where
  name := t.name
  columns := t.columns
  primaryKeys := [t.primaryKey]
  uniques := t.uniques
  indexes := t.indexes
  foreignKeys := t.declaredForeignKeys
  onDelete := if t.onDelete.isEmpty then none else some t.onDelete
  comment := t.comment
  hints := t.hints

/-- Accepted by the builder. -/
def Built (t : Table) : Prop :=
  ∃ d : TableDraft, d.build = .ok t

end Table

namespace TableDraft

theorem checkColumnList_ok_iff {table : String} {known : List String} {kind : KeyKind}
    {name : String} {columns : List String} :
    checkColumnList table known kind name columns = .ok () ↔
      columns ≠ [] ∧ ∀ c ∈ columns, c ∈ known := by
  unfold checkColumnList
  by_cases h : columns = []
  · simp [h]
  · have he : columns.isEmpty = false := by simpa using h
    simp only [he, Bool.false_eq_true, if_false]
    constructor
    · intro hc
      refine ⟨h, fun c hmem => ?_⟩
      split at hc
      · cases hc
      · rename_i hf
        have := List.find?_eq_none.mp hf c hmem
        simpa using this
    · rintro ⟨-, hc⟩
      have hf : columns.find? (fun c => !known.contains c) = none := by
        rw [List.find?_eq_none]
        intro c hmem
        simpa using hc c hmem
      rw [hf]

theorem checkNames_ok_iff {table : String} (names : List String) :
    checkNames table [] names = .ok () ↔
      names.Nodup ∧ ∀ n ∈ names, isIdentifier n = true := by
  rw [distinct_check_ok_iff (checkNames table) (.duplicateConstraint table) (fun _ => rfl)
    (fun _ _ _ => rfl)]
  simp

theorem build_ok {d : TableDraft} {t : Table} (h : d.build = .ok t) :
    t.Valid ∧ d.primaryKeys = [t.primaryKey] ∧ d.checkedOnDelete = .ok t.onDelete ∧
      d.name = t.name ∧ d.columns = t.columns ∧ d.uniques = t.uniques ∧ d.indexes = t.indexes ∧
      d.foreignKeys = t.declaredForeignKeys ∧ d.comment = t.comment ∧ d.hints = t.hints := by
  unfold build at h
  obtain ⟨_, hname, h⟩ := bind_ok_iff.mp h
  split at h
  · obtain ⟨_, h, _⟩ := bind_ok_iff.mp h
    cases h
  rename_i hempty
  dsimp only at h
  split at h
  · obtain ⟨_, h, _⟩ := bind_ok_iff.mp h
    cases h
  rename_i hrepeat
  obtain ⟨key, hkey, h⟩ := bind_ok_iff.mp h
  obtain ⟨_, hpk, h⟩ := bind_ok_iff.mp h
  obtain ⟨_, huq, h⟩ := bind_ok_iff.mp h
  obtain ⟨_, hix, h⟩ := bind_ok_iff.mp h
  obtain ⟨_, hfk, h⟩ := bind_ok_iff.mp h
  obtain ⟨_, hnames, h⟩ := bind_ok_iff.mp h
  obtain ⟨actions, hactions, h⟩ := bind_ok_iff.mp h
  cases h
  have hkeys : d.primaryKeys = [key] := by
    unfold thePrimaryKey at hkey
    split at hkey <;> simp_all
  obtain ⟨hnodup, hid⟩ := (checkNames_ok_iff _).mp hnames
  have hcolumns : firstRepeat? (d.columns.map (·.name)) = none := by
    cases hr : firstRepeat? (d.columns.map (·.name)) with
    | none => rfl
    | some c => exact absurd hr (hrepeat c)
  refine ⟨?_, hkeys, hactions, rfl, rfl, rfl, rfl, rfl, rfl, rfl⟩
  exact {
    name := checkIdentifier_ok_iff.mp hname
    nonempty := by simpa using hempty
    columns_nodup := (firstRepeat_none_iff _).mp hcolumns
    primaryKey := checkColumnList_ok_iff.mp hpk
    uniques := fun u hu => checkColumnList_ok_iff.mp (forM_ok_iff.mp huq u hu)
    indexes := fun i hi => checkColumnList_ok_iff.mp (forM_ok_iff.mp hix i hi)
    declared := fun f hf =>
      (checkColumnList_ok_iff.mp (forM_ok_iff.mp hfk f hf)).2 _ (List.mem_singleton.mpr rfl)
    names_nodup := hnodup
    names := hid }

end TableDraft

theorem Table.build_draft {t : Table} (h : t.Valid) : t.draft.build = .ok t := by
  have hempty : t.columns.isEmpty = false := by simpa using h.nonempty
  have hrepeat : firstRepeat? (t.columns.map (·.name)) = none :=
    (firstRepeat_none_iff _).mpr h.columns_nodup
  have hnames : TableDraft.checkNames t.name [] t.constraintNames = .ok () :=
    (TableDraft.checkNames_ok_iff _).mpr ⟨h.names_nodup, h.names⟩
  have hactions : t.draft.checkedOnDelete = .ok t.onDelete := by
    unfold TableDraft.checkedOnDelete draft
    cases t.onDelete <;> simp
  unfold TableDraft.build
  simp only [draft, hempty, hrepeat, TableDraft.thePrimaryKey]
  refine bind_ok_iff.mpr ⟨(), checkIdentifier_ok_iff.mpr h.name, ?_⟩
  refine bind_ok_iff.mpr ⟨_, rfl, ?_⟩
  refine bind_ok_iff.mpr ⟨(), TableDraft.checkColumnList_ok_iff.mpr h.primaryKey, ?_⟩
  refine bind_ok_iff.mpr ⟨(), forM_ok_iff.mpr fun u hu =>
    TableDraft.checkColumnList_ok_iff.mpr (h.uniques u hu), ?_⟩
  refine bind_ok_iff.mpr ⟨(), forM_ok_iff.mpr fun i hi =>
    TableDraft.checkColumnList_ok_iff.mpr (h.indexes i hi), ?_⟩
  refine bind_ok_iff.mpr ⟨(), forM_ok_iff.mpr fun f hf =>
    TableDraft.checkColumnList_ok_iff.mpr
      ⟨List.cons_ne_nil _ _, fun _ hc => List.mem_singleton.mp hc ▸ h.declared f hf⟩, ?_⟩
  exact bind_ok_iff.mpr ⟨(), hnames, bind_ok_iff.mpr ⟨_, hactions, rfl⟩⟩

theorem Table.built_iff_valid {t : Table} : t.Built ↔ t.Valid :=
  ⟨fun ⟨_, h⟩ => (TableDraft.build_ok h).1, fun h => ⟨t.draft, build_draft h⟩⟩

namespace View

/-- What the builder checks of a view. -/
structure Valid (v : View) : Prop where
  name : isIdentifier v.name = true
  nonempty : v.columns ≠ []
  columns_nodup : v.columns.Nodup
  columns : ∀ c ∈ v.columns, isIdentifier c = true
  arity : ∀ s ∈ v.query.selects, s.items.length = v.columns.length

/-- The draft that writes the view down again. -/
def draft (v : View) : ViewDraft where
  name := v.name
  columns := v.columns
  selects := (none, v.query.first) :: v.query.unions.map fun (kind, s) => (some kind, s)
  comment := v.comment
  hints := v.hints

/-- Accepted by the builder. -/
def Built (v : View) : Prop :=
  ∃ d : ViewDraft, d.build = .ok v

end View

namespace ViewDraft

theorem checkColumns_ok_iff {view : String} (columns : List String) :
    checkColumns view [] columns = .ok () ↔
      columns.Nodup ∧ ∀ c ∈ columns, isIdentifier c = true := by
  rw [distinct_check_ok_iff (checkColumns view) (.duplicateColumn view) (fun _ => rfl)
    (fun _ _ _ => rfl)]
  simp

theorem build_ok {d : ViewDraft} {v : View} (h : d.build = .ok v) :
    v.Valid ∧ v.query.selects = d.selects.map (·.2) ∧ v.hints = d.hints := by
  unfold build at h
  obtain ⟨_, hname, h⟩ := bind_ok_iff.mp h
  split at h
  · cases h
  · cases h
  rename_i first others hselects hne
  obtain ⟨_, hcheck, h⟩ := bind_ok_iff.mp h
  obtain ⟨hnodup, hid⟩ := (checkColumns_ok_iff _).mp hcheck
  dsimp only at h
  split at h
  · obtain ⟨_, h, _⟩ := bind_ok_iff.mp h
    cases h
  rename_i harity
  cases h
  have hquery : Query.selects ⟨first, others.map fun other =>
      (other.1.getD .distinct, other.2)⟩ = first :: others.map (·.2) := by
    simp [Query.selects, Function.comp_def]
  refine ⟨⟨checkIdentifier_ok_iff.mp hname, hne, hnodup, hid, ?_⟩, by rw [hquery, hselects]; rfl,
    rfl⟩
  intro s hs
  have hmem : s ∈ first :: others.map (·.2) := hquery ▸ hs
  by_contra hlen
  cases hf : (first :: others.map (·.2)).find? (fun s => s.items.length != d.columns.length) with
  | none => exact absurd (List.find?_eq_none.mp hf s hmem) (by simpa using hlen)
  | some s' => exact harity s' hf

end ViewDraft

theorem View.build_draft {v : View} (h : v.Valid) : v.draft.build = .ok v := by
  obtain ⟨name, columns, ⟨first, unions⟩, comment, hints⟩ := v
  cases columns with
  | nil => exact absurd rfl h.nonempty
  | cons c cs =>
    have harity : (first :: unions.map (·.2)).find?
        (fun s => s.items.length != (c :: cs).length) = none := by
      rw [List.find?_eq_none]
      intro s hs
      simpa using h.arity s hs
    unfold ViewDraft.build
    simp only [draft, List.map_map]
    refine bind_ok_iff.mpr ⟨(), checkIdentifier_ok_iff.mpr h.name, ?_⟩
    refine bind_ok_iff.mpr ⟨(), (ViewDraft.checkColumns_ok_iff _).mpr
      ⟨h.columns_nodup, h.columns⟩, ?_⟩
    simp only [Function.comp_def]
    rw [harity]
    simp [pure, Except.pure]

theorem View.built_iff_valid {v : View} : v.Built ↔ v.Valid :=
  ⟨fun ⟨_, h⟩ => (ViewDraft.build_ok h).1, fun h => ⟨v.draft, build_draft h⟩⟩

namespace Schema

/-- Accepted by the builders: each table and view by its own, and the whole by the last one. -/
structure Built (s : Schema) : Prop where
  tables : ∀ t ∈ s.tables, t.Built
  views : ∀ v ∈ s.views, v.Built
  build : s.build = .ok s

theorem build_ok_iff {s : Schema} :
    s.build = .ok s ↔ (s.tables.map (·.name)).Nodup ∧ (s.views.map (·.name)).Nodup ∧
      (s.statements.map (·.name)).Nodup := by
  simp only [← firstRepeat_none_iff]
  unfold build
  cases firstRepeat? (s.tables.map (·.name)) <;> cases firstRepeat? (s.views.map (·.name)) <;>
    cases firstRepeat? (s.statements.map (·.name)) <;>
    simp [bind, Except.bind, pure, Except.pure, throw, throwThe, MonadExceptOf.throw]

theorem eq_of_build {s s' : Schema} (h : s.build = .ok s') : s' = s := by
  unfold build at h
  cases ht : firstRepeat? (s.tables.map (·.name)) <;> rw [ht] at h
  · cases hv : firstRepeat? (s.views.map (·.name)) <;> rw [hv] at h
    · cases hd : firstRepeat? (s.statements.map (·.name)) <;> rw [hd] at h <;> cases h
      rfl
    · cases h
  · cases h

/-- A schema whose tables and views come out of their own drafts again is accepted. -/
theorem built_of_drafts {s : Schema} (ht : ∀ t ∈ s.tables, t.draft.build = .ok t)
    (hv : ∀ v ∈ s.views, v.draft.build = .ok v) (hs : s.build = .ok s) : s.Built where
  tables t hmem := ⟨t.draft, ht t hmem⟩
  views v hmem := ⟨v.draft, hv v hmem⟩
  build := hs

theorem Built.table {s : Schema} (h : s.Built) {t : Table} (ht : t ∈ s.tables) : t.Valid :=
  Table.built_iff_valid.mp (h.tables t ht)

theorem Built.tables_nodup {s : Schema} (h : s.Built) : (s.tables.map (·.name)).Nodup :=
  (build_ok_iff.mp h.build).1

theorem Built.views_nodup {s : Schema} (h : s.Built) : (s.views.map (·.name)).Nodup :=
  (build_ok_iff.mp h.build).2.1

/-- Every column is accepted by its builder. -/
def ColumnsBuilt (s : Schema) : Prop :=
  ∀ t ∈ s.tables, ∀ c ∈ t.columns, c.build = .ok c

theorem ColumnsBuilt.name {s : Schema} (h : s.ColumnsBuilt) {t : Table} (ht : t ∈ s.tables)
    {c : Column} (hc : c ∈ t.columns) : isIdentifier c.name = true :=
  (Column.build_ok_iff.mp (h t ht c hc)).1

end Schema

end Schemata
