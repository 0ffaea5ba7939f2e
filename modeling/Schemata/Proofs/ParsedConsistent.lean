import Schemata.Proofs.ParsedWellFormed
import Schemata.Proofs.StatementRun

/-! What can be relied on in a schema that was read from a text: the parts of each artifact fit
together, no two artifacts of a kind share a name, and the builders accept all of it. -/
namespace Schemata

open Grammar

/-- A scale does not exceed its precision, and a text has room for at least one character. -/
def DataType.Sized : DataType → Prop
  | decimal precision scale => scale ≤ precision
  | number precision scale => ∀ digits ∈ scale, ∃ total ∈ precision, digits ≤ total
  | char length | varchar length => 1 ≤ length
  | _ => True

def Dml.Matched : Dml → Prop
  | insert _ columns values => values.length = columns.length
  | update .. | delete .. => True

/-- Every hint may stand on the target, and has a value exactly if its key takes one. -/
def Hints.Placed (hints : Hints) (target : HintTarget) : Prop :=
  ∀ entry ∈ hints, entry.hint.key.allowedOn target = true ∧
    entry.hint.value?.isSome = entry.hint.key.takesValue

structure Table.Consistent (t : Table) : Prop where
  nonempty : t.columns ≠ []
  columns : t.columnNames.Nodup
  primaryKey : t.Built ∧ ∀ d : TableDraft, d.build = .ok t → d.primaryKeys = [t.primaryKey]
  keys : ∀ listed ∈ t.primaryKey.columns :: (t.uniques.map (·.columns) ++
    t.indexes.map (·.columns)), listed ≠ [] ∧ ∀ c ∈ listed, c ∈ t.columnNames
  foreignKeys : ∀ f ∈ t.foreignKeys, f.column ∈ t.columnNames
  names : (t.primaryKey.name :: (t.uniques.map (·.name) ++ t.indexes.map (·.name) ++
    t.foreignKeys.map (·.name))).Nodup
  types : ∀ c ∈ t.columns, c.dataType.Sized
  actions : ∀ d ∈ t.onDelete, d.Matched
  hints : t.hints.Placed .table ∧ (∀ c ∈ t.columns, c.hints.Placed .column) ∧
    ∀ i ∈ t.indexes, i.hints.Placed .index

structure View.Consistent (v : View) : Prop where
  columns : v.columns.Nodup
  items : ∀ s ∈ v.query.selects, s.items.length = v.columns.length
  hints : v.hints.Placed .view

structure Schema.Consistent (s : Schema) : Prop where
  tableNames : (s.tables.map (·.name)).Nodup
  viewNames : (s.views.map (·.name)).Nodup
  statementNames : (s.statements.map (·.name)).Nodup
  tables : ∀ t ∈ s.tables, t.Consistent
  views : ∀ v ∈ s.views, v.Consistent
  statements : ∀ d ∈ s.statements, d.body.Matched

theorem DataType.WellFormed.sized {t : DataType} (h : t.WellFormed) : t.Sized := by
  cases t with
  | decimal precision scale => exact h.2
  | number precision scale =>
    intro digits hdigits
    cases hdigits
    cases precision with
    | none => cases h
    | some total => exact ⟨total, rfl, h.2⟩
  | char length | varchar length => exact h.1
  | _ => trivial

theorem Dml.WellFormed.matched {d : Dml} (h : d.WellFormed) : d.Matched := by
  cases d with
  | insert table columns values => exact h.shape.2.symm
  | update | delete => trivial

theorem Hints.AllowedOn.placed {hints : Hints} {target : HintTarget}
    (h : hints.AllowedOn target) : hints.Placed target := by
  intro entry hentry
  refine ⟨h entry hentry, ?_⟩
  cases entry.hint <;> rfl

namespace Table

variable {t : Table}

/-- A foreign key is on a column of its table: one that is written at a column is on that one. -/
theorem Valid.foreignKey_column (h : t.Valid) {f : ForeignKey} (hf : f ∈ t.foreignKeys) :
    f.column ∈ t.columnNames := by
  rcases List.mem_append.mp hf with hf | hf
  · obtain ⟨c, hc, hshort⟩ := List.mem_filterMap.mp hf
    obtain ⟨r, hr, rfl⟩ := Option.map_eq_some_iff.mp hshort
    exact List.mem_map_of_mem hc
  · exact h.declared f hf

theorem Valid.names_apart (h : t.Valid) :
    (t.primaryKey.name :: (t.uniques.map (·.name) ++ t.indexes.map (·.name) ++
      t.foreignKeys.map (·.name))).Nodup := by
  have hperm : (t.uniques.map (·.name) ++ t.indexes.map (·.name) ++
      t.foreignKeys.map (·.name)).Perm (t.constraintNames.tail) := by
    simp only [constraintNames, foreignKeys, List.map_append, List.tail_cons, List.append_assoc]
    exact (List.perm_append_comm.append_left _).append_left _
  exact (hperm.cons _).nodup_iff.mpr h.names_nodup

theorem WellFormed.consistent (h : t.WellFormed) : t.Consistent where
  nonempty := h.valid.nonempty
  columns := h.valid.columns_nodup
  primaryKey := ⟨built_iff_valid.mpr h.valid, fun _ hd => (TableDraft.build_ok hd).2.1⟩
  keys := by
    intro listed hlisted
    rcases List.mem_cons.mp hlisted with rfl | hlisted
    · exact h.valid.primaryKey
    rcases List.mem_append.mp hlisted with hlisted | hlisted
    · obtain ⟨u, hu, rfl⟩ := List.mem_map.mp hlisted
      exact h.valid.uniques u hu
    · obtain ⟨i, hi, rfl⟩ := List.mem_map.mp hlisted
      exact h.valid.indexes i hi
  foreignKeys := fun _ hf => h.valid.foreignKey_column hf
  names := h.valid.names_apart
  types := fun c hc => (h.columns c hc).dataType.sized
  actions := fun d hd => (h.onDelete d hd).matched
  hints := ⟨h.hints.placed, fun c hc => (h.columns c hc).hints.placed,
    fun i hi => (h.indexes i hi).placed⟩

end Table

theorem Schema.WellFormed.consistent {s : Schema} (h : s.WellFormed) : s.Consistent := by
  obtain ⟨htables, hviews, hstatements⟩ := build_ok_iff.mp h.build
  exact {
    tableNames := htables
    viewNames := hviews
    statementNames := hstatements
    tables := fun t ht => (h.tables t ht).consistent
    views := fun v hv =>
      ⟨(h.views v hv).valid.columns_nodup, (h.views v hv).valid.arity, (h.views v hv).hints.placed⟩
    statements := fun d hd => (h.statements d hd).body.matched }

theorem Schema.WellFormed.built {s : Schema} (h : s.WellFormed) : s.Built where
  tables t ht := Table.built_iff_valid.mpr (h.tables t ht).valid
  views v hv := View.built_iff_valid.mpr (h.views v hv).valid
  build := h.build

theorem Schema.WellFormed.columnsBuilt {s : Schema} (h : s.WellFormed) : s.ColumnsBuilt :=
  fun t ht c hc => Column.build_ok_iff.mpr ⟨((h.tables t ht).columns c hc).name, rfl⟩

/-- Whatever is read without a mistake is accepted by the builders, so that all that is said of
migrations between built schemas holds of those that are read. -/
theorem built_of_parse {source : String} {s : Schema} (h : Schema.parse source = .ok s) :
    s.Built ∧ s.ColumnsBuilt :=
  ⟨(wellFormed_of_parse h).built, (wellFormed_of_parse h).columnsBuilt⟩

/-- Whatever is read without a mistake is consistent. The last check of the names never fails: what
has a name that is taken was refused before, at its own place. -/
theorem parse_consistent :
    (∀ source s, Schema.parse source = .ok s → s.Consistent) ∧
      ∀ ts, (∀ e, (statements .empty ts).2.build ≠ .error e) ∧
        schemaOfLexemes ts =
          match statements .empty ts with
          | ([], s) => .ok s
          | (refusals, _) => .error (refusals.map (Refusal.locate (endOf ts))) := by
  refine ⟨fun source s h => (wellFormed_of_parse h).consistent, fun ts => ⟨?_, ?_⟩⟩
  · intro e he
    rw [build_statements] at he
    cases he
  · exact schemaOfLexemes_eq_run ts

namespace Sample

def billText : String :=
  "CREATE TABLE Bill (Id NUMBER(8, 2) PRIMARY KEY REFERENCES Bill(Id))
    ON DELETE (INSERT INTO Log (Id) VALUES (1));
  CREATE VIEW Bills (Id) AS SELECT Id FROM Bill;"

end Sample

theorem exists_ok_of_map {ε α β : Type} {x : Except ε α} {f : α → β} {b : β}
    (h : x.map f = .ok b) : ∃ a, x = .ok a ∧ f a = b := by
  cases x with
  | error e => cases h
  | ok a => exact ⟨a, rfl, Except.ok.inj h⟩

theorem bill_consistent : ∃ s, Schema.parse Sample.billText = .ok s ∧
    s.keys = [(.table, "Bill"), (.view, "Bills")] ∧ s.Consistent := by
  obtain ⟨s, hs, hkeys⟩ := exists_ok_of_map (show (Schema.parse Sample.billText).map Schema.keys =
    .ok [(.table, "Bill"), (.view, "Bills")] by decide +kernel)
  exact ⟨s, hs, hkeys, parse_consistent.1 _ _ hs⟩

end Schemata
