import Schemata.FullScript
import Schemata.Proofs.Resolved

/-! Which rows the expressions of a statement can read. A statement that changes rows reads the row
that changes and, in an action block, the deleted one. Resolution is wider: it takes the name of any
table as a qualifier, and such a reference is written into the script as it stands. -/
namespace Schemata

/-- The columns that a statement names in its expressions, in reading order. -/
def Dml.columnRefs (dml : Dml) : List (Option String × String) :=
  dml.expressions.flatMap Expr.columnRefs

/-- The statements of a schema, each with the table whose action block it stands in. Templates
stand in none. -/
def Schema.dmlStatements (s : Schema) : List (Option Table × Dml) :=
  s.tables.flatMap (fun t => t.onDelete.map (Prod.mk (some t))) ++
    s.statements.map fun r => (none, r.body)

/-- The table whose row a qualifier names inside a statement, if it names one at all. -/
def rowOf? (owner : Option Table) (target : Table) : Option String → Option Table
  | none => some target
  | some qualifier =>
    if qualifier = oldRowQualifier ∧ owner.isSome then owner
    else if qualifier = target.name then some target
    else none

/-- A column of a row that the statement reads. -/
def InScope (owner : Option Table) (target : Table) (ref : Option String × String) : Prop :=
  ∃ t, rowOf? owner target ref.1 = some t ∧ ref.2 ∈ t.columnNames

/-- A column of a table of the schema none of whose rows the statement reads. -/
def Strays (s : Schema) (owner : Option Table) (target : Table) (ref : Option String × String) :
    Prop :=
  rowOf? owner target ref.1 = none ∧
    ∃ qualifier t, ref.1 = some qualifier ∧ s.findTable? qualifier = some t ∧
      ref.2 ∈ t.columnNames

/-- What resolution asks of a statement. -/
def Schema.Accepts (s : Schema) (owner : Option Table) (dml : Dml) : Prop :=
  ∃ target, s.findTable? dml.table = some target ∧
    (∀ c ∈ dml.targetColumns, c ∈ target.columnNames) ∧
    ∀ ref ∈ dml.columnRefs, InScope owner target ref ∨ Strays s owner target ref

theorem rowOf_target_ne_none (owner : Option Table) (target : Table) :
    rowOf? owner target (some target.name) ≠ none := by
  by_cases hold : target.name = oldRowQualifier ∧ owner.isSome
  · rw [rowOf?, if_pos hold]
    exact Option.isSome_iff_ne_none.mp hold.2
  · simp [rowOf?, hold]

theorem InScope.not_strays {s : Schema} {owner : Option Table} {target : Table}
    {ref : Option String × String} (h : InScope owner target ref) :
    ¬ Strays s owner target ref := by
  obtain ⟨t, ht, _⟩ := h
  rintro ⟨hnone, _⟩
  rw [ht] at hnone
  cases hnone

theorem Table.findColumn_isSome_iff {t : Table} {name : String} :
    (t.findColumn? name).isSome = true ↔ name ∈ t.columnNames := by
  simp [findColumn?, columnNames]

namespace Resolve

variable {s : Schema} {source : String} {owner : Option Table} {target : Table}

theorem tableColumn_ok_iff {t : Table} {name : String} :
    tableColumn source t name = .ok () ↔ name ∈ t.columnNames := by
  rw [← Table.findColumn_isSome_iff]
  unfold tableColumn
  split <;> simp_all

/-- The table that a qualifier is looked up as: the one whose row it names, or else any. -/
theorem qualifiedTable_ok_iff (htarget : s.findTable? target.name = some target)
    {qualifier : String} {t : Table} :
    qualifiedTable s source owner qualifier = .ok t ↔
      rowOf? owner target (some qualifier) = some t ∨
        rowOf? owner target (some qualifier) = none ∧ s.findTable? qualifier = some t := by
  by_cases hold : qualifier = oldRowQualifier ∧ owner.isSome
  · obtain ⟨rfl, howner⟩ := hold
    obtain ⟨o, rfl⟩ := Option.isSome_iff_exists.mp howner
    simp [qualifiedTable, rowOf?]
  · have hlookup : qualifiedTable s source owner qualifier = .ok t ↔
        s.findTable? qualifier = some t := by
      unfold qualifiedTable
      split
      · rename_i hq
        exact absurd ⟨beq_iff_eq.mp hq, rfl⟩ hold
      · cases s.findTable? qualifier <;> simp
    rw [hlookup, rowOf?, if_neg hold]
    by_cases hown : qualifier = target.name
    · subst hown
      simp [htarget]
    · simp [hown]

theorem statementColumn_ok_iff (htarget : s.findTable? target.name = some target)
    {ref : Option String × String} :
    statementColumn s source owner target ref = .ok () ↔
      InScope owner target ref ∨ Strays s owner target ref := by
  obtain ⟨_ | qualifier, name⟩ := ref
  · simp [statementColumn, tableColumn_ok_iff, InScope, Strays, rowOf?]
  · simp only [statementColumn, bind_ok_iff, qualifiedTable_ok_iff htarget, tableColumn_ok_iff,
      InScope, Strays]
    constructor
    · rintro ⟨t, hrow | ⟨hnone, hfind⟩, hname⟩
      · exact Or.inl ⟨t, hrow, hname⟩
      · exact Or.inr ⟨hnone, qualifier, t, rfl, hfind, hname⟩
    · rintro (⟨t, hrow, hname⟩ | ⟨hnone, _, t, hq, hfind, hname⟩)
      · exact ⟨t, Or.inl hrow, hname⟩
      · cases hq
        exact ⟨t, Or.inr ⟨hnone, hfind⟩, hname⟩

theorem dml_ok_iff {statement : Dml} :
    dml s source owner statement = .ok () ↔ s.Accepts owner statement := by
  unfold dml Schema.Accepts
  cases hfind : s.findTable? statement.table with
  | none => simp
  | some target =>
    have hname : target.name = statement.table := by simpa using List.find?_some hfind
    have htarget : s.findTable? target.name = some target := hname ▸ hfind
    simp only [Option.some.injEq, exists_eq_left']
    constructor
    · intro h
      obtain ⟨_, hcolumns, hrefs⟩ := bind_ok_iff.mp h
      exact ⟨fun c hc => tableColumn_ok_iff.mp (forM_ok_iff.mp hcolumns c hc),
        fun ref href => (statementColumn_ok_iff htarget).mp (forM_ok_iff.mp hrefs ref href)⟩
    · rintro ⟨hcolumns, hrefs⟩
      exact bind_ok_iff.mpr ⟨(),
        forM_ok_iff.mpr fun c hc => tableColumn_ok_iff.mpr (hcolumns c hc),
        forM_ok_iff.mpr fun ref href => (statementColumn_ok_iff htarget).mpr (hrefs ref href)⟩

end Resolve

namespace Schema

variable {s : Schema}

theorem mem_dmlStatements {owner : Option Table} {dml : Dml} :
    (owner, dml) ∈ s.dmlStatements ↔
      (∃ t ∈ s.tables, owner = some t ∧ dml ∈ t.onDelete) ∨
        ∃ r ∈ s.statements, owner = none ∧ dml = r.body := by
  simp [dmlStatements, eq_comm, and_comm, and_left_comm]

/-- A schema resolves if its foreign keys and views do and every statement is accepted. -/
theorem resolve_ok_iff_accepts : s.resolve = .ok () ↔
    (∀ t ∈ s.tables, ∀ f ∈ t.foreignKeys,
      Resolve.reference s ("table " ++ t.name) f.reference = .ok ()) ∧
    (∀ v ∈ s.views, Resolve.view s v = .ok ()) ∧
    ∀ x ∈ s.dmlStatements, s.Accepts x.1 x.2 := by
  simp only [resolve_ok_iff, resolve_table_ok_iff, Resolve.dml_ok_iff]
  constructor
  · rintro ⟨htables, hviews, htemplates⟩
    refine ⟨fun t ht => (htables t ht).1, hviews, ?_⟩
    rintro ⟨owner, dml⟩ hx
    rcases mem_dmlStatements.mp hx with ⟨t, ht, rfl, hdml⟩ | ⟨r, hr, rfl, rfl⟩
    · exact (htables t ht).2 dml hdml
    · exact htemplates r hr
  · rintro ⟨hkeys, hviews, hall⟩
    refine ⟨fun t ht => ⟨hkeys t ht, fun dml hdml => ?_⟩, hviews, fun r hr => ?_⟩
    · exact hall (some t, dml) (mem_dmlStatements.mpr (Or.inl ⟨t, ht, rfl, hdml⟩))
    · exact hall (none, r.body) (mem_dmlStatements.mpr (Or.inr ⟨r, hr, rfl, rfl⟩))

end Schema

namespace Dialect

variable {d : Dialect} {owner : Option Table} {target : Table} {style : Style}

/-- The styles in which a statement is written: by itself, or in a trigger, where a column without
a qualifier may get that of the table that changes. -/
def statementStyles (d : Dialect) (owner : Option Table) (target : Table) : List Style :=
  match owner with
  | none => [d.plainStyle]
  | some _ => [d.style (some d.oldRow) none, d.style (some d.oldRow) (some target.name)]

/-- How a written statement can name a column of the rows that it reads. -/
def rowColumnTexts (d : Dialect) (owner : Option Table) (target : Table) (name : String) :
    List String :=
  d.quote name :: (d.quote target.name ++ "." ++ d.quote name) ::
    (owner.map fun _ => d.oldRow ++ "." ++ d.quote name).toList

theorem column_of_row {q : Option String} {t : Table}
    (hstyle : style ∈ d.statementStyles owner target)
    (h : rowOf? owner target q = some t) (name : String) :
    style.column q name ∈ d.rowColumnTexts owner target name := by
  cases q with
  | none =>
    cases owner with
    | none => simp_all [statementStyles, plainStyle, Dialect.style, rowColumnTexts]
    | some o =>
      simp only [statementStyles, List.mem_cons, List.not_mem_nil, or_false] at hstyle
      rcases hstyle with rfl | rfl <;> simp [Dialect.style, rowColumnTexts]
  | some qualifier =>
    cases owner with
    | none =>
      have hown : qualifier = target.name := (by simpa [rowOf?] using h : _ ∧ _).1
      simp_all [statementStyles, plainStyle, Dialect.style, rowColumnTexts]
    | some o =>
      simp only [statementStyles, List.mem_cons, List.not_mem_nil, or_false] at hstyle
      by_cases hold : qualifier = oldRowQualifier
      · rcases hstyle with rfl | rfl <;> simp [Dialect.style, rowColumnTexts, hold]
      · have hown : qualifier = target.name := (by simpa [rowOf?, hold] using h : _ ∧ _).1
        rcases hstyle with rfl | rfl <;> simp_all [Dialect.style, rowColumnTexts]

/-- A qualifier that names no row is written as the name of a table. -/
theorem column_of_stray {qualifier : String} (hstyle : style ∈ d.statementStyles owner target)
    (h : rowOf? owner target (some qualifier) = none) (name : String) :
    style.column (some qualifier) name = d.quote qualifier ++ "." ++ d.quote name := by
  cases owner with
  | none => simp_all [statementStyles, plainStyle, Dialect.style]
  | some o =>
    have hold : qualifier ≠ oldRowQualifier := by
      rintro rfl
      simp [rowOf?] at h
    simp only [statementStyles, List.mem_cons, List.not_mem_nil, or_false] at hstyle
    rcases hstyle with rfl | rfl <;> simp [Dialect.style, hold]

end Dialect

/-- Resolution accepts a statement exactly if its table and the columns that it writes exist and
every column reference is one of the rows that the statement reads or strays to another table. So
in a schema that resolves, the references of a statement are all in scope exactly if none strays. In
every dialect those in scope are written as columns of the table that changes or of the deleted row,
and a stray one is written under the name of its own table. -/
theorem statement_references_in_scope_iff (s : Schema) :
    (s.resolve = .ok () ↔
      (∀ t ∈ s.tables, ∀ f ∈ t.foreignKeys,
        Resolve.reference s ("table " ++ t.name) f.reference = .ok ()) ∧
      (∀ v ∈ s.views, Resolve.view s v = .ok ()) ∧
      ∀ x ∈ s.dmlStatements, s.Accepts x.1 x.2) ∧
    (s.resolve = .ok () → ∀ owner dml, (owner, dml) ∈ s.dmlStatements →
      ∃ target, s.findTable? dml.table = some target ∧
        ((∀ ref ∈ dml.columnRefs, InScope owner target ref) ↔
          ∀ ref ∈ dml.columnRefs, ¬ Strays s owner target ref) ∧
        ∀ ref ∈ dml.columnRefs, ∀ d : Dialect, ∀ style ∈ d.statementStyles owner target,
          (InScope owner target ref →
            style.column ref.1 ref.2 ∈ d.rowColumnTexts owner target ref.2) ∧
          (Strays s owner target ref → ∃ qualifier, ref.1 = some qualifier ∧
            qualifier ≠ target.name ∧
            style.column ref.1 ref.2 = d.quote qualifier ++ "." ++ d.quote ref.2)) := by
  refine ⟨Schema.resolve_ok_iff_accepts, fun h owner dml hx => ?_⟩
  obtain ⟨target, hfind, _, hrefs⟩ := (Schema.resolve_ok_iff_accepts.mp h).2.2 (owner, dml) hx
  refine ⟨target, hfind, ⟨fun hscope ref href => (hscope ref href).not_strays,
    fun hstray ref href => (hrefs ref href).resolve_right (hstray ref href)⟩, ?_⟩
  rintro ⟨q, name⟩ _ d style hstyle
  refine ⟨fun ⟨t, hrow, _⟩ => Dialect.column_of_row hstyle hrow name, ?_⟩
  rintro ⟨hnone, qualifier, t, rfl, _, _⟩
  refine ⟨qualifier, rfl, ?_, Dialect.column_of_stray hstyle hnone name⟩
  rintro rfl
  exact rowOf_target_ne_none owner target hnone

namespace Sample

def guest : Table where
  name := "Guest"
  columns := [
    { name := "Id", dataType := .integer, nullable := false },
    { name := "Departed", dataType := .integer }]
  primaryKey := ⟨"PK_Guest", ["Id"]⟩

/-- Frees rooms, but tells the guests that have left by a table that it does not read. -/
def freeRooms : Dml :=
  .delete "Booking" (some (.binary .eq (.column (some "Guest") "Departed") (.literal (.integer 1))))

def booking : Table where
  name := "Booking"
  columns := [{ name := "Guest", dataType := .integer, nullable := false }]
  primaryKey := ⟨"PK_Booking", ["Guest"]⟩

def hotel : Schema := { tables := [guest, booking], statements := [⟨"FreeRooms", freeRooms⟩] }

end Sample

/-- A delete from one table whose filter is about another one is accepted and written as it is. -/
theorem departed_guest_strays :
    Sample.hotel.resolve = .ok () ∧ (none, Sample.freeRooms) ∈ Sample.hotel.dmlStatements ∧
      (some "Guest", "Departed") ∈ Sample.freeRooms.columnRefs ∧
      Strays Sample.hotel none Sample.booking (some "Guest", "Departed") ∧
      ¬ (∀ ref ∈ Sample.freeRooms.columnRefs, InScope none Sample.booking ref) ∧
      Dialect.postgreSql.changeRows Sample.freeRooms =
        .plain "DELETE FROM Booking WHERE Guest.Departed = 1" := by
  have hresolve : Sample.hotel.resolve = .ok () := by decide +kernel
  have hmem : (none, Sample.freeRooms) ∈ Sample.hotel.dmlStatements := by decide +kernel
  have href : (some "Guest", "Departed") ∈ Sample.freeRooms.columnRefs := by decide +kernel
  have hstray : Strays Sample.hotel none Sample.booking (some "Guest", "Departed") :=
    ⟨by decide, "Guest", Sample.guest, rfl, rfl, by decide⟩
  obtain ⟨target, hfind, hscope, _⟩ :=
    (statement_references_in_scope_iff Sample.hotel).2 hresolve none Sample.freeRooms hmem
  cases hfind
  exact ⟨hresolve, hmem, href, hstray, fun h => hscope.mp h _ href hstray, by decide +kernel⟩

end Schemata
