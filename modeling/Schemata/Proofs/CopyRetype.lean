import Schemata.Dialect.ColumnChange
import Schemata.Proofs.Built
import Mathlib.Logic.Function.Basic

/-! What the edits of a copy do to the columns of a table in the database. The second column takes
the place of the first and nothing else changes, but only if its name is free: the name is made from
that of the first column alone, and a column of the table may have it already. -/
namespace Schemata

/-- What the database keeps of a column. -/
structure ColumnState where
  spelling : String
  nullable : Bool := true
  default : Option String := none
  deriving DecidableEq, Repr

/-- The columns of a table, under the names by which the database tells them apart. -/
abbrev ColumnStates := String → Option ColumnState

namespace Dialect

def columnState (d : Dialect) (inKey : Bool) (c : Column) : ColumnState where
  spelling := d.columnType inKey c
  nullable := c.nullable
  default := c.default.map d.defaultText

/-- The columns of a table of the schema, in a database that folds names in the given way. -/
def columnStates (d : Dialect) (s : Schema) (letters : LetterCase) (t : Table) : ColumnStates :=
  fun name => (t.columns.find? fun c => letters.fold c.name == name).map fun c =>
    d.columnState (s.isKeyColumn t c.name) c

/-- The value is that of a column in another type. -/
def Converts (d : Dialect) (column value : String) : Prop :=
  ∃ spelling source target, value = conversion (d.quote column) spelling source target

end Dialect

namespace ColumnEdit

variable (d : Dialect) (letters : LetterCase)

/-- What is added needs a name that is free, what is changed has to be there, and a table keeps at
least one column. -/
def Enabled (columns : ColumnStates) : ColumnEdit → Prop
  | add column _ => columns (letters.fold column) = none
  | fill column value => (columns (letters.fold column)).isSome = true ∧
      ∃ source, d.Converts source value ∧ (columns (letters.fold source)).isSome = true
  | drop column => (columns (letters.fold column)).isSome = true ∧
      ∃ other, other ≠ letters.fold column ∧ (columns other).isSome = true
  | rename column newName =>
    (columns (letters.fold column)).isSome = true ∧ columns (letters.fold newName) = none
  | requireValue column | setDefault column _ | comment column _ =>
    (columns (letters.fold column)).isSome = true

/-- A column that is added takes nulls and has no default. Values and comments are not kept track
of. -/
def next (columns : ColumnStates) : ColumnEdit → ColumnStates
  | add column spelling => Function.update columns (letters.fold column) (some { spelling })
  | drop column => Function.update columns (letters.fold column) none
  | rename column newName =>
    Function.update (Function.update columns (letters.fold column) none) (letters.fold newName)
      (columns (letters.fold column))
  | requireValue column =>
    Function.update columns (letters.fold column)
      ((columns (letters.fold column)).map fun c => { c with nullable := false })
  | setDefault column value =>
    Function.update columns (letters.fold column)
      ((columns (letters.fold column)).map fun c => { c with default := some value })
  | fill _ _ | comment _ _ => columns

/-- The edits can be made one after the other, none of them stuck. -/
inductive Run : ColumnStates → List ColumnEdit → ColumnStates → Prop where
  | nil (columns) : Run columns [] columns
  | cons {columns final e edits} (he : Enabled d letters columns e)
      (hrest : Run (next letters columns e) edits final) : Run columns (e :: edits) final

variable {d letters} {columns middle final : ColumnStates} {edits : List ColumnEdit}

theorem Run.append {others : List ColumnEdit} (h : Run d letters columns edits middle)
    (k : Run d letters middle others final) : Run d letters columns (edits ++ others) final := by
  induction h with
  | nil columns => exact k
  | cons he _ ih => exact .cons he (ih k)

theorem Run.unique {final' : ColumnStates} (h : Run d letters columns edits final)
    (k : Run d letters columns edits final') : final' = final := by
  induction h with
  | nil columns =>
    cases k
    rfl
  | cons _ _ ih =>
    cases k with
    | cons _ hrest => exact ih hrest

end ColumnEdit

namespace Dialect

open ColumnEdit (Run Enabled)

variable {d : Dialect} {letters : LetterCase} {columns : ColumnStates} {inKey : Bool}
  {before after : Column} {name : String}

section Edits

variable (hfree : columns (letters.fold (d.copyName name)) = none)
  (hthere : (columns (letters.fold name)).isSome = true)
include hfree hthere

theorem copyName_ne : letters.fold (d.copyName name) ≠ letters.fold name := by
  intro heq
  rw [← heq, hfree] at hthere
  cases hthere

/-- Once the second column is renamed, it stands where the first one was. -/
theorem run_replace (spelling : String) {value : String} (hvalue : d.Converts name value) :
    Run d letters columns [.add (d.copyName name) spelling, .fill (d.copyName name) value,
      .drop name, .rename (d.copyName name) name]
      (Function.update columns (letters.fold name) (some { spelling })) := by
  have hne := copyName_ne hfree hthere
  have hrenamed : Function.update columns (letters.fold name) (some { spelling }) =
      Function.update (Function.update (Function.update (Function.update columns
        (letters.fold (d.copyName name)) (some { spelling })) (letters.fold name) none)
        (letters.fold (d.copyName name)) none) (letters.fold name) (some { spelling }) := by
    have hsame : Function.update columns (letters.fold (d.copyName name)) none = columns :=
      Function.update_eq_self_iff.mpr hfree.symm
    rw [Function.update_comm hne.symm, Function.update_idem, Function.update_idem, hsame]
  rw [hrenamed]
  refine .cons hfree (.cons ⟨?_, name, hvalue, ?_⟩ (.cons ⟨?_, _, hne, ?_⟩ (.cons ⟨?_, ?_⟩ ?_)))
  · simp [ColumnEdit.next]
  · simpa [ColumnEdit.next, hne.symm] using hthere
  · simpa [ColumnEdit.next, hne.symm] using hthere
  · simp [ColumnEdit.next]
  · simp [ColumnEdit.next, hne]
  · simp [ColumnEdit.next]
  · simpa [ColumnEdit.next, hne] using Run.nil _

end Edits

theorem run_requireValue (columns : ColumnStates) (name spelling : String) (nullable : Bool) :
    Run d letters (Function.update columns (letters.fold name) (some { spelling }))
      (if nullable then [] else [.requireValue name])
      (Function.update columns (letters.fold name) (some { spelling, nullable })) := by
  cases nullable with
  | true => exact .nil _
  | false =>
    refine .cons (by simp [Enabled]) ?_
    simpa [ColumnEdit.next] using Run.nil _

theorem run_setDefault (columns : ColumnStates) (name spelling : String) (nullable : Bool)
    (value : Option DefaultValue) :
    Run d letters (Function.update columns (letters.fold name) (some { spelling, nullable }))
      (value.map fun v => ColumnEdit.setDefault name (d.defaultText v)).toList
      (Function.update columns (letters.fold name)
        (some { spelling, nullable, default := value.map d.defaultText })) := by
  cases value with
  | none => exact .nil _
  | some v =>
    refine .cons (by simp [Enabled]) ?_
    simpa [ColumnEdit.next] using Run.nil _

theorem run_comment (columns : ColumnStates) (name : String) (c : ColumnState)
    (text : Option String) :
    Run d letters (Function.update columns (letters.fold name) (some c))
      (text.map (ColumnEdit.comment name)).toList
      (Function.update columns (letters.fold name) (some c)) := by
  cases text with
  | none => exact .nil _
  | some text => exact .cons (by simp [Enabled]) (.nil _)

/-- With a free name, all edits of a copy can be made, and the one column becomes the new one. -/
theorem run_copyEdits (hfree : columns (letters.fold (d.copyName after.name)) = none)
    (hthere : (columns (letters.fold after.name)).isSome = true) :
    Run d letters columns (d.copyEdits inKey before after)
      (Function.update columns (letters.fold after.name) (some (d.columnState inKey after))) := by
  have hvalue : d.Converts after.name (conversion (d.quote after.name) (d.columnType inKey after)
      before.dataType after.dataType) := ⟨_, _, _, rfl⟩
  have hreplaced := run_replace hfree hthere (d.columnType inKey after) hvalue
  exact ((hreplaced.append (run_requireValue columns _ _ after.nullable)).append
    (run_setDefault columns _ _ _ after.default)).append
    (run_comment columns _ _ after.comment)

theorem free_of_run {final : ColumnStates}
    (h : Run d letters columns (d.copyEdits inKey before after) final) :
    columns (letters.fold (d.copyName after.name)) = none := by
  cases h with
  | cons he _ => exact he

section Stored

variable {s : Schema} {t : Table}

theorem columnStates_eq_none_iff : d.columnStates s letters t name = none ↔
    ∀ c ∈ t.columns, letters.fold c.name ≠ name := by
  simp [columnStates]

theorem columnStates_isSome {c : Column} (hc : c ∈ t.columns) :
    (d.columnStates s letters t (letters.fold c.name)).isSome = true := by
  rw [Option.isSome_iff_ne_none, ne_eq, columnStates_eq_none_iff]
  exact fun h => h c hc rfl

end Stored

/-- A change of the type family that is accepted is a copy. -/
theorem alterByCopy_statements {table : String} {change : ColumnChange}
    {statements : List Statement} (hchange : change.dataType = true)
    (hfamily : before.dataType.family ≠ after.dataType.family)
    (h : d.alterByCopy table inKey before after change = .ok statements) :
    statements = (d.copyEdits inKey before after).map (d.editStatement table) := by
  have hother : (before.dataType.family != after.dataType.family) = true := bne_iff_ne.mpr hfamily
  unfold alterByCopy at h
  rw [hchange, hother, Bool.true_and, Bool.true_and] at h
  split at h
  · cases h
  · cases h
    rfl

end Dialect

open Dialect (oracle)

/-- A type of another family is reached by the edits of a copy. They can all be made exactly if no
column of the table has the name of the second column, in whatever way the database folds names.
Then the table has the columns that it had, the one that changes is as it should be, and all others
are as they were. -/
theorem copy_retype_runs_iff {s : Schema} {t : Table} {inKey : Bool} {before after : Column}
    {change : ColumnChange} {statements : List Statement} (hbefore : before ∈ t.columns)
    (hname : after.name = before.name) (hchange : change.dataType = true)
    (hfamily : before.dataType.family ≠ after.dataType.family)
    (h : oracle.alterColumn t.name inKey before after change = .ok statements)
    (letters : LetterCase) :
    statements = (oracle.copyEdits inKey before after).map (oracle.editStatement t.name) ∧
      ((∃ final, ColumnEdit.Run oracle letters (oracle.columnStates s letters t)
          (oracle.copyEdits inKey before after) final) ↔
        ∀ c ∈ t.columns, letters.fold c.name ≠ letters.fold (oracle.copyName after.name)) ∧
      ∀ final, ColumnEdit.Run oracle letters (oracle.columnStates s letters t)
          (oracle.copyEdits inKey before after) final →
        (∀ name, (final name).isSome = (oracle.columnStates s letters t name).isSome) ∧
        final (letters.fold after.name) = some (oracle.columnState inKey after) ∧
        ∀ name, name ≠ letters.fold after.name →
          final name = oracle.columnStates s letters t name := by
  have hthere : (oracle.columnStates s letters t (letters.fold after.name)).isSome = true := by
    rw [hname]
    exact Dialect.columnStates_isSome hbefore
  refine ⟨Dialect.alterByCopy_statements hchange hfamily h, ⟨?_, ?_⟩, ?_⟩
  · rintro ⟨final, hrun⟩
    exact Dialect.columnStates_eq_none_iff.mp (Dialect.free_of_run hrun)
  · intro hfree
    exact ⟨_, Dialect.run_copyEdits (Dialect.columnStates_eq_none_iff.mpr hfree) hthere⟩
  · intro final hrun
    obtain rfl := (Dialect.run_copyEdits (Dialect.free_of_run hrun) hthere).unique hrun
    refine ⟨fun name => ?_, Function.update_self .., fun name hne => Function.update_of_ne hne ..⟩
    by_cases hchanged : name = letters.fold after.name
    · rw [hchanged, Function.update_self, hthere]
      rfl
    · rw [Function.update_of_ne hchanged]

namespace Sample

def numberCode : Column := { name := "Code", dataType := .integer }

def textCode : Column := { name := "Code", dataType := .varchar 12 }

/-- Spare parts with a number as their code, and with one more column. -/
def sparePart (other : String) : Table where
  name := "SparePart"
  columns := [
    { name := "Id", dataType := .integer, nullable := false }, numberCode,
    { name := other, dataType := .integer }]
  primaryKey := ⟨"PK_SparePart", ["Id"]⟩

def spareParts (other : String) : Schema := { tables := [sparePart other] }

theorem spareParts_built : (spareParts "Code_TMP").Built :=
  Schema.built_of_drafts (by decide +kernel) (by decide) rfl

end Sample

/-- Codes become texts. With another column of that name, the second one cannot be added, however
names are folded; without it all edits can be made. -/
theorem second_code_taken :
    (Sample.spareParts "Code_TMP").Built ∧
      ∃ statements, oracle.alterColumn "SparePart" false Sample.numberCode Sample.textCode
        (.between Sample.numberCode Sample.textCode) = .ok statements ∧
      statements.head? = some (.plain "ALTER TABLE SparePart ADD (Code_TMP VARCHAR2(12 CHAR))") ∧
      ∀ letters,
        (¬ ∃ final, ColumnEdit.Run oracle letters
          (oracle.columnStates (Sample.spareParts "Code_TMP") letters
            (Sample.sparePart "Code_TMP"))
          (oracle.copyEdits false Sample.numberCode Sample.textCode) final) ∧
        ∃ final, ColumnEdit.Run oracle letters
          (oracle.columnStates (Sample.spareParts "Note") letters (Sample.sparePart "Note"))
          (oracle.copyEdits false Sample.numberCode Sample.textCode) final := by
  refine ⟨Sample.spareParts_built, ?_⟩
  obtain ⟨statements, hstatements⟩ : ∃ statements, oracle.alterColumn "SparePart" false
      Sample.numberCode Sample.textCode (.between Sample.numberCode Sample.textCode) =
      .ok statements := ⟨_, rfl⟩
  refine ⟨statements, hstatements, ?_, fun letters => ?_⟩
  · cases hstatements
    decide +kernel
  · have hcopy : oracle.copyName Sample.textCode.name = "Code_TMP" := by decide +kernel
    have hname : Sample.textCode.name = Sample.numberCode.name := rfl
    obtain ⟨_, htaken, _⟩ := copy_retype_runs_iff (s := Sample.spareParts "Code_TMP")
      (t := Sample.sparePart "Code_TMP") (by decide) hname (by decide) (by decide) hstatements
      letters
    obtain ⟨_, hfree, _⟩ := copy_retype_runs_iff (s := Sample.spareParts "Note")
      (t := Sample.sparePart "Note") (by decide) hname (by decide) (by decide) hstatements letters
    rw [hcopy] at htaken hfree
    constructor
    · intro hrun
      exact htaken.mp hrun { name := "Code_TMP", dataType := .integer } (by decide) rfl
    · apply hfree.mpr
      cases letters <;> decide +kernel

end Schemata
