import Schemata.Proofs.Emission
import Mathlib.Data.List.Find

/-! Hints speak to their own dialect. A creation script depends on the hints for its dialect or for
all, and among these only on the keys that scripts are written by. -/
namespace Schemata

/-- Keys that have a say in a script; the others are for the programs that use the database. -/
def HintKey.isWritten : HintKey → Bool
  | columnType | tablespace | options => true
  | enumeration | truncate | emptyAsNull => false

namespace Hints

/-- The hints that can be heard in a script for the dialect. -/
def heardBy (d : Dialect) (hints : Hints) : Hints :=
  List.filter (fun e => (e.scope = .all ∨ e.scope = .dialect d) ∧ e.hint.key.isWritten) hints

/-- The first entry of a key with just that scope. -/
def first? (hints : Hints) (scope : HintScope) (key : HintKey) : Option ScopedHint :=
  List.find? (fun e => e.scope = scope ∧ e.hint.key = key) hints

variable {hints : Hints} {d : Dialect} {key : HintKey}

theorem appliesTo_iff {scope : HintScope} :
    scope.appliesTo d = true ↔ scope = .all ∨ scope = .dialect d := by
  cases scope <;> simp [HintScope.appliesTo]

theorem isShadowed_iff {e : ScopedHint} : hints.isShadowed d e = true ↔
    e.scope = .all ∧ (hints.first? (.dialect d) e.hint.key).isSome = true := by
  simp [isShadowed, first?]

/-- An entry for all dialects counts exactly if the dialect has none of its own with that key. -/
theorem find_forDialect (hints : Hints) (d : Dialect) (key : HintKey) :
    (hints.forDialect d).find? (fun h => h.key == key) =
      (List.find? (fun e => e.hint.key = key ∧ (e.scope = .dialect d ∨
        e.scope = .all ∧ hints.first? (.dialect d) key = none)) hints).map (·.hint) := by
  rw [forDialect, List.find?_map, List.find?_filter, List.find?_filter]
  congr 1
  refine List.find?_congr fun e _ => decide_eq_decide.mpr ?_
  simp only [Function.comp_apply, decide_eq_true_eq, Bool.not_eq_true', ← Bool.not_eq_true,
    isShadowed_iff, appliesTo_iff, beq_iff_eq]
  by_cases hkey : e.hint.key = key
  · subst hkey
    cases e.scope <;> simp
  · simp [hkey]

/-- The value of a key is that of the first entry for the dialect alone, or else of the first one
for all dialects, in whatever order the two kinds stand. -/
theorem valueOf_eq (hints : Hints) (d : Dialect) (key : HintKey) : hints.valueOf? d key =
    ((hints.first? (.dialect d) key).or (hints.first? .all key)).bind (·.hint.value?) := by
  rw [valueOf?, find_forDialect, Option.bind_map]
  congr 1
  cases hown : hints.first? (.dialect d) key with
  | some own =>
    rw [Option.some_or, ← hown]
    refine List.find?_congr fun e _ => decide_eq_decide.mpr ?_
    simp [hown, and_comm]
  | none =>
    rw [Option.none_or]
    refine List.find?_congr fun e he => decide_eq_decide.mpr ?_
    have hother : ¬ (e.scope = .dialect d ∧ e.hint.key = key) := by
      simpa using List.find?_eq_none.mp hown e he
    tauto

theorem first_heardBy {scope : HintScope} (hscope : scope = .all ∨ scope = .dialect d)
    (hkey : key.isWritten = true) :
    (hints.heardBy d).first? scope key = hints.first? scope key := by
  rw [first?, heardBy, List.find?_filter]
  refine List.find?_congr fun e _ => decide_eq_decide.mpr ?_
  constructor
  · intro h
    exact of_decide_eq_true h.2
  · rintro ⟨rfl, rfl⟩
    simp [hscope, hkey]

theorem valueOf_heardBy (hkey : key.isWritten = true) :
    (hints.heardBy d).valueOf? d key = hints.valueOf? d key := by
  rw [valueOf_eq, valueOf_eq, first_heardBy (Or.inr rfl) hkey, first_heardBy (Or.inl rfl) hkey]

@[simp] theorem columnType_heardBy : (hints.heardBy d).columnType? d = hints.columnType? d :=
  valueOf_heardBy rfl

@[simp] theorem tablespace_heardBy : (hints.heardBy d).tablespace? d = hints.tablespace? d :=
  valueOf_heardBy rfl

@[simp] theorem options_heardBy : (hints.heardBy d).options? d = hints.options? d :=
  valueOf_heardBy rfl

end Hints

/-! ### Schemas as a dialect hears them -/

def Column.heardBy (d : Dialect) (c : Column) : Column :=
  { c with hints := c.hints.heardBy d }

def Index.heardBy (d : Dialect) (i : Index) : Index :=
  { i with hints := i.hints.heardBy d }

def Table.heardBy (d : Dialect) (t : Table) : Table :=
  { t with
    columns := t.columns.map (·.heardBy d)
    indexes := t.indexes.map (·.heardBy d)
    hints := t.hints.heardBy d }

def View.heardBy (d : Dialect) (v : View) : View :=
  { v with hints := v.hints.heardBy d }

/-- The schema with every list of hints cut down to those that the dialect hears. -/
def Schema.heardBy (d : Dialect) (s : Schema) : Schema :=
  { s with tables := s.tables.map (·.heardBy d), views := s.views.map (·.heardBy d) }

section Lookup

variable {d : Dialect} {s : Schema} {t : Table}

theorem Table.findColumn_heardBy (name : String) :
    (t.heardBy d).findColumn? name = (t.findColumn? name).map (·.heardBy d) := by
  simp only [findColumn?, heardBy, List.find?_map]
  rfl

@[simp] theorem Table.foreignKeys_heardBy : (t.heardBy d).foreignKeys = t.foreignKeys := by
  simp only [foreignKeys, heardBy, List.filterMap_map]
  rfl

@[simp] theorem Table.isKeyColumn_heardBy (column : String) :
    (t.heardBy d).isKeyColumn column = t.isKeyColumn column := by
  have hindexes : (((t.heardBy d).indexes.filter fun i => i.columns.contains column).map (·.name)) =
      (t.indexes.filter fun i => i.columns.contains column).map (·.name) := by
    simp only [heardBy, List.filter_map, List.map_map]
    rfl
  simp only [isKeyColumn, constraintsTouching, foreignKeys_heardBy, hindexes]
  rfl

theorem Schema.findTable_heardBy (name : String) :
    (s.heardBy d).findTable? name = (s.findTable? name).map (·.heardBy d) := by
  simp only [findTable?, heardBy, List.find?_map]
  rfl

@[simp] theorem Schema.sourceColumns_heardBy (name : String) :
    (s.heardBy d).sourceColumns? name = s.sourceColumns? name := by
  have hview : ((s.heardBy d).findView? name).map (·.columns) =
      (s.findView? name).map (·.columns) := by
    simp only [findView?, heardBy, List.find?_map, Option.map_map]
    rfl
  unfold sourceColumns?
  rw [findTable_heardBy, hview]
  cases s.findTable? name with
  | none => rfl
  | some t =>
    simp only [Option.map_some, Table.heardBy, List.map_map]
    rfl

@[simp] theorem Schema.isKeyColumn_heardBy (column : String) :
    (s.heardBy d).isKeyColumn (t.heardBy d) column = s.isKeyColumn t column := by
  have hreferenced : (s.heardBy d).isReferenced t.name column = s.isReferenced t.name column := by
    simp only [isReferenced, heardBy, List.any_map, Function.comp_def, Table.foreignKeys_heardBy]
  simp only [isKeyColumn, Table.isKeyColumn_heardBy, ← hreferenced]
  rfl

end Lookup

namespace Resolve

variable {d : Dialect} {s : Schema} {source : String}

theorem tableColumn_heardBy (t : Table) (name : String) :
    tableColumn source (t.heardBy d) name = tableColumn source t name := by
  simp only [tableColumn, Table.findColumn_heardBy, Option.isSome_map]
  rfl

theorem view_heardBy (v : View) : view (s.heardBy d) (v.heardBy d) = view s v := by
  have hbind : (s.heardBy d).bind = s.bind := by
    funext source t
    simp only [Schema.bind, Schema.sourceColumns_heardBy]
  have hselect : select (s.heardBy d) = select s := by
    funext source q
    simp only [select, hbind]
  simp only [view, hselect]
  rfl

theorem reference_heardBy (r : Reference) :
    reference (s.heardBy d) source r = reference s source r := by
  unfold reference Schema.resolveReference
  rw [Schema.findTable_heardBy]
  cases s.findTable? r.table with
  | none => rfl
  | some t =>
    simp only [Option.map_some, Table.findColumn_heardBy]
    cases t.findColumn? r.column <;> rfl

theorem qualifiedTable_heardBy (owner : Option Table) (qualifier : String) :
    qualifiedTable (s.heardBy d) source (owner.map (·.heardBy d)) qualifier =
      (qualifiedTable s source owner qualifier).map (·.heardBy d) := by
  unfold qualifiedTable
  rw [Schema.findTable_heardBy]
  cases owner <;> cases qualifier == oldRowQualifier <;> cases s.findTable? qualifier <;> rfl

theorem statementColumn_heardBy (owner : Option Table) (target : Table)
    (column : Option String × String) :
    statementColumn (s.heardBy d) source (owner.map (·.heardBy d)) (target.heardBy d) column =
      statementColumn s source owner target column := by
  obtain ⟨_ | qualifier, name⟩ := column
  · exact tableColumn_heardBy target name
  · simp only [statementColumn, qualifiedTable_heardBy]
    cases qualifiedTable s source owner qualifier with
    | error e => rfl
    | ok t => exact tableColumn_heardBy t name

theorem dml_heardBy (owner : Option Table) (statement : Dml) :
    dml (s.heardBy d) source (owner.map (·.heardBy d)) statement =
      dml s source owner statement := by
  unfold dml
  rw [Schema.findTable_heardBy]
  cases s.findTable? statement.table with
  | none => rfl
  | some target =>
    simp only [Option.map_some]
    rw [funext (tableColumn_heardBy target), funext (statementColumn_heardBy owner target)]

theorem table_heardBy (t : Table) : table (s.heardBy d) (t.heardBy d) = table s t := by
  have hactions : dml (s.heardBy d) ("ON DELETE of table " ++ t.name) (some (t.heardBy d)) =
      dml s ("ON DELETE of table " ++ t.name) (some t) :=
    funext (dml_heardBy (some t))
  simp only [table, Table.foreignKeys_heardBy, reference_heardBy]
  rw [show (t.heardBy d).name = t.name from rfl, hactions]
  rfl

theorem statements_heardBy (templates : List DmlStatement) :
    statements (s.heardBy d) templates = statements s templates := by
  have hdml : ∀ source, dml (s.heardBy d) source none = dml s source none :=
    fun source => funext (dml_heardBy none)
  simp only [statements, hdml]

end Resolve

theorem Schema.resolve_heardBy (d : Dialect) (s : Schema) : (s.heardBy d).resolve = s.resolve := by
  have htables : (s.heardBy d).tables.forM (Resolve.table (s.heardBy d)) =
      s.tables.forM (Resolve.table s) := by
    rw [show (s.heardBy d).tables = s.tables.map (·.heardBy d) from rfl, List.forM_eq_forM,
      List.forM_map, funext Resolve.table_heardBy]
  have hviews : (s.heardBy d).views.forM (Resolve.view (s.heardBy d)) =
      s.views.forM (Resolve.view s) := by
    rw [show (s.heardBy d).views = s.views.map (·.heardBy d) from rfl, List.forM_eq_forM,
      List.forM_map, funext Resolve.view_heardBy]
  unfold resolve
  rw [htables, hviews, Resolve.statements_heardBy]
  rfl

namespace Dialect

variable {d : Dialect} {s : Schema}

theorem columnDefinition_heardBy (inKey : Bool) (c : Column) :
    d.columnDefinition inKey (c.heardBy d) = d.columnDefinition inKey c := by
  simp only [columnDefinition, columnType, Column.heardBy, Hints.columnType_heardBy]

theorem storageClause_heardBy (target : HintTarget) (hints : Hints) :
    d.storageClause target (hints.heardBy d) = d.storageClause target hints := by
  rw [storageClause, storageClause, Hints.tablespace_heardBy]

theorem optionsClause_heardBy (lead : String) (hints : Hints) :
    d.optionsClause lead (hints.heardBy d) = d.optionsClause lead hints := by
  rw [optionsClause, optionsClause, Hints.options_heardBy]

theorem createTable_heardBy (t : Table) :
    d.createTable (s.heardBy d) (t.heardBy d) = d.createTable s t := by
  have hcolumns : ((t.heardBy d).columns.map fun c =>
      d.columnDefinition ((s.heardBy d).isKeyColumn (t.heardBy d) c.name) c) =
      t.columns.map fun c => d.columnDefinition (s.isKeyColumn t c.name) c := by
    simp only [Schema.isKeyColumn_heardBy]
    rw [show (t.heardBy d).columns = t.columns.map (·.heardBy d) from rfl, List.map_map]
    exact List.map_congr_left fun c _ => columnDefinition_heardBy _ c
  have hclauses : d.inlineClauses (t.heardBy d) = d.inlineClauses t := by
    simp only [inlineClauses, Table.foreignKeys_heardBy]
    rfl
  unfold createTable
  rw [hcolumns, hclauses]
  simp only [Table.heardBy, storageClause_heardBy, optionsClause_heardBy, tableComment]

theorem tableStatements_heardBy (t : Table) :
    d.tableStatements (s.heardBy d) (t.heardBy d) = d.tableStatements s t := by
  have hcomment : d.scriptComment (t.heardBy d) = d.scriptComment t := by
    simp only [scriptComment, commentLines, Table.heardBy, List.filterMap_map]
    rfl
  rw [tableStatements, tableStatements, hcomment, createTable_heardBy]

theorem keyStatements_heardBy : d.keyStatements (s.heardBy d) = d.keyStatements s := by
  simp only [keyStatements, Schema.heardBy, emitAll_map, Table.foreignKeys_heardBy]
  rfl

theorem indexStatements_heardBy (t : Table) :
    d.indexStatements (t.heardBy d) = d.indexStatements t := by
  simp only [indexStatements, Table.heardBy, List.map_map]
  refine List.map_congr_left fun i _ => ?_
  simp only [Function.comp_apply, createIndex, Index.heardBy, storageClause_heardBy]

theorem comments_heardBy (t : Table) : d.comments (t.heardBy d) = d.comments t := by
  simp only [comments, Table.heardBy, List.flatMap_map]
  rfl

theorem createView_heardBy (v : View) : d.createView (v.heardBy d) = d.createView v := by
  simp only [createView, View.heardBy, optionsClause_heardBy]

/-- A script does not change when the hints that its dialect cannot hear are taken away. -/
theorem fullScript_heardBy (d : Dialect) (s : Schema) :
    d.fullScript (s.heardBy d) = d.fullScript s := by
  have htables : emitAll (d.tableStatements (s.heardBy d)) (s.heardBy d).tables =
      emitAll (d.tableStatements s) s.tables := by
    rw [show (s.heardBy d).tables = s.tables.map (·.heardBy d) from rfl, emitAll_map]
    exact emitAll_congr fun t _ => tableStatements_heardBy t
  have hindexes : (s.heardBy d).tables.flatMap d.indexStatements =
      s.tables.flatMap d.indexStatements := by
    simp only [Schema.heardBy, List.flatMap_map, indexStatements_heardBy]
  have hcomments : (s.heardBy d).tables.flatMap d.comments = s.tables.flatMap d.comments := by
    simp only [Schema.heardBy, List.flatMap_map, comments_heardBy]
  have hviews : (s.heardBy d).views.flatMap d.createView = s.views.flatMap d.createView := by
    simp only [Schema.heardBy, List.flatMap_map, createView_heardBy]
  -- Triggers and rows are written without a look at any hint.
  have htriggers : (s.heardBy d).tables.flatMap d.createTrigger =
      s.tables.flatMap d.createTrigger := by
    simp only [Schema.heardBy, List.flatMap_map]
    rfl
  unfold fullScript
  rw [Schema.resolve_heardBy, htables, keyStatements_heardBy, hindexes, hcomments, hviews,
    htriggers]
  rfl

/-- Two schemas that a dialect hears alike have the same script in it, or fail alike. In each list
of hints the first entry for the dialect alone decides about a key, or else the first one for
all. -/
theorem fullScript_hint_isolation (d : Dialect) :
    (∀ s u : Schema, s.heardBy d = u.heardBy d → d.fullScript s = d.fullScript u) ∧
      ∀ (hints : Hints) (key : HintKey), hints.valueOf? d key =
        ((hints.first? (.dialect d) key).or (hints.first? .all key)).bind (·.hint.value?) := by
  constructor
  · intro s u h
    rw [← fullScript_heardBy d s, h, fullScript_heardBy]
  · intro hints key
    exact Hints.valueOf_eq hints d key

end Dialect

namespace Sample

/-- Notes, with hints on all that can have any. -/
def notes (text table index view : Hints) : Schema where
  tables := [
    { name := "Note"
      columns := [
        { name := "id", dataType := .integer, nullable := false },
        { name := "body", dataType := .clob, hints := text }]
      primaryKey := ⟨"PK_Note", ["id"]⟩
      indexes := [⟨"IX_Note_body", ["body"], index⟩]
      hints := table }]
  views := [
    { name := "Bodies", columns := ["body"], hints := view
      query := ⟨{ items := [.column none "body"], source := ⟨"Note", none⟩ }, []⟩ }]

/-- Hints for one dialect before and after those for all, and hints for others in between. -/
def mixedNotes : Schema :=
  notes
    [⟨.all, .columnType "TEXT"⟩, ⟨.dialect .oracle, .columnType "NCLOB"⟩,
      ⟨.all, .enumeration "Kind"⟩, ⟨.dialect .postgreSql, .columnType "CITEXT"⟩,
      ⟨.dialect .postgreSql, .columnType "VARCHAR"⟩]
    [⟨.dialect .postgreSql, .tablespace "slow"⟩, ⟨.all, .tablespace "fast"⟩,
      ⟨.dialect .mySql, .options "ENGINE=InnoDB"⟩]
    [⟨.dialect .db2, .tablespace "IDX"⟩, ⟨.all, .tablespace "fast"⟩]
    [⟨.dialect .sqlite, .options "X"⟩]

def plainNotes : Schema :=
  notes
    [⟨.all, .columnType "TEXT"⟩, ⟨.dialect .postgreSql, .columnType "CITEXT"⟩,
      ⟨.dialect .postgreSql, .columnType "VARCHAR"⟩]
    [⟨.dialect .postgreSql, .tablespace "slow"⟩, ⟨.all, .tablespace "fast"⟩]
    [⟨.all, .tablespace "fast"⟩] []

end Sample

theorem notes_heard_alike :
    Sample.mixedNotes.heardBy .postgreSql = Sample.plainNotes.heardBy .postgreSql ∧
      Sample.mixedNotes ≠ Sample.plainNotes ∧
      Dialect.postgreSql.fullScript Sample.mixedNotes =
        .ok [.comment "Generated by meta-forge for PostgreSQL",
          .plain ("CREATE TABLE Note (\n    id INTEGER NOT NULL,\n    body CITEXT\n)" ++
            " TABLESPACE slow"),
          .plain "ALTER TABLE Note ADD CONSTRAINT PK_Note PRIMARY KEY (id)",
          .plain "CREATE INDEX IX_Note_body ON Note (body) TABLESPACE fast",
          .plain "CREATE VIEW Bodies (body) AS\nSELECT body FROM Note"] := by
  have halike : Sample.mixedNotes.heardBy .postgreSql = Sample.plainNotes.heardBy .postgreSql := by
    decide +kernel
  refine ⟨halike, by decide +kernel, ?_⟩
  rw [(Dialect.fullScript_hint_isolation .postgreSql).1 _ _ halike]
  decide +kernel

end Schemata
