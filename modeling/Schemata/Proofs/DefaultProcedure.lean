import Schemata.Proofs.ColumnStatements

/-! The default of a SQL Server column is a constraint without a name, which a procedure looks up
and drops. A migration creates the procedure before its first use and drops it after its last one,
and changes no column that has a default before the procedure has run for it. -/
namespace Schemata

namespace Dialect

open Statement (Begins begins_plain begins_comment begins_of_sql)

/-- The statement that drops the procedure. -/
def dropProcedure : Statement :=
  .plain ("DROP PROCEDURE " ++ dropDefaultProcedure)

def createsProcedure (x : Statement) : Bool :=
  x.runs ("CREATE PROCEDURE " ++ dropDefaultProcedure)

def dropsProcedure (x : Statement) : Bool :=
  x.runs ("DROP PROCEDURE " ++ dropDefaultProcedure)

def usesProcedure (x : Statement) : Bool :=
  x.runs ("EXEC " ++ dropDefaultProcedure)

section Script

variable {old new : Schema} {plan : Plan} {e : Step} {own steps additional : List Statement}
  {x : Statement} {version : Nat} {options : MigrationOptions} {script : Script}
  {table column words : String} {t : Table} {c : Column}

theorem needsDefaultProcedure_sqlServer (plan : Plan) :
    sqlServer.needsDefaultProcedure plan = List.any plan (·.column?.isSome) := by
  unfold needsDefaultProcedure
  rw [beq_self_eq_true, Bool.true_and]
  congr 1
  funext e
  cases e <;> rfl

/-- The openings of statements that change rows. -/
def rowOpenings : List String :=
  ["INSERT INTO ", "UPDATE ", "DELETE FROM "]

theorem additional_begins {templates : List DmlStatement}
    (h : templates.mapM sqlServer.additionalStatement = .ok additional) (hx : x ∈ additional) :
    x.Begins rowOpenings := by
  obtain ⟨dml, rfl⟩ := changeRows_of_additional h hx
  exact (sqlServer.changeRows_opens dml).begins rfl

theorem versionUpdate_begins (options : MigrationOptions) (version : Nat) :
    (sqlServer.versionUpdate options version).Begins rowOpenings := by
  simp only [versionUpdate, String.append_assoc]
  exact (begins_plain "UPDATE " _).mono (by decide)

theorem migrationHeader_begins (d : Dialect) (version : Nat) (openings : List String) :
    (d.migrationHeader version).Begins openings := by
  cases version <;> exact begins_comment _

theorem dropDefault_begins (table column : String) :
    (sqlServer.dropDefault table column).Begins ["EXEC " ++ dropDefaultProcedure] := by
  simp only [dropDefault]
  rw [String.append_assoc, String.append_assoc, String.append_assoc]
  exact begins_plain _ _

/-- Only a step that changes or drops a column uses the procedure. -/
theorem step_begins (he : e ∈ sqlServer.migrationPlan old new)
    (h : sqlServer.stepStatements new plan e = .ok own) (hx : x ∈ own) :
    x.Begins ("ALTER TABLE " :: besideOpenings) ∨
      e.column?.isSome = true ∧ x.Begins ["EXEC " ++ dropDefaultProcedure] := by
  cases hc : e.column? with
  | none => exact .inl (beside_step h hc hx).begins
  | some column =>
    obtain ⟨rest, rfl, hrest⟩ := statements_of_column he hc h
    rcases List.mem_append.mp hx with hx | hx
    · rw [List.mem_singleton.mp (mem_ite_nil hx)]
      exact .inr ⟨rfl, dropDefault_begins _ _⟩
    · exact .inl ((hrest x hx).begins.mono (by decide))

/-- Words that no step and no change of rows begins with are those of the frame alone. -/
theorem countP_runs (h : sqlServer.migrationScript old new version options = .ok script)
    (hsteps : ("ALTER TABLE " :: besideOpenings).all (Statement.partWays words) = true)
    (huses : Statement.partWays words ("EXEC " ++ dropDefaultProcedure) = true)
    (hrows : rowOpenings.all (Statement.partWays words) = true) :
    script.countP (·.runs words) =
      (sqlServer.prologue (sqlServer.migrationPlan old new)).countP (·.runs words) +
        (sqlServer.epilogue (sqlServer.migrationPlan old new)).countP (·.runs words) := by
  obtain ⟨_, _, steps, additional, hemitted, hadditional, rfl⟩ := migrationScript_parts h
  have hheader := (migrationHeader_begins sqlServer version rowOpenings).runs_eq_false hrows
  have hupdate := (versionUpdate_begins options version).runs_eq_false hrows
  have hzero : steps.countP (·.runs words) = 0 := by
    refine List.countP_eq_zero.mpr fun x hx => Bool.eq_false_iff.mp ?_
    obtain ⟨e, he, own, hown, hx⟩ := mem_of_emitAll_ok hemitted hx
    rcases step_begins he hown hx with hbegins | ⟨_, hbegins⟩
    · exact hbegins.runs_eq_false hsteps
    · exact hbegins.runs_eq_false (by simpa using huses)
  have hrest : additional.countP (·.runs words) = 0 :=
    List.countP_eq_zero.mpr fun x hx =>
      Bool.eq_false_iff.mp ((additional_begins hadditional hx).runs_eq_false hrows)
  simp [List.countP_append, hheader, hupdate, hzero, hrest]

theorem createDefaultProcedure_sql :
    ∃ rest, createDefaultProcedure.sql = "CREATE PROCEDURE " ++ dropDefaultProcedure ++ rest := by
  simp only [createDefaultProcedure, Statement.block, String.append_assoc]
  exact ⟨_, rfl⟩

theorem createDefaultProcedure_begins :
    createDefaultProcedure.Begins ["CREATE PROCEDURE " ++ dropDefaultProcedure] := by
  obtain ⟨rest, hsql⟩ := createDefaultProcedure_sql
  exact begins_of_sql _ rest hsql

theorem createsProcedure_create : createsProcedure createDefaultProcedure = true := by
  obtain ⟨rest, hsql⟩ := createDefaultProcedure_sql
  exact Statement.runs_of_sql rfl hsql

theorem epilogue_sqlServer (plan : Plan) : sqlServer.epilogue plan =
    if sqlServer.needsDefaultProcedure plan then [dropProcedure] else [] :=
  rfl

/-- The procedure is created once where it is needed, and dropped once. -/
theorem countP_procedure (h : sqlServer.migrationScript old new version options = .ok script) :
    script.countP createsProcedure ≤ 1 ∧
      script.countP dropsProcedure = script.countP createsProcedure := by
  have hcreates : script.countP createsProcedure =
      (sqlServer.prologue (sqlServer.migrationPlan old new)).countP createsProcedure +
        (sqlServer.epilogue (sqlServer.migrationPlan old new)).countP createsProcedure :=
    countP_runs h (by decide) (by decide) (by decide)
  have hdrops : script.countP dropsProcedure =
      (sqlServer.prologue (sqlServer.migrationPlan old new)).countP dropsProcedure +
        (sqlServer.epilogue (sqlServer.migrationPlan old new)).countP dropsProcedure :=
    countP_runs h (by decide) (by decide) (by decide)
  have hcreate : dropsProcedure createDefaultProcedure = false :=
    createDefaultProcedure_begins.runs_eq_false (by decide)
  have hdrop : createsProcedure dropProcedure = false ∧ dropsProcedure dropProcedure = true := by
    decide
  rw [hcreates, hdrops, prologue, epilogue_sqlServer]
  split
  · simp [createsProcedure_create, hcreate, hdrop]
  · simp

/-- The procedure is created before all that use it, and dropped after them and before the rest. -/
def Brackets (script : Script) (rest : List Statement) : Prop :=
  ∃ head uses, script = head ++ createDefaultProcedure :: uses ++ dropProcedure :: rest ∧
    ∀ x ∈ head ++ createDefaultProcedure :: dropProcedure :: rest, usesProcedure x = false

/-- The openings of what stands around the steps. -/
def frameOpenings : List String :=
  ["CREATE PROCEDURE " ++ dropDefaultProcedure, "DROP PROCEDURE " ++ dropDefaultProcedure] ++
    rowOpenings

theorem prologue_begins (hx : x ∈ sqlServer.prologue plan) : x.Begins frameOpenings := by
  rw [List.mem_singleton.mp (mem_ite_nil hx)]
  exact createDefaultProcedure_begins.mono (by decide)

theorem epilogue_begins (hx : x ∈ sqlServer.epilogue plan) : x.Begins frameOpenings := by
  rw [epilogue_sqlServer] at hx
  rw [List.mem_singleton.mp (mem_ite_nil hx)]
  exact .inr ⟨"DROP PROCEDURE " ++ dropDefaultProcedure, by decide, List.prefix_rfl⟩

/-- The script in three parts: the steps, and what stands before and after them. -/
theorem migrationScript_framed
    (h : sqlServer.migrationScript old new version options = .ok script) :
    ∃ steps additional,
      emitAll (sqlServer.stepStatements new (sqlServer.migrationPlan old new))
        (sqlServer.migrationPlan old new) = .ok steps ∧
      (byTable new ((options.additional.map (·.statements)).getD [])).mapM
        sqlServer.additionalStatement = .ok additional ∧
      ∃ head tail, script = head ++ steps ++ tail ∧
        head = sqlServer.migrationHeader version ::
          sqlServer.prologue (sqlServer.migrationPlan old new) ∧
        tail = sqlServer.epilogue (sqlServer.migrationPlan old new) ++
          (additional ++ [sqlServer.versionUpdate options version]) ∧
        ∀ x ∈ head ++ tail, x.Begins frameOpenings := by
  obtain ⟨_, _, steps, additional, hsteps, hadditional, rfl⟩ := migrationScript_parts h
  refine ⟨steps, additional, hsteps, hadditional, _, _, ?_, rfl, rfl, fun x hx => ?_⟩
  · simp
  · simp only [List.cons_append, List.mem_cons, List.mem_append, List.not_mem_nil,
      or_false] at hx
    rcases hx with rfl | hx | hx | hx | rfl
    · exact migrationHeader_begins _ _ _
    · exact prologue_begins hx
    · exact epilogue_begins hx
    · exact (additional_begins hadditional hx).mono (by decide)
    · exact (versionUpdate_begins options version).mono (by decide)

/-- A statement that uses the procedure is one of a step, and for that step the procedure is
created. -/
theorem needsDefaultProcedure_of_uses
    (hsteps : emitAll (sqlServer.stepStatements new plan) (sqlServer.migrationPlan old new) =
      .ok steps) (hx : x ∈ steps) (huses : usesProcedure x = true) :
    sqlServer.needsDefaultProcedure (sqlServer.migrationPlan old new) = true := by
  obtain ⟨e, he, own, hown, hx⟩ := mem_of_emitAll_ok hsteps hx
  rcases step_begins he hown hx with hbegins | ⟨hcolumn, _⟩
  · have hother : usesProcedure x = false := hbegins.runs_eq_false (by decide)
    rw [hother] at huses
    cases huses
  · rw [needsDefaultProcedure_sqlServer]
    exact List.any_eq_true.mpr ⟨e, he, hcolumn⟩

theorem brackets_of_uses (h : sqlServer.migrationScript old new version options = .ok script)
    (huses : script.any usesProcedure = true) : ∃ additional,
      (byTable new ((options.additional.map (·.statements)).getD [])).mapM
        sqlServer.additionalStatement = .ok additional ∧
      Brackets script (additional ++ [sqlServer.versionUpdate options version]) := by
  obtain ⟨steps, additional, hsteps, hadditional, head, tail, rfl, hhead, htail, hframe⟩ :=
    migrationScript_framed h
  have hunused : ∀ y ∈ head ++ tail, usesProcedure y = false := fun y hy =>
    (hframe y hy).runs_eq_false (by decide)
  have hneeds : sqlServer.needsDefaultProcedure (sqlServer.migrationPlan old new) = true := by
    obtain ⟨x, hx, huses⟩ := List.any_eq_true.mp huses
    refine needsDefaultProcedure_of_uses hsteps (x := x) ?_ huses
    by_contra hnot
    have hout : x ∈ head ++ tail := by simpa [hnot] using hx
    rw [hunused x hout] at huses
    cases huses
  rw [prologue, if_pos hneeds] at hhead
  rw [epilogue_sqlServer, if_pos hneeds] at htail
  subst hhead htail
  refine ⟨additional, hadditional, [sqlServer.migrationHeader version], steps, by simp, ?_⟩
  simpa using hunused

/-- Wherever a column that has a default changes, the procedure has run for it before. -/
def ClearsDefaults (old : Schema) (script : Script) : Prop :=
  ∀ done x rest table column t c, script = done ++ x :: rest → ChangesColumn table column x →
    old.findTable? table = some t → t.findColumn? column = some c → c.default.isSome = true →
    sqlServer.dropDefault table column ∈ done

section Split

variable {head tail done rest first : List Statement}

theorem split_after_head (hx : x ∉ head) (h : head ++ tail = done ++ x :: rest) :
    ∃ first, done = head ++ first ∧ tail = first ++ x :: rest := by
  rcases List.append_eq_append_iff.mp h with ⟨first, rfl, htail⟩ | ⟨more, rfl, hmore⟩
  · exact ⟨first, rfl, htail⟩
  · cases more with
    | nil => exact ⟨[], by simp, by simpa using hmore.symm⟩
    | cons y more =>
      cases hmore
      exact absurd (List.mem_append_right done List.mem_cons_self) hx

theorem split_before_tail (hx : x ∉ tail) (h : steps ++ tail = first ++ x :: rest) :
    ∃ last, steps = first ++ x :: last := by
  rcases List.append_eq_append_iff.mp h with ⟨more, rfl, hmore⟩ | ⟨last, rfl, hlast⟩
  · exact absurd (hmore ▸ List.mem_append_right more List.mem_cons_self) hx
  · cases last with
    | nil => exact absurd ((List.nil_append tail ▸ hlast) ▸ List.mem_cons_self) hx
    | cons y last =>
      cases hlast
      exact ⟨last, rfl⟩

end Split

theorem names_of_column (ho : old.Built) (hoc : old.ColumnsBuilt)
    (htable : old.findTable? table = some t) (hcolumn : t.findColumn? column = some c) :
    isIdentifier table = true ∧ isIdentifier column = true := by
  obtain ⟨ht, rfl⟩ := ho.findTable_iff.mp htable
  obtain ⟨hc, rfl⟩ := (ho.table ht).findColumn_iff.mp hcolumn
  exact ⟨(ho.table ht).name, hoc.name ht hc⟩

/-- Among the statements of one step, those that change a column with a default come after the
procedure has run for it. -/
theorem dropDefault_mem_of_step (ho : old.Built) (hn : new.Built) (hoc : old.ColumnsBuilt)
    (hnc : new.ColumnsBuilt) {own₁ own₂ : List Statement}
    (he : e ∈ sqlServer.migrationPlan old new)
    (hown : sqlServer.stepStatements new plan e = .ok (own₁ ++ x :: own₂))
    (hx : ChangesColumn table column x) (htable : old.findTable? table = some t)
    (hcolumn : t.findColumn? column = some c) (hdefault : c.default.isSome = true) :
    sqlServer.dropDefault table column ∈ own₁ := by
  obtain ⟨htableName, hcolumnName⟩ := names_of_column ho hoc htable hcolumn
  have hxown : x ∈ own₁ ++ x :: own₂ := by simp
  have hne : ∀ table column, x ≠ sqlServer.dropDefault table column := by
    rintro table column rfl
    exact hx.not_begins (by decide) (dropDefault_begins table column)
  cases hchanged : e.column? with
  | none =>
    refine absurd hx ((beside_step hown hchanged hxown).not_changesColumn ?_ ?_ htableName)
    · exact fun name hname => isIdentifier_of_table ho hn he hname
    · rintro table c rfl
      exact isIdentifier_of_added hnc he
  | some changed =>
    obtain ⟨table', before⟩ := changed
    obtain ⟨o, hfind, hbefore⟩ := column_of_mem ho he hchanged
    obtain ⟨htableName', hcolumnName'⟩ := names_of_column ho hoc hfind hbefore
    obtain ⟨rest, hsplit, hrest⟩ := statements_of_column he hchanged hown
    have hxrest : x ∈ rest := by
      rcases List.mem_append.mp (hsplit ▸ hxown) with hmem | hmem
      · exact absurd (List.mem_singleton.mp (mem_ite_nil hmem)) (hne _ _)
      · exact hmem
    obtain ⟨rfl, rfl⟩ :=
      hx.unique (hrest x hxrest) htableName htableName' hcolumnName hcolumnName'
    cases htable.symm.trans hfind
    cases hcolumn.symm.trans hbefore
    rw [if_pos hdefault] at hsplit
    cases own₁ with
    | nil => exact absurd (List.cons.inj hsplit).1 (hne _ _)
    | cons y own₁ =>
      rw [(List.cons.inj hsplit).1]
      exact List.mem_cons_self

theorem clearsDefaults (ho : old.Built) (hn : new.Built) (hoc : old.ColumnsBuilt)
    (hnc : new.ColumnsBuilt)
    (h : sqlServer.migrationScript old new version options = .ok script) :
    ClearsDefaults old script := by
  intro done x rest table column t c hscript hx htable hcolumn hdefault
  obtain ⟨steps, additional, hsteps, _, head, tail, rfl, _, _, hframe⟩ := migrationScript_framed h
  have hout : x ∉ head ++ tail := fun hmem => hx.not_begins (by decide) (hframe x hmem)
  rw [List.mem_append, not_or] at hout
  rw [List.append_assoc] at hscript
  obtain ⟨first, rfl, hrest⟩ := split_after_head hout.1 hscript
  obtain ⟨last, hsplit⟩ := split_before_tail hout.2 hrest
  obtain ⟨e, he, own₁, own₂, hown, hsub⟩ := emitAll_split hsteps hsplit
  have hmem := dropDefault_mem_of_step ho hn hoc hnc he hown hx htable hcolumn hdefault
  exact List.mem_append_right head (hsub hmem)

/-- The procedure runs for each column with a default whose table stays and that itself goes or
becomes another. -/
def ClearsChanged (old new : Schema) (script : Script) : Prop :=
  ∀ table column o t c, old.findTable? table = some o → new.findTable? table = some t →
    o.findColumn? column = some c → c.default.isSome = true →
    (∀ after, t.findColumn? column = some after →
      (ColumnChange.between c after).isEmpty = false) →
    sqlServer.dropDefault table column ∈ script

theorem step_of_changed {p : TablePair} {d : Dialect} (ho : old.Built)
    (hp : p ∈ (Comparison.mk old new d.recreateOptions).surviving)
    (hcolumn : p.old.findColumn? column = some c)
    (hchange : ∀ after, p.new.findColumn? column = some after →
      (ColumnChange.between c after).isEmpty = false) :
    ∃ e ∈ d.migrationPlan old new, e.column? = some (p.new.name, c) := by
  have hvalid := ho.table (ho.findTable_iff.mp (Comparison.mem_surviving.mp hp).2).1
  obtain ⟨hc, rfl⟩ := hvalid.findColumn_iff.mp hcolumn
  cases hafter : p.new.findColumn? c.name with
  | none =>
    have hdropped : c ∈ p.dropped := List.mem_filter.mpr ⟨hc, by simp [hafter]⟩
    exact ⟨_, dropColumn_mem_migrationPlan.mpr ⟨p, hp, rfl, hdropped⟩, rfl⟩
  | some after =>
    have hname := name_of_findColumn hafter
    have haltered : ⟨c, after, TablePair.changeOf d.recreateOptions.defaults c after⟩ ∈
        p.altered d.recreateOptions.defaults := by
      refine TablePair.mem_altered.mpr
        ⟨List.mem_of_find?_eq_some hafter, hname ▸ hcolumn, rfl, ?_⟩
      dsimp only [TablePair.changeOf]
      split
      · simp [ColumnChange.isEmpty]
      · exact hchange after hafter
    exact ⟨_, mem_migrationPlan.mpr
      (.inl (Comparison.alterColumn_mem_plan.mpr ⟨p, hp, rfl, haltered⟩)), rfl⟩

theorem clearsChanged (ho : old.Built) (hn : new.Built)
    (h : sqlServer.migrationScript old new version options = .ok script) :
    ClearsChanged old new script := by
  intro table column o t c hold hnew hcolumn hdefault hchange
  obtain ⟨ht, rfl⟩ := hn.findTable_iff.mp hnew
  have hp : ⟨o, t⟩ ∈ (Comparison.mk old new sqlServer.recreateOptions).surviving :=
    Comparison.mem_surviving.mpr ⟨ht, hold⟩
  obtain ⟨e, he, hstep⟩ := step_of_changed ho hp hcolumn hchange
  obtain ⟨own, hown, hsub⟩ := step_emitted h he
  obtain ⟨rest, rfl, _⟩ := statements_of_column he hstep hown
  rw [if_pos hdefault, name_of_findColumn hcolumn] at hsub
  exact hsub.subset List.mem_cons_self

end Script

/-- The procedure for defaults brackets all its uses: it is created at most once and dropped as
often, all uses lie between, and what changes rows and stores the version comes after. No column
with a default is changed before the procedure has run for it, and it runs for all that change. -/
theorem default_procedure_brackets {old new : Schema} {version : Nat} {options : MigrationOptions}
    {script : Script} (ho : old.Built) (hn : new.Built) (hoc : old.ColumnsBuilt)
    (hnc : new.ColumnsBuilt)
    (h : sqlServer.migrationScript old new version options = .ok script) :
    script.countP createsProcedure ≤ 1 ∧
    script.countP dropsProcedure = script.countP createsProcedure ∧
    (script.any usesProcedure = true → ∃ additional,
      (byTable new ((options.additional.map (·.statements)).getD [])).mapM
        sqlServer.additionalStatement = .ok additional ∧
      Brackets script (additional ++ [sqlServer.versionUpdate options version])) ∧
    ClearsDefaults old script ∧ ClearsChanged old new script := by
  obtain ⟨honce, hpaired⟩ := countP_procedure h
  exact ⟨honce, hpaired, brackets_of_uses h, clearsDefaults ho hn hoc hnc h, clearsChanged ho hn h⟩

end Dialect

namespace Sample

/-- Tariffs with a rate and a currency, each of which has a default, and a note that has one. -/
def tariffs : Schema where
  tables := [
    { name := "Tariff"
      columns := [
        { name := "Id", dataType := .integer, nullable := false },
        { name := "Rate", dataType := .integer, default := some (.literal (.integer 7)) },
        { name := "Currency", dataType := .varchar 3, default := some (.literal (.string "EUR")) },
        { name := "Note", dataType := .varchar 80, default := some (.literal (.string "none")) }]
      primaryKey := ⟨"PK_Tariff", ["Id"]⟩ }]

/-- The rate is wider, the currency is gone, the note has no default any more, and a column has
the name of a clause. -/
def newTariffs : Schema where
  tables := [
    { name := "Tariff"
      columns := [
        { name := "Id", dataType := .integer, nullable := false },
        { name := "Rate", dataType := .bigInt, default := some (.literal (.integer 7)) },
        { name := "Note", dataType := .varchar 80 },
        { name := "Default", dataType := .integer }]
      primaryKey := ⟨"PK_Tariff", ["Id"]⟩ }]

/-- The new tariffs start empty. -/
def tariffOptions : MigrationOptions where
  additional := some { statements := [⟨"clear", .delete "Tariff" none⟩] }

def tariffScript : Script :=
  [.comment "Migration from version 1 to 2 for Microsoft SQL Server",
   Dialect.createDefaultProcedure,
   .plain "EXEC DropDefaultConstraint 'Tariff', 'Rate'",
   .plain "ALTER TABLE Tariff ALTER COLUMN Rate BIGINT NULL",
   .plain "ALTER TABLE Tariff ADD DEFAULT 7 FOR Rate",
   .plain "EXEC DropDefaultConstraint 'Tariff', 'Note'",
   .plain "ALTER TABLE Tariff ADD [Default] INT",
   .plain "EXEC DropDefaultConstraint 'Tariff', 'Currency'",
   .plain "ALTER TABLE Tariff DROP COLUMN Currency",
   .plain "DROP PROCEDURE DropDefaultConstraint",
   .plain "DELETE FROM Tariff",
   .plain "UPDATE SchemaVersion SET Version = 2"]

theorem tariffs_built : tariffs.Built :=
  Schema.built_of_drafts (by decide) (by decide) rfl

theorem newTariffs_built : newTariffs.Built :=
  Schema.built_of_drafts (by decide) (by decide) rfl

end Sample

open Dialect

/-- The rate is wider only after its default is gone, and the note loses its default. -/
theorem tariff_defaults_cleared :
    sqlServer.migrationScript Sample.tariffs Sample.newTariffs 2 Sample.tariffOptions =
      .ok Sample.tariffScript ∧
    Brackets Sample.tariffScript
      [.plain "DELETE FROM Tariff", .plain "UPDATE SchemaVersion SET Version = 2"] ∧
    ChangesColumn "Tariff" "Rate" (.plain "ALTER TABLE Tariff ALTER COLUMN Rate BIGINT NULL") ∧
    sqlServer.dropDefault "Tariff" "Rate" ∈ Sample.tariffScript.take 3 ∧
    sqlServer.dropDefault "Tariff" "Note" ∈ Sample.tariffScript := by
  have hscript : sqlServer.migrationScript Sample.tariffs Sample.newTariffs 2
      Sample.tariffOptions = .ok Sample.tariffScript := by decide +kernel
  obtain ⟨_, _, hbrackets, hclears, hchanged⟩ := default_procedure_brackets
    Sample.tariffs_built Sample.newTariffs_built (by unfold Schema.ColumnsBuilt; decide)
    (by unfold Schema.ColumnsBuilt; decide) hscript
  have hrate : ChangesColumn "Tariff" "Rate"
      (.plain "ALTER TABLE Tariff ALTER COLUMN Rate BIGINT NULL") :=
    ⟨_, .retype "BIGINT NULL", by decide +kernel⟩
  have huses : Sample.tariffScript.any usesProcedure = true :=
    List.any_eq_true.mpr ⟨.plain "EXEC DropDefaultConstraint 'Tariff', 'Rate'",
      List.mem_cons_of_mem _ (List.mem_cons_of_mem _ List.mem_cons_self), by decide +kernel⟩
  obtain ⟨additional, hadditional, hbrackets⟩ := hbrackets huses
  have hrows : additional = [.plain "DELETE FROM Tariff"] := by
    refine (Except.ok.inj (hadditional.symm.trans ?_))
    decide +kernel
  have hupdate : sqlServer.versionUpdate Sample.tariffOptions 2 =
      .plain "UPDATE SchemaVersion SET Version = 2" := by decide +kernel
  rw [hrows, hupdate] at hbrackets
  refine ⟨hscript, hbrackets, hrate, ?_, ?_⟩
  · exact hclears _ _ _ _ _ _ _ (by rfl) hrate rfl rfl rfl
  · exact hchanged _ _ _ _ _ rfl rfl rfl rfl (by rintro after ⟨⟩; rfl)

end Schemata
