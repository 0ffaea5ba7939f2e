import Schemata.Proofs.PlanSteps

/-! Native types of columns across a migration. A type that is spelled differently afterwards is
stated anew, except that of a column whose default changes and nothing else. -/
namespace Schemata

/-- Some step of the plan states the type or nullability of the column anew. -/
def Plan.Restates (plan : Plan) (table column : String) : Prop :=
  ∃ before after change, Step.alterColumn table before after change ∈ (plan : List Step) ∧
    after.name = column ∧ change.isStructural = true

/-- Two versions of a column that a plan tells apart by their default alone. -/
def Column.DiffersInDefault (before after : Column) : Prop :=
  ColumnChange.between before after = { default := true }

instance (before after : Column) : Decidable (before.DiffersInDefault after) :=
  inferInstanceAs (Decidable (_ = _))

namespace ColumnChange

variable {before after : Column}

theorem between_cases (before after : Column) :
    (between before after).isStructural = true ∨ before.DiffersInDefault after ∨
      (between before after).isEmpty = true := by
  unfold Column.DiffersInDefault isStructural isEmpty
  generalize between before after = change
  obtain ⟨dataType, nullability, default⟩ := change
  cases dataType <;> cases nullability <;> cases default <;> simp

theorem dataType_eq_of_not_structural (h : (between before after).isStructural = false) :
    before.dataType = after.dataType := by
  simp only [isStructural, between, Bool.or_eq_false_iff, bne_eq_false_iff_eq] at h
  exact h.1

theorem isStructural_of_isEmpty (h : (between before after).isEmpty = true) :
    (between before after).isStructural = false := by
  simp only [isEmpty, Bool.not_eq_true', Bool.or_eq_false_iff] at h
  simp [isStructural, h]

end ColumnChange

namespace Column.DiffersInDefault

variable {before after : Column} (h : before.DiffersInDefault after)
include h

theorem isStructural : (ColumnChange.between before after).isStructural = false := by
  rw [h]
  rfl

theorem isEmpty : (ColumnChange.between before after).isEmpty = false := by
  rw [h]
  rfl

end Column.DiffersInDefault

namespace Dialect

variable {d : Dialect}

theorem columnType_congr {before after : Column} (hh : before.hints = after.hints)
    (ht : before.dataType = after.dataType) (inKey : Bool) :
    d.columnType inKey before = d.columnType inKey after := by
  rw [columnType, columnType, hh, ht]

/-- Only one dialect spells a type differently in a key, and only that of a text. -/
theorem columnType_key {c : Column} {a b : Bool} (h : d.columnType a c ≠ d.columnType b c) :
    d = sqlServer ∧ (∃ n, c.dataType = .varchar n) ∧ a ≠ b := by
  have hkey : a ≠ b := fun hab => h (by rw [hab])
  cases hc : c.dataType with
  | varchar n =>
    refine ⟨?_, ⟨n, rfl⟩, hkey⟩
    by_contra hd
    cases d <;> simp_all [columnType, nativeType, typeNames]
  | _ => simp [columnType, nativeType, hc] at h

/-- The words before a column and those between it and its type, where a type is stated anew. -/
def typeWords : Dialect → String × String
  | oracle => ("MODIFY (", " ")
  | sqlServer => ("ALTER COLUMN ", " ")
  | sybase => ("MODIFY ", " ")
  | mySql => ("MODIFY COLUMN ", " ")
  | postgreSql => ("ALTER COLUMN ", " TYPE ")
  | _ => ("ALTER COLUMN ", " SET DATA TYPE ")

/-- The column of the table is given the type: an `ALTER TABLE` names the column and then the type,
or a copy is added with the type and later takes the name of the column. -/
inductive Spells (d : Dialect) (table column type : String) (statements : List Statement) : Prop
  | alter (rest : String) (h : d.alterTable table
      (d.typeWords.1 ++ d.quote column ++ d.typeWords.2 ++ type ++ rest) ∈ statements)
  | copy (hd : d = oracle) (h : ([.add (d.copyName column) type,
      .rename (d.copyName column) column].map (d.editStatement table)).Sublist statements)

theorem Spells.mono {table column type : String} {as bs : List Statement}
    (h : d.Spells table column type as) (hsub : as.Sublist bs) :
    d.Spells table column type bs := by
  cases h with
  | alter rest h => exact .alter rest (hsub.subset h)
  | copy hd h => exact .copy hd (h.trans hsub)

theorem spells_of_eq {table column type clause : String} {statements : List Statement}
    (hmem : d.alterTable table clause ∈ statements) (rest : String)
    (h : clause = d.typeWords.1 ++ d.quote column ++ d.typeWords.2 ++ type ++ rest) :
    d.Spells table column type statements :=
  .alter rest (h ▸ hmem)

section Alters

variable {table : String} {inKey : Bool} {before after : Column} {change : ColumnChange}
  {statements : List Statement}

theorem columnDefinition_spells (d : Dialect) (inKey : Bool) (c : Column) : ∃ rest,
    d.columnDefinition inKey c = d.quote c.name ++ " " ++ d.columnType inKey c ++ rest := by
  simp only [columnDefinition, String.append_assoc]
  exact ⟨_, rfl⟩

/-- Three dialects state the type together with the rest of the column and never alone. -/
theorem retypeColumn_spells (hd : d ∉ [sqlServer, sybase, mySql])
    (h : d.retypeColumn table inKey before after = .ok statements) :
    d.Spells table after.name (d.columnType inKey after) statements := by
  unfold retypeColumn at h
  dsimp only at h
  split at h
  · cases h
    exact spells_of_eq List.mem_cons_self ")" (by simp [typeWords, String.append_assoc])
  · cases h
    exact spells_of_eq List.mem_cons_self (" USING CAST(" ++ postgreSql.quote after.name ++
      " AS " ++ postgreSql.columnType inKey after ++ ")") (by simp [typeWords, String.append_assoc])
  · split at h
    · cases h
      exact spells_of_eq List.mem_cons_self "" (by simp [typeWords])
    · cases h
  · cases h
    have hwords : d.typeWords = ("ALTER COLUMN ", " SET DATA TYPE ") := by
      cases d <;> simp_all [typeWords]
    exact spells_of_eq List.mem_cons_self "" (by simp [hwords])

theorem alterInSteps_spells (hd : d ∉ [sqlServer, sybase, mySql])
    (h : d.alterInSteps table inKey before after change = .ok statements)
    (hc : change.dataType = true) :
    d.Spells table after.name (d.columnType inKey after) statements := by
  unfold alterInSteps at h
  rw [if_pos hc] at h
  obtain ⟨retyped, hretyped, h⟩ := bind_ok_iff.mp h
  cases h
  refine (retypeColumn_spells hd hretyped).mono ?_
  rw [List.append_assoc]
  exact List.sublist_append_left _ _

theorem copyEdits_sublist (d : Dialect) (inKey : Bool) (before after : Column) :
    [.add (d.copyName after.name) (d.columnType inKey after),
      .rename (d.copyName after.name) after.name].Sublist (d.copyEdits inKey before after) := by
  simp only [copyEdits, List.append_assoc]
  refine List.Sublist.trans ?_ (List.sublist_append_left _ _)
  exact .cons_cons _ (.cons _ (.cons _ (.refl _)))

theorem alterByCopy_spells
    (h : oracle.alterByCopy table inKey before after change = .ok statements)
    (hc : change.dataType = true) :
    oracle.Spells table after.name (oracle.columnType inKey after) statements := by
  unfold alterByCopy at h
  split at h
  · cases h
  · split at h
    · cases h
      exact .copy rfl ((copyEdits_sublist oracle inKey before after).map _)
    · exact alterInSteps_spells (by decide) h hc

/-- An alter whose change is of the type spells the new type; where type and nullability are stated
together in any case, so does one whose change is of the nullability. -/
theorem alterColumn_spells (h : d.alterColumn table inKey before after change = .ok statements)
    (hc : change.dataType = true ∨ d = sqlServer ∧ change.isStructural = true) :
    d.Spells table after.name (d.columnType inKey after) statements := by
  have hstructural : change.isStructural = true := by
    rcases hc with hc | ⟨_, hc⟩
    · simp [ColumnChange.isStructural, hc]
    · exact hc
  by_cases hd : d = sqlServer
  · subst hd
    cases h
    refine .alter (" " ++ nullText after.nullable) ?_
    simp [alterAroundDefault, hstructural, typeWords, String.append_assoc]
  · have htype : change.dataType = true := hc.resolve_right fun hs => hd hs.1
    cases d with
    | oracle => exact alterByCopy_spells h htype
    | sqlServer => exact absurd rfl hd
    | sybase =>
      cases h
      rw [if_pos hstructural]
      exact spells_of_eq (List.mem_append_left _ List.mem_cons_self)
        (" " ++ nullText after.nullable) (by simp [typeWords, String.append_assoc])
    | mySql =>
      cases h
      obtain ⟨rest, hrest⟩ := columnDefinition_spells mySql inKey after
      exact spells_of_eq List.mem_cons_self rest
        (by rw [hrest]; simp [typeWords, String.append_assoc])
    | db2 =>
      obtain ⟨steps, hsteps, h⟩ := bind_ok_iff.mp h
      cases h
      exact (alterInSteps_spells (by decide) hsteps htype).mono (List.sublist_append_left _ _)
    | sqlite => cases h
    | postgreSql => exact alterInSteps_spells (by decide) h htype
    | derby => exact alterInSteps_spells (by decide) h htype
    | hsqldb => exact alterInSteps_spells (by decide) h htype

end Alters

theorem changeOf_dataType (defaults : Bool) (before after : Column) :
    (TablePair.changeOf defaults before after).dataType = (before.dataType != after.dataType) := by
  unfold TablePair.changeOf
  dsimp only
  split <;> rfl

section Migration

variable {old new : Schema} {o t : Table} {before after : Column} (hn : new.Built)
  (ht : t ∈ new.tables) (ho : old.findTable? t.name = some o)
  (ha : after ∈ t.columns) (hb : o.findColumn? after.name = some before)
include hn ht ho ha hb

/-- The only alter that a plan can have for a column is the one between its two versions. -/
theorem alterColumn_unique {recreate : RecreateOptions} {b a : Column} {change : ColumnChange}
    (h : .alterColumn t.name b a change ∈ diff old new recreate) (hname : a.name = after.name) :
    b = before ∧ a = after ∧ change = TablePair.changeOf recreate.defaults before after ∧
      change.isEmpty = false := by
  obtain ⟨p, hp, hpt, hmem⟩ := Comparison.alterColumn_mem_plan.mp h
  obtain ⟨hpn, hpo⟩ := Comparison.mem_surviving.mp hp
  have hnew : p.new = t := List.inj_on_of_nodup_map hn.tables_nodup hpn ht hpt
  have hold : p.old = o := by
    rw [hnew, ho] at hpo
    exact (Option.some.inj hpo).symm
  obtain ⟨hafter, hbefore, hchange, hempty⟩ := TablePair.mem_altered.mp hmem
  dsimp only at hafter hbefore hchange hempty
  rw [hnew] at hafter
  have haa : a = after := List.inj_on_of_nodup_map (hn.table ht).columns_nodup hafter ha hname
  subst haa
  rw [hold, hb] at hbefore
  cases hbefore
  exact ⟨rfl, rfl, hchange, hempty⟩

omit hn in
theorem alterColumn_of_changed (recreate : RecreateOptions)
    (h : (ColumnChange.between before after).isEmpty = false) :
    .alterColumn t.name before after (TablePair.changeOf recreate.defaults before after) ∈
      diff old new recreate := by
  refine Comparison.alterColumn_mem_plan.mpr
    ⟨⟨o, t⟩, Comparison.mem_surviving.mpr ⟨ht, ho⟩, rfl, TablePair.mem_altered.mpr ?_⟩
  exact ⟨ha, hb, rfl, (TablePair.changeOf_isEmpty _ before after).trans h⟩

theorem alters_iff_changed (recreate : RecreateOptions) :
    alters (diff old new recreate) t.name after.name = true ↔
      (ColumnChange.between before after).isEmpty = false := by
  rw [alters_iff]
  constructor
  · rintro ⟨b, a, change, hmem, hname⟩
    obtain ⟨_, _, rfl, hempty⟩ := alterColumn_unique hn ht ho ha hb hmem hname
    rwa [TablePair.changeOf_isEmpty] at hempty
  · intro h
    exact ⟨before, after, _, alterColumn_of_changed ht ho ha hb recreate h, rfl⟩

/-- A column that changes in its default alone keeps its native type, whatever it should be. -/
theorem not_restates_of_default (hdefault : before.DiffersInDefault after) :
    ¬ (d.migrationPlan old new).Restates t.name after.name := by
  rintro ⟨b, a, change, hmem, hname, hstructural⟩
  rcases mem_migrationPlan.mp hmem with hplan | hwidth
  · obtain ⟨rfl, rfl, rfl, _⟩ := alterColumn_unique hn ht ho ha hb hplan hname
    rw [TablePair.changeOf_isStructural, hdefault.isStructural] at hstructural
    cases hstructural
  · obtain ⟨_, _, _, _, _, _, _, _, hfree, _, heq⟩ := mem_widthAlters.mp hwidth
    obtain ⟨htable, _, hafter, _⟩ := Step.alterColumn.inj heq
    rw [← htable, ← hafter, hname] at hfree
    -- The alter of the default hides the column from the pass that looks at the types.
    have halters := (alters_iff_changed hn ht ho ha hb d.recreateOptions).mpr hdefault.isEmpty
    rw [hfree] at halters
    cases halters

/-- In all other cases a new spelling of the type brings about an alter that states it. -/
theorem restating_step (hh : before.hints = after.hints)
    (hd : d.columnType (old.isKeyColumn o after.name) before ≠
      d.columnType (new.isKeyColumn t after.name) after)
    (hdefault : ¬ before.DiffersInDefault after) :
    ∃ change, .alterColumn t.name before after change ∈ d.migrationPlan old new ∧
      change.isStructural = true ∧ (change.dataType = true ∨ d = sqlServer) := by
  rcases ColumnChange.between_cases before after with hstructural | hdiffers | hempty
  · have hchanged : (ColumnChange.between before after).isEmpty = false := by
      simp only [ColumnChange.isStructural] at hstructural
      simp [ColumnChange.isEmpty, hstructural]
    refine ⟨_, mem_migrationPlan.mpr (Or.inl (alterColumn_of_changed ht ho ha hb
      d.recreateOptions hchanged)), ?_, ?_⟩
    · rw [TablePair.changeOf_isStructural, hstructural]
    · by_cases htype : before.dataType = after.dataType
      · rw [columnType_congr hh htype] at hd
        exact Or.inr (columnType_key hd).1
      · exact Or.inl ((changeOf_dataType _ before after).trans (bne_iff_ne.mpr htype))
  · exact absurd hdiffers hdefault
  · have htype := ColumnChange.dataType_eq_of_not_structural
      (ColumnChange.isStructural_of_isEmpty hempty)
    refine ⟨{ dataType := true }, mem_migrationPlan.mpr (Or.inr (mem_widthAlters.mpr
      ⟨t, ht, o, ho, after, ha, before, hb, ?_, ?_, rfl⟩)), rfl, Or.inl rfl⟩
    · rw [← Bool.not_eq_true, alters_iff_changed hn ht ho ha hb, hempty]
      exact Bool.noConfusion
    · rw [columnType_congr hh htype] at hd
      exact bne_iff_ne.mpr hd

end Migration

/-- A native type that is spelled differently after a migration is stated anew by it exactly unless
the column changes in its default alone. That gap is one of texts that enter or leave a key. -/
theorem native_type_restated_iff {old new : Schema} {version : Nat} {options : MigrationOptions}
    {script : Script} {o t : Table} {before after : Column} (hn : new.Built)
    (hs : d.migrationScript old new version options = .ok script)
    (ho : old.findTable? t.name = some o) (ht : t ∈ new.tables)
    (hb : o.findColumn? after.name = some before) (ha : after ∈ t.columns)
    (hh : before.hints = after.hints)
    (hd : d.columnType (old.isKeyColumn o after.name) before ≠
      d.columnType (new.isKeyColumn t after.name) after) :
    ((d.migrationPlan old new).Restates t.name after.name ↔ ¬ before.DiffersInDefault after) ∧
      (¬ before.DiffersInDefault after →
        d.Spells t.name after.name (d.columnType (new.isKeyColumn t after.name) after) script) ∧
      (before.DiffersInDefault after → d = sqlServer ∧ (∃ n, after.dataType = .varchar n) ∧
        old.isKeyColumn o after.name ≠ new.isKeyColumn t after.name) := by
  refine ⟨⟨fun h hdefault => not_restates_of_default hn ht ho ha hb hdefault h, ?_⟩, ?_, ?_⟩
  · intro hdefault
    obtain ⟨change, hmem, hstructural, _⟩ := restating_step hn ht ho ha hb hh hd hdefault
    exact ⟨before, after, change, hmem, rfl, hstructural⟩
  · intro hdefault
    obtain ⟨change, hmem, hstructural, hspelled⟩ := restating_step hn ht ho ha hb hh hd hdefault
    obtain ⟨statements, halter, hsub⟩ := step_emitted hs hmem
    have hkey : isNewKeyColumn new t.name after.name = new.isKeyColumn t after.name := by
      rw [isNewKeyColumn, hn.findTable_iff.mpr ⟨ht, rfl⟩]
      rfl
    rw [stepStatements, hkey] at halter
    exact (alterColumn_spells halter (hspelled.imp_right fun h => ⟨h, hstructural⟩)).mono hsub
  · intro hdefault
    rw [columnType_congr hh (ColumnChange.dataType_eq_of_not_structural
      hdefault.isStructural)] at hd
    exact columnType_key hd

end Dialect

namespace Sample

def code : Column := { name := "Code", dataType := .varchar 20, nullable := false }

def presetCode : Column := { code with default := some (.literal (.string "x")) }

def article : Table where
  name := "Article"
  columns := [{ name := "Id", dataType := .integer, nullable := false }, code]
  primaryKey := ⟨"PK_Article", ["Id"]⟩

/-- Codes become unique and at the same time get a default. -/
def codedArticle : Table :=
  { article with
    columns := [{ name := "Id", dataType := .integer, nullable := false }, presetCode]
    uniques := [⟨"UQ_Article_Code", ["Code"]⟩] }

def articles : Schema := { tables := [article] }

def codedArticles : Schema := { tables := [codedArticle] }

theorem codedArticles_built : codedArticles.Built :=
  Schema.built_of_drafts (by decide) (by decide) rfl

end Sample

/-- A column that enters a key and gets a default in one go stays too wide for the key. -/
theorem default_hides_key_width :
    Dialect.sqlServer.columnType (Sample.articles.isKeyColumn Sample.article "Code") Sample.code =
        "VARCHAR(80)" ∧
      Dialect.sqlServer.columnType (Sample.codedArticles.isKeyColumn Sample.codedArticle "Code")
        Sample.presetCode = "VARCHAR(20)" ∧
      (∃ script, Dialect.sqlServer.migrationScript Sample.articles Sample.codedArticles 2 {} =
        .ok script) ∧
      ¬ (Dialect.sqlServer.migrationPlan Sample.articles Sample.codedArticles).Restates
        "Article" "Code" := by
  have hbefore : Dialect.sqlServer.columnType
      (Sample.articles.isKeyColumn Sample.article "Code") Sample.code = "VARCHAR(80)" := rfl
  have hafter : Dialect.sqlServer.columnType
      (Sample.codedArticles.isKeyColumn Sample.codedArticle "Code") Sample.presetCode =
      "VARCHAR(20)" := rfl
  have hscript : ∃ script, Dialect.sqlServer.migrationScript Sample.articles Sample.codedArticles 2
      {} = .ok script := exists_ok_of_isOk (by decide +kernel)
  refine ⟨hbefore, hafter, hscript, fun hrestates => ?_⟩
  obtain ⟨script, hscript⟩ := hscript
  have hdiffer : Dialect.sqlServer.columnType
      (Sample.articles.isKeyColumn Sample.article "Code") Sample.code ≠
      Dialect.sqlServer.columnType (Sample.codedArticles.isKeyColumn Sample.codedArticle "Code")
        Sample.presetCode := by
    rw [hbefore, hafter]
    decide
  have hcode : Sample.article.findColumn? Sample.presetCode.name = some Sample.code := by decide
  have hrestated := Dialect.native_type_restated_iff Sample.codedArticles_built hscript
    (t := Sample.codedArticle) rfl List.mem_cons_self hcode (by decide) rfl hdiffer
  exact hrestated.1.mp hrestates (by decide)

end Schemata
