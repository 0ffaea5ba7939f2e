import Schemata.Proofs.Emission
import Mathlib.Data.List.Infix

/-! The words with which statements open. Two statements whose openings part ways are different,
whatever names and expressions they hold. -/
namespace Schemata

namespace Statement

/-- The statement is a comment or a block, or begins with one of the openings. -/
def OpensWith (openings : List String) (x : Statement) : Prop :=
  x.kind = .plain → ∃ words ∈ openings, words.toList <+: x.sql.toList

/-- Neither of two openings begins with the other one. -/
def partWays (a b : String) : Bool :=
  !a.toList.isPrefixOf b.toList && !b.toList.isPrefixOf a.toList

variable {x : Statement} {openings others : List String}

theorem opensWith_plain (words rest : String) : (plain (words ++ rest)).OpensWith [words] := by
  intro _
  refine ⟨words, List.mem_singleton_self words, rest.toList, ?_⟩
  exact String.toList_append.symm

theorem opensWith_of_kind (h : x.kind ≠ .plain) : x.OpensWith openings :=
  fun hplain => absurd hplain h

theorem OpensWith.mono (h : x.OpensWith openings) (hsub : openings ⊆ others) :
    x.OpensWith others := by
  intro hplain
  obtain ⟨words, hwords, hopen⟩ := h hplain
  exact ⟨words, hsub hwords, hopen⟩

theorem not_prefix_of_partWays {a b : String} {text : List Char} (h : partWays a b = true)
    (ha : a.toList <+: text) : ¬ b.toList <+: text := by
  intro hb
  simp only [partWays, Bool.and_eq_true, Bool.not_eq_true', ← Bool.not_eq_true,
    List.isPrefixOf_iff_prefix] at h
  rcases List.prefix_or_prefix_of_prefix ha hb with hshort | hlong
  · exact h.1 hshort
  · exact h.2 hlong

theorem OpensWith.not_begins (h : x.OpensWith openings) (hplain : x.kind = .plain) {words : String}
    (hpart : openings.all (partWays words) = true) : ¬ words.toList <+: x.sql.toList := by
  intro hwords
  obtain ⟨own, hown, hopen⟩ := h hplain
  exact not_prefix_of_partWays (List.all_eq_true.mp hpart own hown) hwords hopen

/-- A plain statement with other opening words is another statement. -/
theorem OpensWith.ne_plain (h : x.OpensWith openings) {words : String}
    (hpart : openings.all (partWays words) = true) (rest : String) : x ≠ plain (words ++ rest) := by
  rintro rfl
  refine h.not_begins rfl hpart ⟨rest.toList, ?_⟩
  exact String.toList_append.symm

end Statement

open Statement (OpensWith opensWith_plain opensWith_of_kind)

namespace Dialect

variable {d : Dialect} {s : Schema} {t : Table} {x : Statement}

theorem alterTable_opens (d : Dialect) (table clause : String) :
    (d.alterTable table clause).OpensWith ["ALTER TABLE "] := by
  simp only [alterTable, String.append_assoc]
  exact opensWith_plain _ _

theorem createIndex_opens (d : Dialect) (table : String) (i : Index) :
    (d.createIndex table i).OpensWith ["CREATE INDEX "] := by
  simp only [createIndex, String.append_assoc]
  exact opensWith_plain _ _

theorem scriptComment_opens (h : x ∈ d.scriptComment t) : x.OpensWith [] := by
  unfold scriptComment at h
  split at h
  · cases List.mem_singleton.mp h
    exact opensWith_of_kind (by simp [Statement.comment])
  · cases h

theorem createTable_opens (h : d.createTable s t = .ok x) : x.OpensWith ["CREATE TABLE "] := by
  obtain ⟨clauses, _, h⟩ := bind_ok_iff.mp h
  cases h
  simp only [String.append_assoc]
  exact opensWith_plain _ _

theorem describe_opens (d : Dialect) (text table : String) (column : Option String) :
    (d.describe text table column).OpensWith
      ["EXEC sp_addextendedproperty 'MS_Description', "] := by
  simp only [describe, String.append_assoc]
  exact opensWith_plain _ _

/-- The openings of comments that the database keeps. -/
def commentOpenings : List String :=
  ["COMMENT ON TABLE ", "COMMENT ON COLUMN ", "EXEC sp_addextendedproperty 'MS_Description', "]

theorem storedColumnComment_opens {table : String} {c : Column}
    (h : x ∈ d.storedColumnComment table c) : x.OpensWith commentOpenings := by
  unfold storedColumnComment at h
  split at h
  · cases List.mem_singleton.mp h
    simp only [String.append_assoc]
    exact (opensWith_plain "COMMENT ON COLUMN " _).mono (by decide)
  · cases List.mem_singleton.mp h
    exact (d.describe_opens _ _ _).mono (by decide)
  · cases h

theorem storedTableComment_opens (h : x ∈ d.storedTableComment t) :
    x.OpensWith commentOpenings := by
  unfold storedTableComment at h
  split at h
  · cases List.mem_singleton.mp h
    simp only [String.append_assoc]
    exact (opensWith_plain "COMMENT ON TABLE " _).mono (by decide)
  · cases List.mem_singleton.mp h
    exact (d.describe_opens _ _ _).mono (by decide)
  · cases h

theorem comments_opens (h : x ∈ d.comments t) : x.OpensWith commentOpenings := by
  rcases List.mem_append.mp h with h | h
  · exact storedTableComment_opens h
  · obtain ⟨c, _, h⟩ := List.mem_flatMap.mp h
    exact storedColumnComment_opens h

/-- A trigger is a block, or a plain statement that says so. -/
theorem createTrigger_opens (h : x ∈ d.createTrigger t) : x.OpensWith ["CREATE TRIGGER "] := by
  have hblock : ∀ sql, (Statement.block sql).OpensWith ["CREATE TRIGGER "] :=
    fun _ => opensWith_of_kind (by simp [Statement.block])
  unfold createTrigger triggerStatements at h
  split at h
  · dsimp only at h
    split at h <;> simp only [List.mem_cons, List.mem_map, List.not_mem_nil, or_false] at h
    · exact h ▸ hblock _
    · exact h ▸ hblock _
    · rcases h with rfl | rfl
      · exact hblock _
      · simp only [String.append_assoc]
        exact opensWith_plain _ _
    · exact h ▸ hblock _
    · exact h ▸ hblock _
    · exact h ▸ hblock _
    · obtain ⟨⟨dml, n⟩, _, rfl⟩ := h
      simp only [String.append_assoc]
      exact opensWith_plain _ _
  · cases h

theorem changeRows_opens (d : Dialect) (dml : Dml) :
    (d.changeRows dml).OpensWith ["INSERT INTO ", "UPDATE ", "DELETE FROM "] := by
  unfold changeRows Dml.render
  cases dml <;> simp only [String.append_assoc]
  · exact (opensWith_plain "INSERT INTO " _).mono (by decide)
  · exact (opensWith_plain "UPDATE " _).mono (by decide)
  · exact (opensWith_plain "DELETE FROM " _).mono (by decide)

theorem createView_opens {v : View} (h : x ∈ d.createView v) : x.OpensWith ["CREATE VIEW "] := by
  rcases List.mem_append.mp h with h | h
  · obtain ⟨text, _, rfl⟩ : ∃ text, v.comment = some text ∧
        Statement.comment (v.name ++ ": " ++ text) = x := by simpa using h
    exact opensWith_of_kind (by simp [Statement.comment])
  · cases List.mem_singleton.mp h
    simp only [String.append_assoc]
    exact opensWith_plain _ _

section Steps

variable {table : String} {own : List Statement} {c before after : Column} {change : ColumnChange}
  {inKey : Bool}

/-- The openings of statements that change a table. -/
def changeOpenings : List String :=
  ["ALTER TABLE ", "UPDATE ", "EXEC ", "CALL SYSPROC.ADMIN_CMD('REORG TABLE "] ++ commentOpenings

theorem alterTable_opens_change (d : Dialect) (table clause : String) :
    (d.alterTable table clause).OpensWith changeOpenings :=
  (d.alterTable_opens table clause).mono (by decide)

theorem opens_of_alterTable (d : Dialect) (table : String)
    (h : ∃ clause, own = [d.alterTable table clause]) (hx : x ∈ own) :
    x.OpensWith changeOpenings := by
  obtain ⟨clause, rfl⟩ := h
  cases List.mem_singleton.mp hx
  exact d.alterTable_opens_change table clause

theorem setDefault_opens (d : Dialect) (table column : String) (value : DefaultValue) :
    (d.setDefault table column value).OpensWith changeOpenings := by
  cases d <;> exact alterTable_opens_change _ _ _

theorem dropDefault_opens (d : Dialect) (table column : String) :
    (d.dropDefault table column).OpensWith changeOpenings := by
  cases d with
  | sqlServer =>
    simp only [dropDefault, String.append_assoc]
    exact (opensWith_plain "EXEC " _).mono (by decide)
  | _ => exact alterTable_opens_change _ _ _

theorem setNullability_opens (d : Dialect) (table : String) (c : Column) :
    (d.setNullability table c).OpensWith changeOpenings := by
  cases d <;> exact alterTable_opens_change _ _ _

theorem changeDefault_opens (d : Dialect) (table : String) (c : Column) :
    (d.changeDefault table c).OpensWith changeOpenings := by
  unfold changeDefault
  cases c.default with
  | some value => exact d.setDefault_opens table c.name value
  | none => exact d.dropDefault_opens table c.name

theorem editStatement_opens (d : Dialect) (table : String) (e : ColumnEdit) :
    (d.editStatement table e).OpensWith changeOpenings := by
  cases e with
  | fill column value =>
    simp only [editStatement, String.append_assoc]
    exact (opensWith_plain "UPDATE " _).mono (by decide)
  | comment column text =>
    simp only [editStatement, String.append_assoc]
    exact (opensWith_plain "COMMENT ON COLUMN " _).mono (by decide)
  | _ => exact alterTable_opens_change _ _ _

theorem reorganize_opens (d : Dialect) (table : String) :
    (d.reorganize table).OpensWith changeOpenings := by
  simp only [reorganize, String.append_assoc]
  exact (opensWith_plain "CALL SYSPROC.ADMIN_CMD('REORG TABLE " _).mono (by decide)

theorem mem_ite_nil {p : Prop} [Decidable p] {own : List Statement}
    (h : x ∈ if p then own else []) : x ∈ own := by
  split at h
  · exact h
  · cases h

theorem retypeColumn_opens (h : d.retypeColumn table inKey before after = .ok own) (hx : x ∈ own) :
    x.OpensWith changeOpenings := by
  refine d.opens_of_alterTable table ?_ hx
  unfold retypeColumn at h
  cases d with
  | derby =>
    dsimp only at h
    split at h
    · exact ⟨_, (Except.ok.inj h).symm⟩
    · cases h
  | _ => exact ⟨_, (Except.ok.inj h).symm⟩

theorem alterInSteps_opens (h : d.alterInSteps table inKey before after change = .ok own)
    (hx : x ∈ own) : x.OpensWith changeOpenings := by
  have hsplit : ∃ retyped, (∀ y ∈ retyped, y.OpensWith changeOpenings) ∧
      own = retyped ++ (if change.nullability then [d.setNullability table after] else []) ++
        if change.default then [d.changeDefault table after] else [] := by
    unfold alterInSteps at h
    dsimp only at h
    split at h
    · obtain ⟨retyped, hretyped, h⟩ := bind_ok_iff.mp h
      exact ⟨retyped, fun y hy => retypeColumn_opens hretyped hy, (Except.ok.inj h).symm⟩
    · exact ⟨[], by simp, (Except.ok.inj h).symm⟩
  obtain ⟨retyped, hretyped, rfl⟩ := hsplit
  rcases List.mem_append.mp hx with hx | hx
  · rcases List.mem_append.mp hx with hx | hx
    · exact hretyped x hx
    · cases List.mem_singleton.mp (mem_ite_nil hx)
      exact d.setNullability_opens table after
  · cases List.mem_singleton.mp (mem_ite_nil hx)
    exact d.changeDefault_opens table after

theorem alterByCopy_opens (h : d.alterByCopy table inKey before after change = .ok own)
    (hx : x ∈ own) : x.OpensWith changeOpenings := by
  unfold alterByCopy at h
  split at h
  · cases h
  · split at h
    · cases h
      obtain ⟨e, _, rfl⟩ := List.mem_map.mp hx
      exact d.editStatement_opens table e
    · exact alterInSteps_opens h hx

theorem alterAroundDefault_opens (hx : x ∈ d.alterAroundDefault table inKey before after change) :
    x.OpensWith changeOpenings := by
  unfold alterAroundDefault at hx
  rcases List.mem_append.mp hx with hx | hx
  · rcases List.mem_append.mp hx with hx | hx
    · cases List.mem_singleton.mp (mem_ite_nil hx)
      exact d.dropDefault_opens table before.name
    · cases List.mem_singleton.mp (mem_ite_nil hx)
      exact d.alterTable_opens_change table _
  · cases hdefault : after.default with
    | none =>
      rw [hdefault] at hx
      cases hx
    | some value =>
      rw [hdefault] at hx
      cases List.mem_singleton.mp (mem_ite_nil hx)
      exact d.setDefault_opens table after.name value

theorem alterColumn_opens (h : d.alterColumn table inKey before after change = .ok own)
    (hx : x ∈ own) : x.OpensWith changeOpenings := by
  cases d with
  | oracle => exact alterByCopy_opens h hx
  | sqlServer =>
    cases h
    exact alterAroundDefault_opens hx
  | sybase =>
    cases h
    rcases List.mem_append.mp hx with hx | hx
    · cases List.mem_singleton.mp (mem_ite_nil hx)
      exact alterTable_opens_change _ table _
    · cases List.mem_singleton.mp (mem_ite_nil hx)
      exact changeDefault_opens _ table after
  | mySql =>
    cases h
    cases List.mem_singleton.mp hx
    exact alterTable_opens_change _ table _
  | db2 =>
    obtain ⟨steps, hsteps, h⟩ := bind_ok_iff.mp h
    cases h
    rcases List.mem_append.mp hx with hx | hx
    · exact alterInSteps_opens hsteps hx
    · cases List.mem_singleton.mp (mem_ite_nil hx)
      exact reorganize_opens _ table
  | sqlite => cases h
  | postgreSql | derby | hsqldb => exact alterInSteps_opens h hx

theorem addColumn_opens {f : Option ForeignKey} (h : d.addColumn table inKey c f = .ok own)
    (hx : x ∈ own) : x.OpensWith changeOpenings := by
  refine d.opens_of_alterTable table ?_ hx
  cases d with
  | sqlite =>
    unfold addColumn at h
    dsimp only at h
    split at h
    · cases h
    · cases f with
      | none => exact ⟨_, (Except.ok.inj h).symm⟩
      | some f =>
        obtain ⟨_, _, h⟩ := bind_ok_iff.mp h
        exact ⟨_, (Except.ok.inj h).symm⟩
  | _ => exact ⟨_, (Except.ok.inj h).symm⟩

theorem addedColumnComment_opens (hx : x ∈ d.addedColumnComment table c) :
    x.OpensWith changeOpenings := by
  unfold addedColumnComment at hx
  split at hx
  · cases List.mem_singleton.mp hx
    exact opensWith_of_kind (by simp [Statement.comment])
  · exact (storedColumnComment_opens hx).mono (by decide)

theorem dropColumn_opens (h : d.dropColumn table c = .ok own) (hx : x ∈ own) :
    x.OpensWith changeOpenings := by
  cases d with
  | sqlServer =>
    cases h
    rcases List.mem_append.mp hx with hx | hx
    · cases List.mem_singleton.mp (mem_ite_nil hx)
      exact dropDefault_opens _ table c.name
    · cases List.mem_singleton.mp hx
      exact alterTable_opens_change _ table _
  | db2 =>
    cases h
    rcases List.mem_pair.mp hx with rfl | rfl
    · exact alterTable_opens_change _ table _
    · exact reorganize_opens _ table
  | sqlite => cases h
  | _ =>
    cases h
    cases List.mem_singleton.mp hx
    exact alterTable_opens_change _ table _

/-- The statement that remains once the dialect is found to be able to change constraints. -/
theorem opens_of_required {check : Except GenerateError Unit} {clause : String}
    (h : (do check; return [d.alterTable table clause]) = Except.ok own) (hx : x ∈ own) :
    x.OpensWith changeOpenings := by
  obtain ⟨_, _, h⟩ := bind_ok_iff.mp h
  exact d.opens_of_alterTable table ⟨clause, (Except.ok.inj h).symm⟩ hx

theorem addPrimaryKey_opens {k : PrimaryKey} (h : d.addPrimaryKey table k = .ok own)
    (hx : x ∈ own) : x.OpensWith changeOpenings :=
  opens_of_required h hx

theorem addUnique_opens {u : UniqueConstraint} (h : d.addUnique table u = .ok own) (hx : x ∈ own) :
    x.OpensWith changeOpenings :=
  opens_of_required h hx

theorem addForeignKey_opens {f : ForeignKey} (h : d.addForeignKey table f = .ok own)
    (hx : x ∈ own) : x.OpensWith changeOpenings := by
  obtain ⟨_, _, h⟩ := bind_ok_iff.mp h
  obtain ⟨clause, _, h⟩ := bind_ok_iff.mp h
  exact d.opens_of_alterTable table ⟨"ADD " ++ clause, (Except.ok.inj h).symm⟩ hx

theorem dropPrimaryKey_opens {k : PrimaryKey} (h : d.dropPrimaryKey table k = .ok own)
    (hx : x ∈ own) : x.OpensWith changeOpenings := by
  unfold dropPrimaryKey at h
  split at h
  · exact opens_of_alterTable _ table ⟨_, (Except.ok.inj h).symm⟩ hx
  · exact opens_of_required h hx

theorem dropUnique_opens {u : UniqueConstraint} (h : d.dropUnique table u = .ok own)
    (hx : x ∈ own) : x.OpensWith changeOpenings := by
  unfold dropUnique at h
  split at h
  · exact opens_of_alterTable _ table ⟨_, (Except.ok.inj h).symm⟩ hx
  · exact opens_of_required h hx

theorem dropForeignKey_opens {f : ForeignKey} (h : d.dropForeignKey table f = .ok own)
    (hx : x ∈ own) : x.OpensWith changeOpenings := by
  unfold dropForeignKey at h
  split at h
  · exact opens_of_alterTable _ table ⟨_, (Except.ok.inj h).symm⟩ hx
  · exact opens_of_required h hx

theorem newTableKeys_opens (h : d.newTableKeys t = .ok own) (hx : x ∈ own) :
    x.OpensWith changeOpenings := by
  unfold newTableKeys at h
  split at h
  · cases h
    cases hx
  · obtain ⟨primaryKey, hprimaryKey, h⟩ := bind_ok_iff.mp h
    obtain ⟨uniques, huniques, h⟩ := bind_ok_iff.mp h
    cases h
    rcases List.mem_append.mp hx with hx | hx
    · exact addPrimaryKey_opens hprimaryKey hx
    · obtain ⟨u, _, statements, hu, hx⟩ := mem_of_emitAll_ok huniques hx
      exact addUnique_opens hu hx

/-- The openings of statements that create a table, with all that belongs to it. -/
def creationOpenings : List String :=
  ["CREATE TABLE ", "CREATE INDEX "] ++ changeOpenings

theorem createTableStatements_opens (h : d.createTableStatements s t = .ok own) (hx : x ∈ own) :
    x.OpensWith creationOpenings := by
  obtain ⟨table, htable, h⟩ := bind_ok_iff.mp h
  obtain ⟨keys, hkeys, h⟩ := bind_ok_iff.mp h
  obtain ⟨statement, hstatement, htable⟩ := bind_ok_iff.mp htable
  cases htable
  cases h
  simp only [List.mem_append, List.mem_singleton] at hx
  rcases hx with (((hx | rfl) | hx) | hx) | hx
  · exact (scriptComment_opens hx).mono (by decide)
  · exact (createTable_opens hstatement).mono (by decide)
  · exact (newTableKeys_opens hkeys hx).mono (by decide)
  · obtain ⟨i, _, rfl⟩ := List.mem_map.mp hx
    exact (d.createIndex_opens t.name i).mono (by decide)
  · exact (comments_opens hx).mono (by decide)

theorem dropIndex_opens (d : Dialect) (table : String) (i : Index) :
    (d.dropIndex table i).OpensWith ["DROP INDEX "] := by
  cases d <;> simp only [dropIndex, String.append_assoc] <;> exact opensWith_plain _ _

/-- The openings of what a step writes that drops no trigger. -/
def stepOpenings : List String :=
  ["CREATE TRIGGER ", "CREATE VIEW ", "DROP VIEW ", "DROP INDEX ", "DROP TABLE "] ++
    creationOpenings

theorem stepStatements_opens {plan : Plan} {e : Step} (he : ∀ t, e ≠ .dropTrigger t)
    (h : d.stepStatements s plan e = .ok own) (hx : x ∈ own) : x.OpensWith stepOpenings := by
  have hchange : x.OpensWith changeOpenings → x.OpensWith stepOpenings := fun hopens =>
    hopens.mono (by decide)
  cases e with
  | dropTrigger t => exact absurd rfl (he t)
  | dropView v =>
    cases h
    cases List.mem_singleton.mp hx
    exact (opensWith_plain "DROP VIEW " _).mono (by decide)
  | dropIndex table i =>
    cases h
    cases List.mem_singleton.mp hx
    exact (d.dropIndex_opens table i).mono (by decide)
  | dropTable t =>
    cases h
    cases List.mem_singleton.mp hx
    exact (opensWith_plain "DROP TABLE " _).mono (by decide)
  | createTable t => exact (createTableStatements_opens h hx).mono (by decide)
  | addIndex table i =>
    cases h
    cases List.mem_singleton.mp hx
    exact (d.createIndex_opens table i).mono (by decide)
  | createTrigger t =>
    cases h
    exact (createTrigger_opens hx).mono (by decide)
  | createView v =>
    cases h
    exact (createView_opens hx).mono (by decide)
  | dropUnique table u => exact hchange (dropUnique_opens h hx)
  | dropPrimaryKey table k => exact hchange (dropPrimaryKey_opens h hx)
  | addPrimaryKey table k => exact hchange (addPrimaryKey_opens h hx)
  | addUnique table u => exact hchange (addUnique_opens h hx)
  | alterColumn table before after change => exact hchange (alterColumn_opens h hx)
  | dropColumn table c => exact hchange (dropColumn_opens h hx)
  | addColumn table c =>
    obtain ⟨added, hadded, h⟩ := bind_ok_iff.mp h
    cases h
    rcases List.mem_append.mp hx with hx | hx
    · exact hchange (addColumn_opens hadded hx)
    · exact hchange (addedColumnComment_opens hx)
  | dropForeignKey table f =>
    rw [stepStatements] at h
    split at h
    · cases h
      cases hx
    · exact hchange (dropForeignKey_opens h hx)
  | addForeignKey table f =>
    rw [stepStatements] at h
    split at h
    · cases h
      cases hx
    · exact hchange (addForeignKey_opens h hx)

end Steps

end Dialect

end Schemata
