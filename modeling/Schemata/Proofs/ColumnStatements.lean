import Schemata.Proofs.Lexing
import Schemata.Proofs.PlanSoundness
import Schemata.Proofs.PlanSteps
import Schemata.Proofs.Wording

/-! Which statements of a SQL Server migration change a column there was. They name the table and
the column in fixed places, so that each of them tells which column it changes, and only the steps
that alter or drop this column write it. -/
namespace Schemata

/-- The table and the column, as it was, that a step changes or drops. -/
def Step.column? : Step → Option (String × Column)
  | alterColumn table before _ _ => some (table, before)
  | dropColumn table c => some (table, c)
  | _ => none

namespace Statement

variable {x : Statement} {openings others : List String} {words : String}

/-- Whether the statement is no comment and begins with the words. -/
def runs (words : String) (x : Statement) : Bool :=
  !x.isComment && words.toList.isPrefixOf x.sql.toList

/-- The statement is a comment, or begins with one of the openings. -/
def Begins (openings : List String) (x : Statement) : Prop :=
  x.isComment = true ∨ ∃ words ∈ openings, words.toList <+: x.sql.toList

theorem begins_comment (text : String) : (comment text).Begins openings :=
  .inl rfl

theorem begins_of_sql (words rest : String) (h : x.sql = words ++ rest) : x.Begins [words] := by
  refine .inr ⟨words, List.mem_singleton_self words, rest.toList, ?_⟩
  rw [h, String.toList_append]

theorem begins_plain (words rest : String) : (plain (words ++ rest)).Begins [words] :=
  begins_of_sql words rest rfl

theorem Begins.mono (h : x.Begins openings) (hsub : openings ⊆ others) : x.Begins others := by
  rcases h with h | ⟨words, hwords, h⟩
  · exact .inl h
  · exact .inr ⟨words, hsub hwords, h⟩

theorem OpensWith.begins (h : x.OpensWith openings) (hplain : x.kind = .plain) :
    x.Begins openings :=
  .inr (h hplain)

theorem runs_of_sql {rest : String} (hx : x.isComment = false) (h : x.sql = words ++ rest) :
    x.runs words = true := by
  simp [runs, hx, h]

theorem Begins.runs_eq_false (h : x.Begins openings)
    (hpart : openings.all (partWays words) = true) : x.runs words = false := by
  rcases h with h | ⟨own, hown, hopen⟩
  · simp [runs, h]
  · refine Bool.eq_false_iff.mpr fun hruns => ?_
    simp only [runs, Bool.and_eq_true, List.isPrefixOf_iff_prefix] at hruns
    exact not_prefix_of_partWays (List.all_eq_true.mp hpart own hown) hruns.2 hopen

end Statement

/-- Texts whose first words part ways are different. -/
theorem append_ne_append {a b : String} (h : Statement.partWays b a = true) (r s : String) :
    a ++ r ≠ b ++ s := by
  have hne : Statement.plain (a ++ r) ≠ Statement.plain (b ++ s) :=
    (Statement.opensWith_plain a r).ne_plain (by simp [h]) s
  exact fun heq => hne (congrArg Statement.plain heq)

section Blanks

variable {a b r s : List Char}

/-- A word is told from what stands after the blank behind it. -/
theorem eq_of_first_blank (ha : ' ' ∉ a) (hb : ' ' ∉ b) (h : a ++ ' ' :: r = b ++ ' ' :: s) :
    a = b ∧ r = s := by
  have hword : ∀ {w t : List Char}, ' ' ∉ w → (w ++ ' ' :: t).takeWhile (· != ' ') = w := by
    intro w t hw
    refine takeWhile_append_stop (fun c hc => ?_) (fun c hc => by cases hc; rfl)
    exact bne_iff_ne.mpr fun heq => hw (heq ▸ hc)
  have hab : a = b := by rw [← hword (t := r) ha, h, hword hb]
  subst hab
  exact ⟨rfl, by simpa using h⟩

/-- A word is told from what stands before the blank in front of it. -/
theorem eq_of_last_blank (ha : ' ' ∉ a) (hb : ' ' ∉ b) (h : r ++ ' ' :: a = s ++ ' ' :: b) :
    a = b := by
  have hreverse := congrArg List.reverse h
  simp only [List.reverse_append, List.reverse_cons, List.append_assoc] at hreverse
  have hab := eq_of_first_blank (by simpa using ha) (by simpa using hb) hreverse
  exact List.reverse_inj.mp hab.1

end Blanks

namespace Dialect

open Statement (Begins begins_plain begins_comment begins_of_sql)

section Names

variable {a b name : String}

theorem quote_sqlServer (name : String) : sqlServer.quote name =
    if sqlServer.naming.needsQuotes name then "[" ++ name ++ "]" else name :=
  rfl

theorem not_mem_of_isIdentifier {c : Char} (hc : isNameChar c = false) (hs : isNameStart c = false)
    (h : isIdentifier name = true) : c ∉ name.toList := by
  obtain ⟨d, ds, hname, hd, hds⟩ := isIdentifier_iff.mp h
  rw [hname, List.mem_cons, not_or]
  constructor
  · rintro rfl
    exact Bool.false_ne_true (hs.symm.trans hd)
  · intro hmem
    exact Bool.false_ne_true (hc.symm.trans (hds c hmem))

theorem blank_not_mem_quote (h : isIdentifier name = true) :
    ' ' ∉ (sqlServer.quote name).toList := by
  have hname : ' ' ∉ name.toList := not_mem_of_isIdentifier (by decide) (by decide) h
  rw [quote_sqlServer]
  split
  · simpa using hname
  · exact hname

theorem quote_sqlServer_inj (ha : isIdentifier a = true) (hb : isIdentifier b = true)
    (h : sqlServer.quote a = sqlServer.quote b) : a = b := by
  -- an identifier has no bracket, so a quoted name is no bare one
  have hbare : ∀ {n m : String}, isIdentifier n = true → n ≠ "[" ++ m ++ "]" := by
    intro n m hn heq
    refine not_mem_of_isIdentifier (c := '[') (by decide) (by decide) hn ?_
    simp [heq]
  rw [quote_sqlServer, quote_sqlServer] at h
  split at h <;> split at h
  · simpa using h
  · exact absurd h.symm (hbare hb)
  · exact absurd h (hbare ha)
  · exact h

/-- A reserved word is quoted. -/
theorem quote_ne_default (name : String) : sqlServer.quote name ≠ "DEFAULT" := by
  intro h
  rw [quote_sqlServer] at h
  split at h
  · have := congrArg String.toList h
    simp at this
  · rename_i hbare
    rw [h] at hbare
    exact hbare (by decide +kernel)

theorem alterTable_sqlServer_inj {clause clause' : String} (ha : isIdentifier a = true)
    (hb : isIdentifier b = true)
    (h : sqlServer.alterTable a clause = sqlServer.alterTable b clause') :
    a = b ∧ clause = clause' := by
  have hsql := congrArg (String.toList ∘ Statement.sql) h
  simp only [alterTable, Statement.plain, Function.comp_apply, String.toList_append,
    List.append_assoc, List.append_cancel_left_eq] at hsql
  obtain ⟨hname, hclause⟩ :=
    eq_of_first_blank (blank_not_mem_quote ha) (blank_not_mem_quote hb) hsql
  exact ⟨quote_sqlServer_inj ha hb (String.toList_inj.mp hname), String.toList_inj.mp hclause⟩

end Names

section Clauses

variable {table column : String} {x : Statement}

/-- What follows the table in a statement that changes a column of it: a new type and nullability,
a new default, or nothing left of it. -/
inductive ColumnClause (column : String) : String → Prop
  | retype (rest : String) : ColumnClause column
      ("ALTER COLUMN " ++ (sqlServer.quote column ++ (" " ++ rest)))
  | setDefault (text : String) : ColumnClause column
      ("ADD DEFAULT " ++ (text ++ (" FOR " ++ sqlServer.quote column)))
  | drop : ColumnClause column ("DROP COLUMN " ++ sqlServer.quote column)

/-- The statement changes a column that there is, or drops it. -/
def ChangesColumn (table column : String) (x : Statement) : Prop :=
  ∃ clause, ColumnClause column clause ∧ x = sqlServer.alterTable table clause

theorem ColumnClause.column_eq {column' clause clause' : String} (h : ColumnClause column clause)
    (h' : ColumnClause column' clause') (hc : isIdentifier column = true)
    (hc' : isIdentifier column' = true) (heq : clause = clause') : column = column' := by
  refine quote_sqlServer_inj hc hc' (String.toList_inj.mp ?_)
  cases h with
  | retype rest =>
    cases h' with
    | retype rest' =>
      have hrest := congrArg String.toList ((String.append_right_inj _).mp heq)
      simp only [String.toList_append] at hrest
      exact (eq_of_first_blank (blank_not_mem_quote hc) (blank_not_mem_quote hc') hrest).1
    | setDefault _ | drop => exact absurd heq (append_ne_append (by decide) _ _)
  | setDefault text =>
    cases h' with
    | setDefault text' =>
      have htext := congrArg String.toList ((String.append_right_inj _).mp heq)
      have hsplit : ∀ start name : List Char,
          start ++ (" FOR ".toList ++ name) = (start ++ " FOR".toList) ++ ' ' :: name := by simp
      simp only [String.toList_append, hsplit] at htext
      exact eq_of_last_blank (blank_not_mem_quote hc) (blank_not_mem_quote hc') htext
    | retype _ | drop => exact absurd heq (append_ne_append (by decide) _ _)
  | drop =>
    cases h' with
    | drop => exact congrArg String.toList ((String.append_right_inj _).mp heq)
    | retype _ | setDefault _ => exact absurd heq (append_ne_append (by decide) _ _)

theorem ColumnClause.ne_constraint {clause words : String} (h : ColumnClause column clause)
    (hw : words ∈ ["ADD CONSTRAINT ", "DROP CONSTRAINT "]) (rest : String) :
    clause ≠ words ++ rest := by
  rcases List.mem_pair.mp hw with rfl | rfl <;>
    cases h <;> exact append_ne_append (by decide) _ _

/-- The word after `ADD` tells a default from a column: a column of that name is quoted. -/
theorem ColumnClause.ne_addColumn {clause name : String} (h : ColumnClause column clause)
    (hname : isIdentifier name = true) (rest : String) :
    clause ≠ "ADD " ++ (sqlServer.quote name ++ (" " ++ rest)) := by
  cases h with
  | retype _ | drop => exact append_ne_append (by decide) _ _
  | setDefault text =>
    intro heq
    have hlist := congrArg String.toList heq
    rw [show "ADD DEFAULT " = "ADD " ++ ("DEFAULT" ++ " ") from rfl] at hlist
    simp only [String.toList_append, List.append_assoc, List.append_cancel_left_eq] at hlist
    have hword := (eq_of_first_blank (by decide) (blank_not_mem_quote hname) hlist).1
    exact quote_ne_default name (String.toList_inj.mp hword.symm)

theorem ChangesColumn.unique {table' column' : String} (h : ChangesColumn table column x)
    (h' : ChangesColumn table' column' x) (ht : isIdentifier table = true)
    (ht' : isIdentifier table' = true) (hc : isIdentifier column = true)
    (hc' : isIdentifier column' = true) : table = table' ∧ column = column' := by
  obtain ⟨clause, hclause, rfl⟩ := h
  obtain ⟨clause', hclause', hx⟩ := h'
  obtain ⟨htable, hsame⟩ := alterTable_sqlServer_inj ht ht' hx
  exact ⟨htable, hclause.column_eq hclause' hc hc' hsame⟩

theorem runs_alterTable (table clause : String) :
    (sqlServer.alterTable table clause).runs "ALTER TABLE " = true := by
  have hsql : (sqlServer.alterTable table clause).sql =
      "ALTER TABLE " ++ (sqlServer.quote table ++ (" " ++ clause)) := by
    simp only [alterTable, Statement.plain, String.append_assoc]
  exact Statement.runs_of_sql rfl hsql

theorem ChangesColumn.begins (h : ChangesColumn table column x) : x.Begins ["ALTER TABLE "] := by
  obtain ⟨clause, _, rfl⟩ := h
  exact (sqlServer.alterTable_opens table clause).begins rfl

theorem ChangesColumn.not_begins (h : ChangesColumn table column x) {openings : List String}
    (hpart : openings.all (Statement.partWays "ALTER TABLE ") = true) : ¬ x.Begins openings := by
  intro hbegins
  have hother := hbegins.runs_eq_false hpart
  obtain ⟨clause, _, rfl⟩ := h
  rw [runs_alterTable] at hother
  cases hother

end Clauses

/-- The openings of statements that neither alter a table nor use the procedure. -/
def besideOpenings : List String :=
  ["CREATE TABLE ", "DROP TABLE ", "CREATE INDEX ", "DROP INDEX ", "CREATE TRIGGER ",
   "DROP TRIGGER ", "CREATE VIEW ", "DROP VIEW ", "EXEC sp_addextendedproperty 'MS_Description', "]

/-- What a step writes that leaves the columns there are as they are. -/
inductive Beside (e : Step) : Statement → Prop
  | opening {x : Statement} (h : x.Begins besideOpenings) : Beside e x
  | constraint {table words : String} (h : e.table? = some table)
      (hw : words ∈ ["ADD CONSTRAINT ", "DROP CONSTRAINT "]) (rest : String) :
      Beside e (sqlServer.alterTable table (words ++ rest))
  | addColumn {table : String} {c : Column} (h : e = .addColumn table c) (rest : String) :
      Beside e (sqlServer.alterTable table ("ADD " ++ (sqlServer.quote c.name ++ (" " ++ rest))))

section Steps

variable {new : Schema} {plan : Plan} {e : Step} {own : List Statement} {x : Statement}
  {table : String} {t : Table} {c : Column}

theorem storedColumnComment_begins (hx : x ∈ sqlServer.storedColumnComment table c) :
    x.Begins besideOpenings := by
  unfold storedColumnComment at hx
  cases hc : c.comment with
  | none => simp [hc, commentStyle] at hx
  | some text =>
    simp only [hc, commentStyle, List.mem_singleton] at hx
    rw [hx]
    exact ((sqlServer.describe_opens text table (some c.name)).begins rfl).mono (by decide)

theorem comments_begins (hx : x ∈ sqlServer.comments t) : x.Begins besideOpenings := by
  rcases List.mem_append.mp hx with hx | hx
  · unfold storedTableComment at hx
    cases hc : t.comment with
    | none => simp [hc, commentStyle] at hx
    | some text =>
      simp only [hc, commentStyle, List.mem_singleton] at hx
      rw [hx]
      exact ((sqlServer.describe_opens text t.name none).begins rfl).mono (by decide)
  · obtain ⟨c, _, hx⟩ := List.mem_flatMap.mp hx
    exact storedColumnComment_begins hx

theorem beside_addConstraint (ht : e.table? = some table) (rest : String) :
    Beside e (sqlServer.alterTable table ("ADD " ++ ("CONSTRAINT " ++ rest))) := by
  rw [← String.append_assoc]
  exact .constraint ht (by decide) rest

theorem beside_dropConstraint (ht : e.table? = some table) (name : String) :
    Beside e (sqlServer.dropConstraint table name) :=
  .constraint ht (List.mem_cons_of_mem _ List.mem_cons_self) _

theorem beside_addPrimaryKey {k : PrimaryKey} (ht : e.table? = some table)
    (h : sqlServer.addPrimaryKey table k = .ok own) (hx : x ∈ own) : Beside e x := by
  obtain ⟨_, _, h⟩ := bind_ok_iff.mp h
  cases h
  rw [List.mem_singleton.mp hx]
  delta primaryKeyClause
  simp only [String.append_assoc]
  exact beside_addConstraint ht _

theorem beside_addUnique {u : UniqueConstraint} (ht : e.table? = some table)
    (h : sqlServer.addUnique table u = .ok own) (hx : x ∈ own) : Beside e x := by
  obtain ⟨_, _, h⟩ := bind_ok_iff.mp h
  cases h
  rw [List.mem_singleton.mp hx]
  delta uniqueClause
  simp only [String.append_assoc]
  exact beside_addConstraint ht _

theorem beside_addForeignKey {f : ForeignKey} (ht : e.table? = some table)
    (h : sqlServer.addForeignKey table f = .ok own) (hx : x ∈ own) : Beside e x := by
  obtain ⟨_, _, h⟩ := bind_ok_iff.mp h
  obtain ⟨clause, hclause, h⟩ := bind_ok_iff.mp h
  obtain ⟨references, _, hclause⟩ := bind_ok_iff.mp hclause
  cases h
  cases hclause
  cases List.mem_singleton.mp hx
  simp only [String.append_assoc]
  exact beside_addConstraint ht _

theorem beside_createTable (h : sqlServer.createTableStatements new t = .ok own) (hx : x ∈ own) :
    Beside (.createTable t) x := by
  obtain ⟨table, htable, h⟩ := bind_ok_iff.mp h
  obtain ⟨keys, hkeys, h⟩ := bind_ok_iff.mp h
  obtain ⟨statement, hstatement, htable⟩ := bind_ok_iff.mp htable
  obtain ⟨primaryKey, hprimaryKey, hkeys⟩ := bind_ok_iff.mp hkeys
  obtain ⟨uniques, huniques, hkeys⟩ := bind_ok_iff.mp hkeys
  cases htable
  cases hkeys
  cases h
  simp only [List.mem_append, List.mem_singleton] at hx
  rcases hx with (((hx | rfl) | hx | hx) | hx) | hx
  · simp [scriptComment, commentStyle] at hx
  · have hplain : x.kind = .plain := by
      obtain ⟨clauses, _, hstatement⟩ := bind_ok_iff.mp hstatement
      cases hstatement
      rfl
    exact .opening (((createTable_opens hstatement).begins hplain).mono (by decide))
  · exact beside_addPrimaryKey rfl hprimaryKey hx
  · obtain ⟨u, _, statements, hu, hx⟩ := mem_of_emitAll_ok huniques hx
    exact beside_addUnique rfl hu hx
  · obtain ⟨i, _, rfl⟩ := List.mem_map.mp hx
    exact .opening (((sqlServer.createIndex_opens t.name i).begins rfl).mono (by decide))
  · exact .opening (comments_begins hx)

theorem beside_addColumn {inKey : Bool}
    (hx : x = sqlServer.alterTable table ("ADD " ++ sqlServer.columnDefinition inKey c)) :
    Beside (.addColumn table c) x := by
  rw [hx]
  simp only [columnDefinition, String.append_assoc]
  exact .addColumn rfl _

theorem beside_step (h : sqlServer.stepStatements new plan e = .ok own) (he : e.column? = none)
    (hx : x ∈ own) : Beside e x := by
  cases e with
  | alterColumn table before after change => cases he
  | dropColumn table c => cases he
  | dropView v =>
    cases h
    cases List.mem_singleton.mp hx
    exact .opening ((begins_plain "DROP VIEW " _).mono (by decide))
  | dropTrigger t =>
    cases h
    cases List.mem_singleton.mp hx
    exact .opening ((begins_plain "DROP TRIGGER " _).mono (by decide))
  | dropForeignKey table f =>
    cases h
    cases List.mem_singleton.mp hx
    exact beside_dropConstraint rfl _
  | dropUnique table u =>
    cases h
    cases List.mem_singleton.mp hx
    exact beside_dropConstraint rfl _
  | dropPrimaryKey table k =>
    cases h
    cases List.mem_singleton.mp hx
    exact beside_dropConstraint rfl _
  | dropIndex table i =>
    cases h
    cases List.mem_singleton.mp hx
    exact .opening (((sqlServer.dropIndex_opens table i).begins rfl).mono (by decide))
  | dropTable t =>
    cases h
    cases List.mem_singleton.mp hx
    exact .opening ((begins_plain "DROP TABLE " _).mono (by decide))
  | createTable t => exact beside_createTable h hx
  | addColumn table c =>
    cases h
    rcases List.mem_append.mp hx with hx | hx
    · exact beside_addColumn (List.mem_singleton.mp hx)
    · exact .opening (storedColumnComment_begins hx)
  | addPrimaryKey table k => exact beside_addPrimaryKey rfl h hx
  | addUnique table u => exact beside_addUnique rfl h hx
  | addForeignKey table f => exact beside_addForeignKey rfl h hx
  | addIndex table i =>
    cases h
    cases List.mem_singleton.mp hx
    exact .opening (((sqlServer.createIndex_opens table i).begins rfl).mono (by decide))
  | createTrigger t =>
    cases h
    obtain ⟨sql, rfl⟩ : ∃ rest, x = .block ("CREATE TRIGGER " ++ rest) := by
      simp only [createTrigger, triggerStatements, triggerForm] at hx
      split at hx
      · rw [List.mem_singleton.mp hx]
        simp only [String.append_assoc]
        exact ⟨_, rfl⟩
      · cases hx
    exact .opening ((begins_of_sql "CREATE TRIGGER " sql rfl).mono (by decide))
  | createView v =>
    cases h
    rcases List.mem_append.mp hx with hx | hx
    · obtain ⟨text, _, rfl⟩ : ∃ text, v.comment = some text ∧
          Statement.comment (v.name ++ ": " ++ text) = x := by simpa using hx
      exact .opening (begins_comment _)
    · cases List.mem_singleton.mp hx
      simp only [String.append_assoc]
      exact .opening ((begins_plain "CREATE VIEW " _).mono (by decide))

theorem Beside.begins (h : Beside e x) : x.Begins ("ALTER TABLE " :: besideOpenings) := by
  have halter : ∀ table clause,
      (sqlServer.alterTable table clause).Begins ("ALTER TABLE " :: besideOpenings) :=
    fun table clause => ((sqlServer.alterTable_opens table clause).begins rfl).mono (by decide)
  cases h with
  | opening h => exact h.mono (List.subset_cons_self _ _)
  | constraint _ _ _ => exact halter _ _
  | addColumn _ _ => exact halter _ _

theorem Beside.not_changesColumn {column : String} (h : Beside e x)
    (htable : ∀ name, e.table? = some name → isIdentifier name = true)
    (hadded : ∀ table c, e = .addColumn table c → isIdentifier c.name = true)
    (ht : isIdentifier table = true) : ¬ ChangesColumn table column x := by
  intro hchanges
  cases h with
  | opening h => exact hchanges.not_begins (by decide) h
  | constraint he hw rest =>
    obtain ⟨clause, hclause, hx⟩ := hchanges
    obtain ⟨-, rfl⟩ := alterTable_sqlServer_inj (htable _ he) ht hx
    exact hclause.ne_constraint hw rest rfl
  | addColumn he rest =>
    subst he
    obtain ⟨clause, hclause, hx⟩ := hchanges
    obtain ⟨-, rfl⟩ := alterTable_sqlServer_inj (htable _ rfl) ht hx
    exact hclause.ne_addColumn (hadded _ _ rfl) rest rfl

end Steps

section Columns

variable {d : Dialect} {old new : Schema} {plan : Plan} {e : Step} {own : List Statement}
  {table : String} {before after c : Column} {change : ColumnChange}

/-- A migration alters columns that there are, and only if something about them changes. -/
theorem alterColumn_mem_migrationPlan
    (he : .alterColumn table before after change ∈ d.migrationPlan old new) :
    change.isEmpty = false ∧
      ∃ o, old.findTable? table = some o ∧ o.findColumn? after.name = some before := by
  rcases mem_migrationPlan.mp he with he | he
  · obtain ⟨p, hp, rfl, ha⟩ := Comparison.alterColumn_mem_plan.mp he
    obtain ⟨_, hbefore, _, hempty⟩ := TablePair.mem_altered.mp ha
    exact ⟨hempty, p.old, (Comparison.mem_surviving.mp hp).2, hbefore⟩
  · obtain ⟨t, _, o, ho, after, _, before, hbefore, _, _, heq⟩ := mem_widthAlters.mp he
    cases heq
    exact ⟨rfl, o, ho, hbefore⟩

theorem dropColumn_mem_migrationPlan : .dropColumn table c ∈ d.migrationPlan old new ↔
    ∃ p ∈ (Comparison.mk old new d.recreateOptions).surviving, p.new.name = table ∧
      c ∈ p.dropped :=
  (mem_migrationPlan_iff (by simp)).trans Comparison.dropColumn_mem_plan

theorem name_of_findColumn {t : Table} {name : String} (h : t.findColumn? name = some c) :
    c.name = name := by
  simpa using List.find?_some h

theorem column_of_mem (ho : old.Built) (he : e ∈ d.migrationPlan old new)
    (hc : e.column? = some (table, before)) :
    ∃ o, old.findTable? table = some o ∧ o.findColumn? before.name = some before := by
  cases e with
  | alterColumn table before after change =>
    cases hc
    obtain ⟨_, o, hfind, hbefore⟩ := alterColumn_mem_migrationPlan he
    exact ⟨o, hfind, name_of_findColumn hbefore ▸ hbefore⟩
  | dropColumn table c =>
    cases hc
    obtain ⟨p, hp, rfl, hdropped⟩ := dropColumn_mem_migrationPlan.mp he
    have hfind := (Comparison.mem_surviving.mp hp).2
    have hvalid := ho.table (ho.findTable_iff.mp hfind).1
    exact ⟨p.old, hfind, hvalid.findColumn_iff.mpr ⟨(List.mem_filter.mp hdropped).1, rfl⟩⟩
  | _ => cases hc

theorem alterAroundDefault_split {inKey : Bool} (hchange : change.isEmpty = false) :
    ∃ rest, sqlServer.alterAroundDefault table inKey before after change =
      (if before.default.isSome then [sqlServer.dropDefault table before.name] else []) ++ rest ∧
      ∀ x ∈ rest, ChangesColumn table after.name x := by
  have htouched : (change.default || change.isStructural) = true := by
    rw [ColumnChange.isEmpty, Bool.not_eq_false', Bool.or_comm] at hchange
    exact hchange
  rw [alterAroundDefault, htouched, Bool.true_and, List.append_assoc]
  refine ⟨_, rfl, fun x hx => ?_⟩
  rcases List.mem_append.mp hx with hx | hx
  · rw [List.mem_singleton.mp (mem_ite_nil hx)]
    simp only [String.append_assoc]
    exact ⟨_, .retype _, rfl⟩
  · cases hdefault : after.default with
    | none =>
      rw [hdefault] at hx
      cases hx
    | some value =>
      rw [hdefault] at hx
      rw [List.mem_singleton.mp (mem_ite_nil hx)]
      simp only [setDefault, String.append_assoc]
      exact ⟨_, .setDefault _, rfl⟩

/-- The procedure runs for a column that has a default, and then the column changes. -/
theorem statements_of_column (he : e ∈ sqlServer.migrationPlan old new)
    (hc : e.column? = some (table, before))
    (h : sqlServer.stepStatements new plan e = .ok own) :
    ∃ rest, own = (if before.default.isSome then [sqlServer.dropDefault table before.name]
      else []) ++ rest ∧ ∀ x ∈ rest, ChangesColumn table before.name x := by
  cases e with
  | alterColumn table before after change =>
    cases hc
    cases h
    obtain ⟨hchange, o, _, hbefore⟩ := alterColumn_mem_migrationPlan he
    have hname := name_of_findColumn hbefore
    obtain ⟨rest, hsplit, hrest⟩ := alterAroundDefault_split hchange
    exact ⟨rest, hsplit, hname ▸ hrest⟩
  | dropColumn table c =>
    cases hc
    cases h
    refine ⟨_, rfl, fun x hx => ?_⟩
    cases List.mem_singleton.mp hx
    exact ⟨_, .drop, rfl⟩
  | _ => cases hc

end Columns

section Names

variable {d : Dialect} {old new : Schema} {e : Step} {name table : String} {c : Column}

theorem isIdentifier_of_table (ho : old.Built) (hn : new.Built) (he : e ∈ d.migrationPlan old new)
    (hname : e.table? = some name) : isIdentifier name = true := by
  have hfound : ∀ {s : Schema} {t : Table}, s.Built → s.findTable? name = some t →
      isIdentifier name = true := by
    intro s t hs hfind
    obtain ⟨ht, rfl⟩ := hs.findTable_iff.mp hfind
    exact (hs.table ht).name
  rcases mem_migrationPlan.mp he with he | he
  · have hslice : e ∈ (diff old new d.recreateOptions).filter (·.table? = some name) :=
      List.mem_filter.mpr ⟨he, decide_eq_true hname⟩
    rw [diff, Comparison.slice_plan ho hn] at hslice
    cases hold : old.findTable? name with
    | some o => exact hfound ho hold
    | none =>
      cases hnew : new.findTable? name with
      | some t => exact hfound hn hnew
      | none => simp [hold, hnew] at hslice
  · obtain ⟨t, ht, _, _, _, _, _, _, _, _, rfl⟩ := mem_widthAlters.mp he
    cases hname
    exact (hn.table ht).name

theorem isIdentifier_of_added (hn : new.ColumnsBuilt)
    (he : .addColumn table c ∈ d.migrationPlan old new) : isIdentifier c.name = true := by
  obtain ⟨p, hp, _, hc⟩ :=
    Comparison.addColumn_mem_plan.mp ((mem_migrationPlan_iff (by simp)).mp he)
  exact hn.name (Comparison.mem_surviving.mp hp).1 (List.mem_filter.mp hc).1

end Names

end Dialect

end Schemata
