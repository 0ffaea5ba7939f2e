import Schemata.Proofs.RoundTrip
import Schemata.Proofs.ViewCreation

/-! Placeholders in a creation script. A template that has one is left out; but views and action
blocks are written whatever stands in them, and each of their placeholders is found again in the
text of a statement that is run. -/
namespace Schemata

/-- The one text stands somewhere in the other. -/
def Occurs (a b : String) : Prop :=
  a.toList <:+: b.toList

namespace Occurs

variable {a b c : String}

theorem refl (a : String) : Occurs a a :=
  List.infix_rfl

theorem trans (hab : Occurs a b) (hbc : Occurs b c) : Occurs a c :=
  List.IsInfix.trans hab hbc

theorem trail (h : Occurs a b) (c : String) : Occurs a (b ++ c) := by
  refine h.trans ?_
  rw [Occurs, String.toList_append]
  exact (List.prefix_append _ _).isInfix

theorem lead (h : Occurs a b) (c : String) : Occurs a (c ++ b) := by
  refine h.trans ?_
  rw [Occurs, String.toList_append]
  exact (List.suffix_append _ _).isInfix

theorem parenthesize (wanted : Bool) (h : Occurs a b) : Occurs a (parenthesize wanted b) := by
  cases wanted with
  | false => exact h
  | true => exact (h.lead "(").trail ")"

theorem join {l : List String} (hb : b ∈ l) (h : Occurs a b) : Occurs a (String.join l) := by
  induction l with
  | nil => cases hb
  | cons x l ih =>
    rw [String.join_cons]
    rcases List.mem_cons.mp hb with rfl | hb
    · exact h.trail _
    · exact (ih hb).lead x

theorem intercalate (sep : String) {l : List String} (hb : b ∈ l) (h : Occurs a b) :
    Occurs a (sep.intercalate l) := by
  cases l with
  | nil => cases hb
  | cons x l =>
    rw [intercalate_cons]
    rcases List.mem_cons.mp hb with rfl | hb
    · exact h.trail _
    · exact (join (List.mem_map_of_mem hb) (h.lead sep)).lead x

end Occurs

/-- Concatenation is written with both operands as they are. -/
def Style.KeepsOperands (s : Style) : Prop :=
  ∀ l r, Occurs l (s.concat l r) ∧ Occurs r (s.concat l r)

theorem Dialect.style_keepsOperands (d : Dialect) (oldRow qualifier : Option String) :
    (d.style oldRow qualifier).KeepsOperands := by
  intro l r
  cases d with
  | mySql =>
    exact ⟨((((Occurs.refl l).lead _).trail _).trail _).trail _, ((Occurs.refl r).lead _).trail _⟩
  | _ => exact ⟨((Occurs.refl l).trail _).trail _, (Occurs.refl r).lead _⟩

namespace Expr

variable {s : Style} {e x : Expr}

theorem occurs_renderOption {lead : String} {o : Option Expr} {a : String} (he : e ∈ o)
    (h : Occurs a (e.render s)) : Occurs a (renderOption s lead o) := by
  cases he
  exact h.lead lead

theorem occurs_unary {op : UnaryOp} {a : String} (h : Occurs a (e.render s)) :
    Occurs a ((unary op e).render s) := by
  cases op with
  | not => exact (h.parenthesize _).lead _
  | neg =>
    rw [render]
    split
    · exact (h.parenthesize _).lead _
    · exact (h.parenthesize _).lead _

theorem occurs_isNull {negated : Bool} {a : String} (h : Occurs a (e.render s)) :
    Occurs a ((isNull e negated).render s) := by
  rw [render]
  cases negated with
  | false => exact (h.parenthesize _).trail _
  | true => exact (h.parenthesize _).trail _

/-- The two sides of an operator stand in its text, in parentheses or without. -/
theorem occurs_binary (hs : s.KeepsOperands) (op : BinaryOp) (l r : Expr) :
    Occurs (l.render s) ((binary op l r).render s) ∧
      Occurs (r.render s) ((binary op l r).render s) := by
  have hl := (Occurs.refl (l.render s)).parenthesize (l.precedence < op.precedence)
  have hr := (Occurs.refl (r.render s)).parenthesize (r.precedence ≤ op.precedence)
  by_cases hop : op = .concat
  · subst hop
    rw [render]
    exact ⟨hl.trans (hs _ _).1, hr.trans (hs _ _).2⟩
  · rw [render]
    · exact ⟨(((hl.trail _).trail _).trail _).trail _, hr.lead _⟩
    · exact hop

/-- Every part of an expression stands in the text of the whole. -/
theorem occurs_of_mem_nodes (hs : s.KeepsOperands) (e : Expr) :
    ∀ x ∈ e.nodes, Occurs (x.render s) (e.render s) := by
  induction e with
  | literal v => exact forall_nodes_literal.mpr (.refl _)
  | column q n => exact forall_nodes_column.mpr (.refl _)
  | parameter n => exact forall_nodes_parameter.mpr (.refl _)
  | call name args ih =>
    have hcall : (call name args).render s =
        name ++ "(" ++ commaSeparated (args.map (render s)) ++ ")" := by
      rw [render, renderAll_eq_map]
    refine forall_nodes_call.mpr ⟨.refl _, fun e he x hx => ?_⟩
    rw [hcall]
    exact ((Occurs.intercalate ", " (List.mem_map_of_mem he) (ih e he x hx)).lead _).trail _
  | caseWhen operand branches otherwise ho hb he =>
    have hbranch : ∀ b ∈ branches, ∀ a, Occurs a (b.1.render s) ∨ Occurs a (b.2.render s) →
        Occurs a (renderBranches s branches) := by
      intro b hm a ha
      rw [renderBranches_eq_join]
      refine .join (List.mem_map_of_mem hm) ?_
      rcases ha with ha | ha
      · exact ((ha.lead _).trail _).trail _
      · exact ha.lead _
    refine forall_nodes_caseWhen.mpr ⟨.refl _, fun e hm x hx => ?_, fun b hm => ⟨fun x hx => ?_,
      fun x hx => ?_⟩, fun e hm x hx => ?_⟩
    · exact ((((occurs_renderOption hm (ho e hm x hx)).lead _).trail _).trail _).trail _
    · exact (((hbranch b hm _ (.inl ((hb b hm).1 x hx))).lead _).trail _).trail _
    · exact (((hbranch b hm _ (.inr ((hb b hm).2 x hx))).lead _).trail _).trail _
    · exact ((occurs_renderOption hm (he e hm x hx)).lead _).trail _
  | binary op l r hl hr =>
    obtain ⟨hleft, hright⟩ := occurs_binary hs op l r
    exact forall_nodes_binary.mpr
      ⟨.refl _, fun x hx => (hl x hx).trans hleft, fun x hx => (hr x hx).trans hright⟩
  | unary op e ih => exact forall_nodes_unary.mpr ⟨.refl _, fun x hx => occurs_unary (ih x hx)⟩
  | isNull e n ih => exact forall_nodes_isNull.mpr ⟨.refl _, fun x hx => occurs_isNull (ih x hx)⟩

/-- The names of the placeholders, in reading order. -/
def placeholders (e : Expr) : List String :=
  e.nodes.filterMap fun
    | parameter name => some name
    | _ => none

theorem mem_placeholders {n : String} : n ∈ e.placeholders ↔ parameter n ∈ e.nodes := by
  unfold placeholders
  rw [List.mem_filterMap]
  constructor
  · rintro ⟨x, hx, hn⟩
    cases x <;> cases hn
    exact hx
  · intro hx
    exact ⟨_, hx, rfl⟩

theorem occurs_placeholder (hs : s.KeepsOperands) {n : String} (hn : n ∈ e.placeholders) :
    Occurs (":" ++ n) (e.render s) := by
  have hoccurs := occurs_of_mem_nodes hs e (parameter n) (mem_placeholders.mp hn)
  rwa [render] at hoccurs

end Expr

section Statements

variable {s : Style} {e : Expr}

theorem Dml.occurs_assignments {assignments : List (String × Expr)}
    (he : e ∈ assignments.map (·.2)) :
    Occurs (e.render s) (commaSeparated (assignments.map (assignmentText s))) := by
  obtain ⟨a, ha, rfl⟩ := List.mem_map.mp he
  exact .intercalate ", " (List.mem_map_of_mem ha) ((Occurs.refl _).lead _)

theorem Expr.occurs_filter {filter : Option Expr} (he : e ∈ filter.toList) (lead : String) :
    Occurs (e.render s) (Expr.renderOption s lead filter) :=
  occurs_renderOption (Option.mem_toList.mp he) (.refl _)

theorem occurs_commaSeparated {es : List Expr} (he : e ∈ es) :
    Occurs (e.render s) (commaSeparated (es.map (Expr.render s))) :=
  .intercalate ", " (List.mem_map_of_mem he) (.refl _)

theorem Dml.occurs_render {dml : Dml} (he : e ∈ dml.expressions) :
    Occurs (e.render s) (dml.render s) := by
  cases dml with
  | insert table columns values => exact ((occurs_commaSeparated he).lead _).trail _
  | update table assignments filter =>
    rcases List.mem_append.mp he with he | he
    · exact ((Dml.occurs_assignments he).lead _).trail _
    · exact (Expr.occurs_filter he _).lead _
  | delete table filter => exact (Expr.occurs_filter he _).lead _

theorem Select.occurs_render {q : Select} (he : e ∈ q.expressions) :
    Occurs (e.render s) (q.render s) := by
  rcases List.mem_append.mp he with he | he
  · rcases List.mem_append.mp he with he | he
    · exact (((((occurs_commaSeparated he).lead _).trail _).trail _).trail _).trail _
    · obtain ⟨j, hj, rfl⟩ := List.mem_map.mp he
      have hjoin : Occurs (j.on.render s) (joinText s j) := (Occurs.refl _).lead _
      exact ((Occurs.join (List.mem_map_of_mem hj) hjoin).lead _).trail _
  · exact (Expr.occurs_filter he _).lead _

end Statements

namespace Dialect

variable {d : Dialect} {e : Expr}

theorem occurs_viewStatement {v : View} (he : e ∈ v.expressions) :
    Occurs (e.render d.plainStyle) (d.viewStatement v).sql := by
  obtain ⟨q, hq, he⟩ := List.mem_flatMap.mp he
  have hselect : Occurs (e.render d.plainStyle) (q.render d.plainStyle) := Select.occurs_render he
  rcases List.mem_cons.mp hq with rfl | hq
  · exact ((hselect.lead _).trail _).trail _
  · obtain ⟨u, hu, rfl⟩ := List.mem_map.mp hq
    have hunion := hselect.lead ("\n" ++ u.1.text ++ "\n")
    exact ((Occurs.join (List.mem_map_of_mem (f := fun u : UnionKind × Select =>
      "\n" ++ u.1.text ++ "\n" ++ u.2.render d.plainStyle) hu) hunion).lead _).trail _

theorem occurs_rowStatement {dml : Dml} (he : e ∈ dml.expressions) :
    Occurs (e.render (d.style (some d.oldRow) none)) (d.rowStatement dml) :=
  Dml.occurs_render he

theorem occurs_joinedStatement {dml : Dml} (he : e ∈ dml.expressions) :
    ∃ qualifier, Occurs (e.render (d.style (some d.oldRow) qualifier)) (d.joinedStatement dml) := by
  cases dml with
  | insert table columns values =>
    exact ⟨none, (((occurs_commaSeparated he).lead _).trail _).trail _⟩
  | update table assignments filter =>
    refine ⟨some table, ?_⟩
    rcases List.mem_append.mp he with he | he
    · exact ((((((Dml.occurs_assignments he).lead _).trail _).trail _).trail _).trail _).trail _
    · exact (Expr.occurs_filter he _).lead _
  | delete table filter => exact ⟨some table, (Expr.occurs_filter he _).lead _⟩

theorem occurs_triggerBody {a sql : String} {statements : List String} (hsql : sql ∈ statements)
    (h : Occurs a sql) : Occurs a (triggerBody statements) :=
  .join (List.mem_map_of_mem hsql) ((h.lead _).trail _)

/-- The statements of a trigger that tell what it does, each next to one of its actions. -/
def actionStatements (d : Dialect) (t : Table) : List (Statement × Dml) :=
  match d.triggerForm with
  | .singleStatement => (d.createTrigger t).zip t.onDelete
  | _ => (d.createTrigger t).head?.toList.flatMap fun x => t.onDelete.map (Prod.mk x)

variable {t : Table} {x : Statement} {dml : Dml}

theorem mem_createTrigger_of_action (h : (x, dml) ∈ d.actionStatements t) :
    x ∈ d.createTrigger t ∧ dml ∈ t.onDelete := by
  unfold actionStatements at h
  split at h
  · exact List.of_mem_zip h
  · obtain ⟨y, hy, h⟩ := List.mem_flatMap.mp h
    obtain ⟨dml, hdml, heq⟩ := List.mem_map.mp h
    cases heq
    exact ⟨List.mem_of_head? (Option.mem_toList.mp hy), hdml⟩

theorem createTrigger_of_action (h : dml ∈ t.onDelete) :
    d.createTrigger t = d.triggerStatements t := by
  have htrigger : t.hasTrigger = true := by
    cases hactions : t.onDelete with
    | nil =>
      rw [hactions] at h
      cases h
    | cons action actions => rw [Table.hasTrigger, hactions, List.isEmpty_cons, Bool.not_false]
  rw [createTrigger, if_pos htrigger]

/-- The trigger with a single statement for one of the actions. -/
def numberedTrigger (d : Dialect) (t : Table) (n : Nat) (dml : Dml) : Statement :=
  .plain ("CREATE TRIGGER " ++ d.numberedTriggerName t.name n ++ "\nAFTER DELETE ON " ++
    d.quote t.name ++ "\nREFERENCING OLD AS oldrow\nFOR EACH ROW\n" ++ d.rowStatement dml)

theorem getElem?_triggerStatements (hform : d.triggerForm = .singleStatement) (i : Nat) :
    (d.triggerStatements t)[i]? = (t.onDelete[i]?).map (d.numberedTrigger t (1 + i)) := by
  unfold triggerStatements
  rw [hform]
  dsimp only
  rw [List.getElem?_map, List.getElem?_zipIdx, Option.map_map]
  rfl

theorem exists_action (h : dml ∈ t.onDelete) : ∃ x, (x, dml) ∈ d.actionStatements t := by
  unfold actionStatements
  rw [createTrigger_of_action h]
  cases hform : d.triggerForm with
  | singleStatement =>
    obtain ⟨i, hi⟩ := List.mem_iff_getElem?.mp h
    refine ⟨d.numberedTrigger t (1 + i) dml, List.mem_iff_getElem?.mpr ⟨i, ?_⟩⟩
    rw [List.getElem?_zip_eq_some, getElem?_triggerStatements hform, hi]
    exact ⟨rfl, rfl⟩
  | _ =>
    have hhead : ∃ x rest, d.triggerStatements t = x :: rest := by
      unfold triggerStatements
      rw [hform]
      exact ⟨_, _, rfl⟩
    obtain ⟨x, rest, hstatements⟩ := hhead
    rw [hstatements]
    exact ⟨x, List.mem_flatMap.mpr ⟨x, List.mem_singleton_self x, List.mem_map_of_mem h⟩⟩

/-- In every other form the first statement of the trigger holds all actions. -/
theorem head?_of_action (hform : d.triggerForm ≠ .singleStatement)
    (h : (x, dml) ∈ d.actionStatements t) : (d.createTrigger t).head? = some x := by
  unfold actionStatements at h
  split at h
  · contradiction
  · obtain ⟨y, hy, h⟩ := List.mem_flatMap.mp h
    obtain ⟨_, _, heq⟩ := List.mem_map.mp h
    cases heq
    exact Option.mem_toList.mp hy

/-- An action of a trigger is written in the statement next to it, in a style of the dialect. -/
theorem occurs_action (h : (x, dml) ∈ d.actionStatements t) (he : e ∈ dml.expressions) :
    ∃ qualifier, Occurs (e.render (d.style (some d.oldRow) qualifier)) x.sql := by
  obtain ⟨_, hdml⟩ := mem_createTrigger_of_action h
  have hrow : Occurs (e.render (d.style (some d.oldRow) none))
      (triggerBody (t.onDelete.map d.rowStatement)) :=
    occurs_triggerBody (List.mem_map_of_mem hdml) (occurs_rowStatement he)
  by_cases hform : d.triggerForm = .singleStatement
  · rw [actionStatements, createTrigger_of_action hdml, hform] at h
    obtain ⟨i, hi⟩ := List.mem_iff_getElem?.mp h
    obtain ⟨hx, hi⟩ := List.getElem?_zip_eq_some.mp hi
    rw [getElem?_triggerStatements hform, hi, Option.map_some] at hx
    obtain rfl : d.numberedTrigger t (1 + i) dml = x := Option.some.inj hx
    exact ⟨none, (occurs_rowStatement he).lead _⟩
  · have hhead := head?_of_action hform h
    rw [createTrigger_of_action hdml, triggerStatements] at hhead
    dsimp only at hhead
    cases hkind : d.triggerForm with
    | singleStatement => exact absurd hkind hform
    | transactSql insteadOf =>
      obtain ⟨qualifier, hjoined⟩ := occurs_joinedStatement (d := d) he
      rw [hkind] at hhead
      cases hhead
      refine ⟨qualifier, ((occurs_triggerBody ?_ hjoined).lead _).trail _⟩
      exact List.mem_append_left _ (List.mem_cons_of_mem _ (List.mem_map_of_mem hdml))
    | _ =>
      rw [hkind] at hhead
      cases hhead
      exact ⟨none, (hrow.lead _).trail _⟩

theorem isComment_of_action (h : (x, dml) ∈ d.actionStatements t) : x.isComment = false := by
  obtain ⟨hx, hdml⟩ := mem_createTrigger_of_action h
  rw [createTrigger_of_action hdml, triggerStatements] at hx
  dsimp only at hx
  cases hform : d.triggerForm with
  | plPgSql =>
    rw [hform] at hx
    rcases List.mem_pair.mp hx with rfl | rfl <;> rfl
  | singleStatement =>
    rw [hform] at hx
    obtain ⟨_, _, rfl⟩ := List.mem_map.mp hx
    rfl
  | _ =>
    rw [hform] at hx
    cases List.mem_singleton.mp hx
    rfl

/-- The statement, written for the part of the schema, is rendered from the expression. -/
inductive RenderedFrom (d : Dialect) : Part → Statement → Expr → Prop where
  | view {v : View} {e : Expr} (he : e ∈ v.expressions) :
      RenderedFrom d (.view v) (d.viewStatement v) e
  | action {t : Table} {x : Statement} {dml : Dml} {e : Expr} (hx : (x, dml) ∈ d.actionStatements t)
      (he : e ∈ dml.expressions) : RenderedFrom d (.trigger t) x e
  | seed {r : DmlStatement} {e : Expr} (he : e ∈ r.body.expressions) :
      RenderedFrom d (.seed r) (d.changeRows r.body) e

/-- A statement rendered from an expression is run and holds the text of the expression. -/
theorem RenderedFrom.occurs {part : Part} (h : d.RenderedFrom part x e) : x.isComment = false ∧
    ∃ oldRow qualifier, Occurs (e.render (d.style oldRow qualifier)) x.sql := by
  cases h with
  | view he => exact ⟨rfl, none, none, occurs_viewStatement he⟩
  | action hx he => exact ⟨isComment_of_action hx, some d.oldRow, occurs_action hx he⟩
  | seed he => exact ⟨rfl, none, none, Dml.occurs_render he⟩

end Dialect

namespace Schema

/-- The expressions of delete actions and views, which are written in any case. -/
def fixedExpressions (s : Schema) : List Expr :=
  s.tables.flatMap Table.expressions ++ s.views.flatMap View.expressions

/-- The schema without the statements that are templates for a program. -/
def withoutTemplates (s : Schema) : Schema :=
  { s with statements := s.statements.filter fun r => !r.body.hasParameters }

theorem resolve_withoutTemplates {s : Schema} (h : s.resolve = .ok ()) :
    s.withoutTemplates.resolve = .ok () := by
  obtain ⟨htables, hviews, hstatements⟩ := resolve_ok_iff.mp h
  exact resolve_ok_iff.mpr ⟨htables, hviews, fun r hr => hstatements r (List.mem_of_mem_filter hr)⟩

end Schema

namespace Dialect

variable {d : Dialect} {s : Schema} {script : Script} {labelled : List (Part × Statement)}
  {e : Expr}

theorem fullScript_withoutTemplates (h : d.fullScript s = .ok script) :
    d.fullScript s.withoutTemplates = .ok script := by
  rw [fullScript_eq_parts] at h ⊢
  obtain ⟨_, hresolve, h⟩ := bind_ok_iff.mp h
  have hparts : d.parts s.withoutTemplates = d.parts s := by
    unfold parts Schema.withoutTemplates
    rw [List.filter_filter]
    simp only [Bool.and_self]
    rfl
  refine bind_ok_iff.mpr ⟨(), Schema.resolve_withoutTemplates hresolve, ?_⟩
  rw [hparts]
  exact h

theorem mem_labelledScript (h : d.labelledScript s = .ok labelled) {part : Part} {x : Statement} :
    (part, x) ∈ labelled ↔
      part ∈ d.parts s ∧ ∃ own, d.partStatements s part = .ok own ∧ x ∈ own := by
  obtain ⟨_, _, h⟩ := bind_ok_iff.mp h
  exact mem_labelAll h

section Parts

theorem phase_le_of_mem_keyParts {part : Part} (h : part ∈ d.keyParts s) : part.phase ≤ 4 := by
  unfold keyParts at h
  split at h
  · cases h
  · simp only [List.mem_append, List.mem_map, List.mem_flatMap] at h
    rcases h with (⟨t, _, rfl⟩ | ⟨t, _, f, _, rfl⟩) | ⟨t, _, u, _, rfl⟩ <;> simp [Part.phase]

theorem view_mem_parts_iff {v : View} : .view v ∈ d.parts s ↔ v ∈ s.views := by
  have hkeys : .view v ∉ d.keyParts s := fun h =>
    absurd (phase_le_of_mem_keyParts h) (by simp [Part.phase])
  simp [parts, hkeys]

theorem trigger_mem_parts_iff {t : Table} : .trigger t ∈ d.parts s ↔ t ∈ s.tables := by
  have hkeys : .trigger t ∉ d.keyParts s := fun h =>
    absurd (phase_le_of_mem_keyParts h) (by simp [Part.phase])
  simp [parts, hkeys]

theorem seed_mem_parts_iff {r : DmlStatement} :
    .seed r ∈ d.parts s ↔ r ∈ s.statements ∧ r.body.hasParameters = false := by
  have hkeys : .seed r ∉ d.keyParts s := fun h =>
    absurd (phase_le_of_mem_keyParts h) (by simp [Part.phase])
  simp [parts, hkeys]

end Parts

/-- The expressions of delete actions and views all get into the script. -/
theorem exists_renderedFrom (h : d.labelledScript s = .ok labelled) (he : e ∈ s.fixedExpressions) :
    ∃ part x, (part, x) ∈ labelled ∧ d.RenderedFrom part x e := by
  rcases List.mem_append.mp he with he | he
  · obtain ⟨t, ht, he⟩ := List.mem_flatMap.mp he
    obtain ⟨dml, hdml, he⟩ := List.mem_flatMap.mp he
    obtain ⟨x, hx⟩ := exists_action (d := d) hdml
    refine ⟨.trigger t, x, (mem_labelledScript h).mpr ⟨?_, _, rfl, ?_⟩, .action hx he⟩
    · exact trigger_mem_parts_iff.mpr ht
    · exact (mem_createTrigger_of_action hx).1
  · obtain ⟨v, hv, he⟩ := List.mem_flatMap.mp he
    refine ⟨.view v, _, (mem_labelledScript h).mpr ⟨?_, _, rfl, ?_⟩, .view he⟩
    · exact view_mem_parts_iff.mpr hv
    · exact List.mem_append_right _ (List.mem_singleton_self _)

/-- Nothing else with a placeholder does: a seed has none. -/
theorem RenderedFrom.mem_fixedExpressions {part : Part} {x : Statement}
    (h : d.labelledScript s = .ok labelled) (hx : (part, x) ∈ labelled)
    (hfrom : d.RenderedFrom part x e) (hparameters : e.hasParameters = true) :
    e ∈ s.fixedExpressions := by
  have hpart := ((mem_labelledScript h).mp hx).1
  cases hfrom with
  | view he =>
    exact List.mem_append_right _ (List.mem_flatMap.mpr ⟨_, view_mem_parts_iff.mp hpart, he⟩)
  | action haction he =>
    have hdml := (mem_createTrigger_of_action haction).2
    exact List.mem_append_left _ (List.mem_flatMap.mpr
      ⟨_, trigger_mem_parts_iff.mp hpart, List.mem_flatMap.mpr ⟨_, hdml, he⟩⟩)
  | seed he =>
    have hnone := (seed_mem_parts_iff.mp hpart).2
    rw [Dml.hasParameters, List.any_eq_false] at hnone
    exact absurd hparameters (hnone _ he)

end Dialect

/-- What a creation script shows of placeholders. Templates that have any leave no trace. Apart from
them, the script is free of placeholders exactly if no view and no delete action has one; all that
they have stand in statements that are run. -/
theorem script_placeholder_free_iff {d : Dialect} {s : Schema} {script : Script}
    (h : d.fullScript s = .ok script) :
    d.fullScript s.withoutTemplates = .ok script ∧
    ∃ labelled, d.labelledScript s = .ok labelled ∧ labelled.map Prod.snd = script ∧
      (∀ part x e, (part, x) ∈ labelled → d.RenderedFrom part x e → x.isComment = false ∧
        ∃ oldRow qualifier, Occurs (e.render (d.style oldRow qualifier)) x.sql) ∧
      ((∀ part x e, (part, x) ∈ labelled → d.RenderedFrom part x e → e.hasParameters = false) ↔
        ∀ e ∈ s.fixedExpressions, e.hasParameters = false) ∧
      ∀ e ∈ s.fixedExpressions, ∀ n ∈ e.placeholders,
        ∃ x ∈ script, x.isComment = false ∧ Occurs (":" ++ n) x.sql := by
  obtain ⟨labelled, hlabelled, hscript⟩ := Dialect.labelledScript_of_fullScript h
  refine ⟨Dialect.fullScript_withoutTemplates h, labelled, hlabelled, hscript,
    fun _ _ _ _ hfrom => hfrom.occurs, ⟨fun hfree e he => ?_, fun hfree part x e hx hfrom => ?_⟩,
    fun e he n hn => ?_⟩
  · obtain ⟨part, x, hx, hfrom⟩ := Dialect.exists_renderedFrom hlabelled he
    exact hfree part x e hx hfrom
  · by_contra hparameters
    have hparameters : e.hasParameters = true := Bool.not_eq_false _ ▸ hparameters
    have hfixed := hfrom.mem_fixedExpressions hlabelled hx hparameters
    exact Bool.false_ne_true ((hfree e hfixed).symm.trans hparameters)
  · obtain ⟨part, x, hx, hfrom⟩ := Dialect.exists_renderedFrom hlabelled he
    obtain ⟨hrun, oldRow, qualifier, hoccurs⟩ := hfrom.occurs
    refine ⟨x, hscript ▸ List.mem_map_of_mem (f := Prod.snd) hx, hrun, ?_⟩
    exact (Expr.occurs_placeholder (d.style_keepsOperands oldRow qualifier) hn).trans hoccurs

namespace Sample

/-- Loans of books. Reminders up to some fee are forgotten together with their loan. -/
def loan : Table where
  name := "Loan"
  columns := [
    { name := "Id", dataType := .integer, nullable := false },
    { name := "Days", dataType := .integer, nullable := false }]
  primaryKey := ⟨"PK_Loan", ["Id"]⟩
  onDelete := [.delete "Reminder" (some (.binary .and
    (.binary .eq (.column none "Loan") (.column (some "OLD") "Id"))
    (.binary .ltEq (.column none "Fee") (.parameter "fee"))))]

def reminder : Table where
  name := "Reminder"
  columns := [
    { name := "Loan", dataType := .integer, nullable := false },
    { name := "Fee", dataType := .integer, nullable := false }]
  primaryKey := ⟨"PK_Reminder", ["Loan"]⟩

/-- The loans that are out for longer than a number of days. -/
def overdue : View where
  name := "Overdue"
  columns := ["Id"]
  query := ⟨⟨[.column none "Id"], ⟨"Loan", none⟩, [],
    some (.binary .gt (.column none "Days") (.parameter "days"))⟩, []⟩

/-- A library that also has a template to prolong all loans. -/
def lending : Schema where
  tables := [loan, reminder]
  views := [overdue]
  statements := [⟨"Prolong", .update "Loan"
    [("Days", .binary .minus (.column none "Days") (.parameter "more"))] none⟩]

end Sample

/-- The number of days and the fee get into the script of a library, unbound. -/
theorem lending_days_unbound :
    ∃ script labelled, Dialect.postgreSql.fullScript Sample.lending = .ok script ∧
      Dialect.postgreSql.labelledScript Sample.lending = .ok labelled ∧
      (¬ ∀ part x e, (part, x) ∈ labelled → Dialect.postgreSql.RenderedFrom part x e →
        e.hasParameters = false) ∧
      (∃ x ∈ script, x.isComment = false ∧ Occurs ":days" x.sql) ∧
      ∃ x ∈ script, x.isComment = false ∧ Occurs ":fee" x.sql := by
  obtain ⟨script, hscript⟩ : ∃ script, Dialect.postgreSql.fullScript Sample.lending = .ok script :=
    exists_ok_of_isOk (by decide +kernel)
  obtain ⟨_, labelled, hlabelled, _, _, hfree, hfound⟩ := script_placeholder_free_iff hscript
  refine ⟨script, labelled, hscript, hlabelled, fun h => ?_, ?_, ?_⟩
  · exact absurd (hfree.mp h) (by decide)
  · exact hfound (.binary .gt (.column none "Days") (.parameter "days"))
      (by decide +kernel) "days" (by decide)
  · exact hfound _ List.mem_cons_self "fee" (by decide)

end Schemata
