import Schemata.Proofs.ParsedWellFormed
import Schemata.Proofs.SchemaReading

/-! What is read of a printed schema: the schema itself, but for minus signs that come back as the
signs of numbers. -/
namespace Schemata

section Expressions

theorem map_eq_self_iff {α : Type} {f : α → α} {l : List α} :
    l.map f = l ↔ ∀ a ∈ l, f a = a := by
  nth_rewrite 2 [← List.map_id l]
  exact List.map_inj_left

theorem option_map_eq_self_iff {α : Type} {f : α → α} {o : Option α} :
    o.map f = o ↔ ∀ a ∈ o, f a = a := by
  cases o <;> simp

namespace Expr

/-- A minus sign right before an unsigned number. -/
def isSigned : Expr → Bool
  | unary op operand => (signed? op operand).isSome
  | _ => false

theorem foldSigns_eq_self_iff (e : Expr) :
    e.foldSigns = e ↔ ∀ x ∈ e.nodes, x.isSigned = false := by
  induction e with
  | literal value => simp [foldSigns, nodes, isSigned]
  | column qualifier name => simp [foldSigns, nodes, isSigned]
  | parameter name => simp [foldSigns, nodes, isSigned]
  | call name args ih =>
    rw [forall_nodes_call, foldSigns, foldSignsAll_eq_map, call.injEq, map_eq_self_iff]
    simp only [isSigned, true_and]
    exact forall₂_congr ih
  | caseWhen operand branches otherwise ho hb he =>
    rw [forall_nodes_caseWhen, foldSigns, foldSignsOption_eq_map, foldSignsBranches_eq_map,
      foldSignsOption_eq_map, caseWhen.injEq, option_map_eq_self_iff, map_eq_self_iff,
      option_map_eq_self_iff]
    simp only [isSigned, true_and, Prod.ext_iff]
    exact and_congr (forall₂_congr ho) (and_congr
      (forall₂_congr fun b hm => and_congr (hb b hm).1 (hb b hm).2) (forall₂_congr he))
  | binary op left right hl hr =>
    rw [forall_nodes_binary, foldSigns, binary.injEq, hl, hr]
    simp only [isSigned, true_and]
  | unary op operand ih =>
    rw [forall_nodes_unary, foldSigns, ← ih]
    cases h : signed? op operand <;> simp [isSigned, h]
  | isNull operand negated ih =>
    rw [forall_nodes_isNull, foldSigns, isNull.injEq, ih]
    simp only [isSigned, true_and, and_true]

end Expr

end Expressions

section Holders

variable {f : Expr → Expr}

def Table.expressions (t : Table) : List Expr :=
  t.onDelete.flatMap Dml.expressions

def View.expressions (v : View) : List Expr :=
  v.query.selects.flatMap Select.expressions

/-- All expressions of delete actions, views and statement templates. -/
def Schema.expressions (s : Schema) : List Expr :=
  s.tables.flatMap Table.expressions ++ s.views.flatMap View.expressions ++
    s.statements.flatMap (·.body.expressions)

def Artifact.expressions : Artifact → List Expr
  | table t => t.expressions
  | view v => v.expressions
  | statement d => d.body.expressions

theorem Schema.flatMap_artifacts (s : Schema) :
    s.artifacts.flatMap Artifact.expressions = s.expressions := by
  simp [artifacts, expressions, List.flatMap_map, Artifact.expressions]

theorem Dml.mapExpr_eq_self_iff (d : Dml) :
    d.mapExpr f = d ↔ ∀ e ∈ d.expressions, f e = e := by
  cases d with
  | insert table columns values =>
    rw [mapExpr, insert.injEq, map_eq_self_iff]
    simp only [expressions, true_and]
  | update table assignments filter =>
    rw [mapExpr, update.injEq, map_eq_self_iff, option_map_eq_self_iff]
    simp only [expressions, List.forall_mem_append, List.forall_mem_map, Option.mem_toList,
      Option.mem_def, Prod.ext_iff, true_and]
  | delete table filter =>
    rw [mapExpr, delete.injEq, option_map_eq_self_iff]
    simp only [expressions, Option.mem_toList, Option.mem_def, true_and]

theorem Select.mapExpr_eq_self_iff (s : Select) :
    s.mapExpr f = s ↔ ∀ e ∈ s.expressions, f e = e := by
  have hjoin : ∀ j : Join, { j with on := f j.on } = j ↔ f j.on = j.on := by
    rintro ⟨kind, table, on⟩
    simp only [Join.mk.injEq, true_and]
  obtain ⟨items, source, joins, filter⟩ := s
  simp only [mapExpr, mk.injEq, map_eq_self_iff, option_map_eq_self_iff, hjoin, expressions,
    List.forall_mem_append, List.forall_mem_map, Option.mem_toList, Option.mem_def, true_and,
    and_assoc]

theorem DmlStatement.mapExpr_eq_self_iff (d : DmlStatement) :
    d.mapExpr f = d ↔ ∀ e ∈ d.body.expressions, f e = e := by
  obtain ⟨name, body⟩ := d
  simp only [mapExpr, mk.injEq, Dml.mapExpr_eq_self_iff, true_and]

theorem View.mapExpr_eq_self_iff (v : View) :
    v.mapExpr f = v ↔ ∀ e ∈ v.expressions, f e = e := by
  obtain ⟨name, columns, ⟨first, unions⟩, comment, hints⟩ := v
  simp only [mapExpr, Query.mapExpr, mk.injEq, Query.mk.injEq, map_eq_self_iff, true_and,
    and_true, expressions, Query.selects, List.flatMap_cons, List.forall_mem_append,
    List.forall_mem_flatMap, List.forall_mem_map, Select.mapExpr_eq_self_iff, Prod.ext_iff]

theorem Table.mapExpr_eq_self_iff (t : Table) :
    t.mapExpr f = t ↔ ∀ e ∈ t.expressions, f e = e := by
  obtain ⟨name, columns, primaryKey, uniques, indexes, foreignKeys, onDelete, comment, hints⟩ := t
  simp only [mapExpr, mk.injEq, true_and, and_true, map_eq_self_iff, expressions,
    List.forall_mem_flatMap, Dml.mapExpr_eq_self_iff]

theorem Schema.mapExpr_eq_self_iff (s : Schema) :
    s.mapExpr f = s ↔ ∀ e ∈ s.expressions, f e = e := by
  obtain ⟨tables, views, statements⟩ := s
  simp only [mapExpr, mk.injEq, map_eq_self_iff, expressions, List.forall_mem_append,
    List.forall_mem_flatMap, Table.mapExpr_eq_self_iff, View.mapExpr_eq_self_iff,
    DmlStatement.mapExpr_eq_self_iff, and_assoc]

end Holders

section Texts

/-- The first text is the second one or, if `p` holds, a shorter one. A shorter text starts with a
minus sign only if the longer one does. -/
structure Shrinks (a b : String) (p : Prop) : Prop where
  same : ¬ p → a = b
  shorter : p → a.length < b.length
  nonempty : p → a.toList ≠ []
  sign : a.toList.head? = some '-' → b.toList.head? = some '-'

namespace Shrinks

variable {a b c d : String} {p q : Prop}

theorem refl (a : String) : Shrinks a a False :=
  ⟨fun _ => rfl, nofun, nofun, id⟩

theorem congr (h : Shrinks a b p) (hp : p ↔ q) : Shrinks a b q :=
  ⟨fun hq => h.same (mt hp.mp hq), fun hq => h.shorter (hp.mpr hq),
    fun hq => h.nonempty (hp.mpr hq), h.sign⟩

theorem length_le (h : Shrinks a b p) : a.length ≤ b.length := by
  by_cases hp : p
  · exact (h.shorter hp).le
  · rw [h.same hp]

theorem eq_iff (h : Shrinks a b p) : a = b ↔ ¬ p :=
  ⟨fun he hp => absurd (h.shorter hp) (by rw [he]; exact Nat.lt_irrefl _), h.same⟩

theorem append (h : Shrinks a b p) (h' : Shrinks c d q) : Shrinks (a ++ c) (b ++ d) (p ∨ q) where
  same hpq := by
    rw [not_or] at hpq
    rw [h.same hpq.1, h'.same hpq.2]
  shorter hpq := by
    have hle := h.length_le
    have hle' := h'.length_le
    rw [String.length_append, String.length_append]
    rcases hpq with hp | hq
    · have := h.shorter hp
      omega
    · have := h'.shorter hq
      omega
  nonempty hpq := by
    rw [String.toList_append]
    rcases hpq with hp | hq
    · exact List.append_ne_nil_of_left_ne_nil (h.nonempty hp) _
    · exact List.append_ne_nil_of_right_ne_nil _ (h'.nonempty hq)
  sign hc := by
    rw [String.toList_append, List.head?_append] at hc ⊢
    cases ha : a.toList with
    | nil =>
      have hab : a = b := h.same fun hp => h.nonempty hp ha
      rw [ha] at hc
      rw [← hab, ha]
      exact h'.sign hc
    | cons x xs =>
      rw [ha] at hc
      rw [h.sign (ha ▸ hc)]
      rfl

theorem lead (c : String) (h : Shrinks a b p) : Shrinks (c ++ a) (c ++ b) p :=
  ((refl c).append h).congr (iff_of_eq (false_or p))

theorem trail (h : Shrinks a b p) (c : String) : Shrinks (a ++ c) (b ++ c) p :=
  (h.append (refl c)).congr (iff_of_eq (or_false p))

theorem parenthesize (wanted : Bool) (h : Shrinks a b p) :
    Shrinks (parenthesize wanted a) (parenthesize wanted b) p := by
  cases wanted with
  | false => exact h
  | true => exact (h.lead "(").trail ")"

section Lists

variable {α : Type} {l : List α} {f g : α → String} {r : α → Prop}

theorem join (h : ∀ x ∈ l, Shrinks (f x) (g x) (r x)) :
    Shrinks (String.join (l.map f)) (String.join (l.map g)) (∃ x ∈ l, r x) := by
  induction l with
  | nil => exact (refl "").congr (by simp)
  | cons x l ih =>
    rw [List.forall_mem_cons] at h
    rw [List.map_cons, List.map_cons, String.join_cons, String.join_cons]
    exact (h.1.append (ih h.2)).congr (by simp)

theorem intercalate (sep : String) (h : ∀ x ∈ l, Shrinks (f x) (g x) (r x)) :
    Shrinks (sep.intercalate (l.map f)) (sep.intercalate (l.map g)) (∃ x ∈ l, r x) := by
  cases l with
  | nil => exact (refl "").congr (by simp)
  | cons x l =>
    rw [List.forall_mem_cons] at h
    rw [List.map_cons, List.map_cons, intercalate_cons, intercalate_cons, List.map_map,
      List.map_map]
    exact (h.1.append (join fun y hy => (h.2 y hy).lead sep)).congr (by simp)

theorem optional (lead : String) {o : Option α} (h : ∀ x ∈ o, Shrinks (f x) (g x) (r x)) :
    Shrinks (optionalText lead f o) (optionalText lead g o) (∃ x ∈ o, r x) := by
  cases o with
  | none => exact (refl "").congr (by simp)
  | some x => exact ((h x rfl).lead lead).congr (by simp)

end Lists

/-- A minus sign before a text that may start with one. -/
theorem minus (h : Shrinks a b p) :
    Shrinks (if a.toList.head? = some '-' then "- " ++ a else "-" ++ a)
      (if b.toList.head? = some '-' then "- " ++ b else "-" ++ b) p := by
  by_cases ha : a.toList.head? = some '-'
  · rw [if_pos ha, if_pos (h.sign ha)]
    exact h.lead "- "
  · rw [if_neg ha]
    split
    · rename_i hb
      refine ⟨fun hp => absurd (h.same hp ▸ hb) ha, fun _ => ?_, fun _ => ?_, fun _ => ?_⟩
      · have hle := h.length_le
        rw [String.length_append, String.length_append]
        exact Nat.add_lt_add_of_lt_of_le (by decide) hle
      · rw [String.toList_append]
        exact List.cons_ne_nil _ _
      · rw [String.toList_append]
        rfl
    · exact h.lead "-"

end Shrinks

end Texts

section Reprinting

namespace Expr

/-- The one number that loses its sign when it is folded in. -/
def negatedZero : Expr :=
  unary .neg (literal (.integer 0))

theorem seven_le_precedence_literal (value : Literal) : 7 ≤ (literal value).precedence := by
  cases value with
  | integer value =>
    rw [precedence]
    split <;> decide
  | null | decimal _ | string _ => exact Nat.le_succ 7

/-- Folding does not change what needs parentheses. -/
theorem precedence_foldSigns_lt {n : Nat} (h : n ≤ 7) (e : Expr) :
    e.foldSigns.precedence < n ↔ e.precedence < n := by
  cases e with
  | unary op operand =>
    rw [foldSigns]
    cases hsigned : signed? op operand with
    | none => rfl
    | some value =>
      have hneg : (unary op operand).precedence = 7 := by
        rw [(signed_cases hsigned).1]
        rfl
      have hliteral := seven_le_precedence_literal value
      dsimp only
      omega
  | _ => simp only [foldSigns, precedence]

theorem precedence_foldSigns_le {n : Nat} (h : n ≤ 6) (e : Expr) :
    e.foldSigns.precedence ≤ n ↔ e.precedence ≤ n := by
  rw [← Nat.lt_succ_iff, ← Nat.lt_succ_iff]
  exact precedence_foldSigns_lt (Nat.succ_le_succ h) e

theorem render_neg_literal {value : Literal} (h : value.text.toList.head? ≠ some '-') :
    (unary .neg (literal value)).render .schema = "-" ++ value.text := by
  have hwrap : ¬ (literal value).precedence < UnaryOp.neg.precedence :=
    Nat.not_lt.mpr (seven_le_precedence_literal value)
  rw [render, render, decide_eq_false hwrap]
  exact if_neg h

theorem shrinks_signed {op : UnaryOp} {operand : Expr} {value : Literal}
    (h : signed? op operand = some value) :
    Shrinks ((literal value).render .schema) ((unary op operand).render .schema)
      (unary op operand = negatedZero) := by
  obtain ⟨rfl, ⟨n, rfl, rfl⟩ | ⟨digits, hd, rfl, rfl⟩⟩ := signed_cases h
  · have htext : (Literal.integer n).text = toString n :=
      Literal.text_nonnegative (Int.natCast_nonneg n)
    rw [render_neg_literal (htext ▸ toString_head_ne n), htext, render]
    cases n with
    | zero => exact ⟨absurd rfl, fun _ => by decide, fun _ => by decide, fun _ => by decide⟩
    | succ n =>
      have hvalue : (Literal.integer (-(n + 1 : Nat))).text = "-" ++ toString (n + 1) :=
        Literal.text_negative (by omega)
      change Shrinks (Literal.integer (-(n + 1 : Nat))).text _ _
      rw [hvalue]
      refine (Shrinks.refl _).congr ⟨False.elim, fun hzero => ?_⟩
      cases hzero
  · have htext : (Literal.decimal digits).text.toList.head? ≠ some '-' := hd
    rw [render_neg_literal htext, render]
    refine (Shrinks.refl _).congr ⟨False.elim, fun hzero => ?_⟩
    cases hzero

theorem renderBranches_eq_join (s : Style) (bs : List (Expr × Expr)) : renderBranches s bs =
    String.join (bs.map fun b => " WHEN " ++ render s b.1 ++ " THEN " ++ render s b.2) := by
  induction bs with
  | nil => rfl
  | cons b bs ih => rw [renderBranches, ih, List.map_cons, String.join_cons]

theorem shrinks_foldSigns (e : Expr) :
    Shrinks (e.foldSigns.render .schema) (e.render .schema) (negatedZero ∈ e.nodes) := by
  induction e with
  | literal value => exact (Shrinks.refl _).congr (by simp [nodes, negatedZero])
  | column qualifier name => exact (Shrinks.refl _).congr (by simp [nodes, negatedZero])
  | parameter name => exact (Shrinks.refl _).congr (by simp [nodes, negatedZero])
  | call name args ih =>
    rw [foldSigns, foldSignsAll_eq_map, render, render, renderAll_eq_map, renderAll_eq_map,
      List.map_map]
    refine (((Shrinks.intercalate ", " ih).lead _).trail ")").congr ?_
    simp [nodes, mem_nodesAll, negatedZero]
  | caseWhen operand branches otherwise ho hb he =>
    have hbranches : ∀ b ∈ branches, Shrinks
        (" WHEN " ++ b.1.foldSigns.render .schema ++ " THEN " ++ b.2.foldSigns.render .schema)
        (" WHEN " ++ b.1.render .schema ++ " THEN " ++ b.2.render .schema)
        (negatedZero ∈ b.1.nodes ∨ negatedZero ∈ b.2.nodes) := fun b hm =>
      (((hb b hm).1.lead _).trail _).append (hb b hm).2
    have hmap : ∀ lead (o : Option Expr), optionalText lead (render .schema) (o.map foldSigns) =
        optionalText lead (fun e => e.foldSigns.render .schema) o := by
      intro lead o
      cases o <;> rfl
    simp only [foldSigns, render, foldSignsOption_eq_map, foldSignsBranches_eq_map,
      renderOption_eq, renderBranches_eq_join, List.map_map, hmap]
    refine (((((Shrinks.optional " " ho).lead "CASE").append (.join hbranches)).append
      (.optional " ELSE " he)).trail " END").congr ?_
    simp [nodes, mem_nodesOption, mem_nodesBranches, negatedZero, or_assoc]
  | binary op left right hl hr =>
    have hlevel : op.precedence ≤ 6 := by cases op <;> decide
    have hleft : decide (left.foldSigns.precedence < op.precedence) =
        decide (left.precedence < op.precedence) :=
      decide_eq_decide.mpr (precedence_foldSigns_lt (Nat.le_succ_of_le hlevel) left)
    have hright : decide (right.foldSigns.precedence ≤ op.precedence) =
        decide (right.precedence ≤ op.precedence) :=
      decide_eq_decide.mpr (precedence_foldSigns_le hlevel right)
    have hmem : negatedZero ∈ left.nodes ∨ negatedZero ∈ right.nodes ↔
        negatedZero ∈ (binary op left right).nodes := by
      simp [nodes, negatedZero]
    by_cases hop : op = .concat
    · subst hop
      rw [foldSigns, render, render, hleft, hright]
      exact (((hl.parenthesize _).trail _).append (hr.parenthesize _)).congr hmem
    · rw [foldSigns, render, render, hleft, hright]
      · exact (((((hl.parenthesize _).trail _).trail _).trail _).append
          (hr.parenthesize _)).congr hmem
      · exact hop
      · exact hop
  | unary op operand ih =>
    rw [foldSigns]
    cases hsigned : signed? op operand with
    | some value =>
      refine (shrinks_signed hsigned).congr ?_
      rw [nodes, List.mem_cons, eq_comm, or_iff_left]
      obtain ⟨-, ⟨n, rfl, -⟩ | ⟨digits, -, rfl, -⟩⟩ := signed_cases hsigned <;>
        simp [nodes, negatedZero]
    | none =>
      have hwrap : decide (operand.foldSigns.precedence < op.precedence) =
          decide (operand.precedence < op.precedence) :=
        decide_eq_decide.mpr (precedence_foldSigns_lt (by cases op <;> decide) operand)
      have hmem : negatedZero ∈ operand.nodes ↔ negatedZero ∈ (unary op operand).nodes := by
        rw [nodes, List.mem_cons, or_iff_right]
        intro hzero
        cases hzero
        cases hsigned
      cases op with
      | not =>
        rw [render, render, hwrap]
        exact ((ih.parenthesize _).lead "NOT ").congr hmem
      | neg =>
        rw [render, render, hwrap]
        exact (ih.parenthesize _).minus.congr hmem
  | isNull operand negated ih =>
    have hwrap : decide (operand.foldSigns.precedence ≤ 4) = decide (operand.precedence ≤ 4) :=
      decide_eq_decide.mpr (precedence_foldSigns_le (by decide) operand)
    have hmem : negatedZero ∈ operand.nodes ↔ negatedZero ∈ (isNull operand negated).nodes := by
      simp [nodes, negatedZero]
    rw [foldSigns, render, render, hwrap]
    cases negated with
    | false => exact ((ih.parenthesize _).trail _).congr hmem
    | true => exact ((ih.parenthesize _).trail _).congr hmem

end Expr

section Printers

variable {f : Expr → Expr} {r : Expr → Prop}
  (hf : ∀ e, Shrinks ((f e).render .schema) (e.render .schema) (r e))

include hf

theorem shrinks_filter (filter : Option Expr) :
    Shrinks (Expr.renderOption .schema " WHERE " (filter.map f))
      (Expr.renderOption .schema " WHERE " filter) (∃ e ∈ filter, r e) := by
  cases filter with
  | none => exact (Shrinks.refl "").congr (by simp)
  | some e => exact ((hf e).lead _).congr (by simp)

theorem shrinks_items (items : List Expr) :
    Shrinks (commaSeparated ((items.map f).map (Expr.render .schema)))
      (commaSeparated (items.map (Expr.render .schema))) (∃ e ∈ items, r e) := by
  rw [List.map_map]
  exact .intercalate ", " fun e _ => hf e

theorem shrinks_dml (d : Dml) :
    Shrinks ((d.mapExpr f).render .schema) (d.render .schema) (∃ e ∈ d.expressions, r e) := by
  cases d with
  | insert table columns values => exact ((shrinks_items hf values).lead _).trail _
  | update table assignments filter =>
    have hassignments : Shrinks
        (commaSeparated ((assignments.map fun a => (a.1, f a.2)).map (Dml.assignmentText .schema)))
        (commaSeparated (assignments.map (Dml.assignmentText .schema)))
        (∃ a ∈ assignments, r a.2) := by
      rw [List.map_map]
      exact .intercalate ", " fun a _ => (hf a.2).lead _
    refine ((hassignments.lead _).append (shrinks_filter hf filter)).congr ?_
    simp only [Dml.expressions, List.mem_append, or_and_right, exists_or, List.mem_map,
      exists_exists_and_eq_and, Option.mem_toList, Option.mem_def]
  | delete table filter =>
    refine ((shrinks_filter hf filter).lead _).congr ?_
    simp [Dml.expressions]

theorem shrinks_select (s : Select) :
    Shrinks ((s.mapExpr f).render .schema) (s.render .schema) (∃ e ∈ s.expressions, r e) := by
  have hjoins : Shrinks
      (String.join ((s.joins.map fun j => { j with on := f j.on }).map (Select.joinText .schema)))
      (String.join (s.joins.map (Select.joinText .schema))) (∃ j ∈ s.joins, r j.on) := by
    rw [List.map_map]
    exact .join fun j _ => (hf j.on).lead _
  refine ((((((shrinks_items hf s.items).lead _).trail _).trail _).append hjoins).append
    (shrinks_filter hf s.filter)).congr ?_
  simp only [Select.expressions, List.mem_append, or_and_right, exists_or, List.mem_map,
    exists_exists_and_eq_and, Option.mem_toList, Option.mem_def]

omit hf in
theorem exists_mem_flatMap {α : Type} {l : List α} {g : α → List Expr} :
    (∃ a ∈ l, ∃ e ∈ g a, r e) ↔ ∃ e ∈ l.flatMap g, r e := by
  constructor
  · rintro ⟨a, ha, e, he, hr⟩
    exact ⟨e, List.mem_flatMap.mpr ⟨a, ha, he⟩, hr⟩
  · rintro ⟨e, he, hr⟩
    obtain ⟨a, ha, he⟩ := List.mem_flatMap.mp he
    exact ⟨a, ha, e, he, hr⟩

theorem shrinks_table (t : Table) :
    Shrinks (t.mapExpr f).print t.print (∃ e ∈ t.expressions, r e) := by
  have hstatements : Shrinks
      (String.join ((t.onDelete.map (Dml.mapExpr f)).map fun dml =>
        "    " ++ dml.render .schema ++ ";\n"))
      (String.join (t.onDelete.map fun dml => "    " ++ dml.render .schema ++ ";\n"))
      (∃ d ∈ t.onDelete, ∃ e ∈ d.expressions, r e) := by
    rw [List.map_map]
    exact .join fun d _ => ((shrinks_dml hf d).lead _).trail _
  have htrigger : Shrinks (t.mapExpr f).printedTrigger t.printedTrigger
      (∃ e ∈ t.expressions, r e) := by
    unfold Table.printedTrigger Table.mapExpr
    dsimp only
    rw [List.isEmpty_map]
    split
    · rename_i hempty
      refine (Shrinks.refl "").congr ?_
      rw [Table.expressions, List.isEmpty_iff.mp hempty]
      simp
    · exact ((hstatements.lead _).trail _).congr exists_mem_flatMap
  exact ((htrigger.lead _).trail _).trail _

theorem shrinks_view (v : View) :
    Shrinks (v.mapExpr f).print v.print (∃ e ∈ v.expressions, r e) := by
  have hunions : Shrinks
      (String.join ((v.query.unions.map fun u => (u.1, u.2.mapExpr f)).map fun u =>
        "\n    " ++ u.1.text ++ "\n    " ++ u.2.render .schema))
      (String.join (v.query.unions.map fun u =>
        "\n    " ++ u.1.text ++ "\n    " ++ u.2.render .schema))
      (∃ u ∈ v.query.unions, ∃ e ∈ u.2.expressions, r e) := by
    rw [List.map_map]
    exact .join fun u _ => (shrinks_select hf u.2).lead _
  refine ((((((shrinks_select hf v.query.first).lead _).append hunions).trail _).trail _).trail
    _).congr ?_
  rw [View.expressions, ← exists_mem_flatMap, Query.selects]
  simp only [List.mem_cons, or_and_right, exists_or, exists_eq_left, List.mem_map,
    exists_exists_and_eq_and]

theorem shrinks_artifact (a : Artifact) :
    Shrinks (a.mapExpr f).print a.print (∃ e ∈ a.expressions, r e) := by
  cases a with
  | table t => exact shrinks_table hf t
  | view v => exact shrinks_view hf v
  | statement d => exact ((shrinks_dml hf d.body).lead _).trail _

theorem shrinks_schema (s : Schema) :
    Shrinks (s.mapExpr f).print s.print (∃ e ∈ s.expressions, r e) := by
  rw [Schema.print_eq_intercalate, Schema.print_eq_intercalate, ← Schema.artifacts_mapExpr,
    List.map_map, ← Schema.flatMap_artifacts]
  exact (Shrinks.intercalate "\n" fun a _ => shrinks_artifact hf a).congr exists_mem_flatMap

end Printers

end Reprinting

/-- Whatever was read is read again from its print. Nothing changes but that minus signs right
before unsigned numbers have become the signs of these. -/
theorem parse_print {source : String} {s : Schema} (h : Schema.parse source = .ok s) :
    Schema.parse s.print = .ok s.foldSigns :=
  parse_print_wellFormed (wellFormed_of_parse h)

def ordersText : String :=
  "CREATE TABLE \"Order\" (\"Key\" INTEGER PRIMARY KEY, Note VARCHAR(40) DEFAULT 'it''s')
ON DELETE (UPDATE Log SET Delta = -(-(5)) WHERE Note = '''');"

def orders : Schema where
  tables := [{
    name := "Order"
    columns := [
      { name := "Key", dataType := .integer, nullable := false },
      { name := "Note", dataType := .varchar 40, default := some (.literal (.string "it's")) }]
    primaryKey := ⟨"PK_Order", ["Key"]⟩
    onDelete := [.update "Log" [("Delta", .unary .neg (.unary .neg (.literal (.integer 5))))]
      (some (.binary .eq (.column none "Note") (.literal (.string "'"))))] }]
  views := []
  statements := []

theorem orders_come_back : Schema.parse ordersText = .ok orders ∧
    Schema.parse orders.print = .ok orders.foldSigns ∧ orders.foldSigns ≠ orders := by
  have hparse : Schema.parse ordersText = .ok orders := by decide +kernel
  exact ⟨hparse, parse_print hparse, by decide +kernel⟩

/-- The print is read as the very same schema exactly where no minus sign stands right before an
unsigned number, and it is printed the same again exactly where none stands before a zero. -/
theorem parse_print_exact_iff {source : String} {s : Schema} (h : Schema.parse source = .ok s) :
    (Schema.parse s.print = .ok s ↔ ∀ e ∈ s.expressions, ∀ x ∈ e.nodes, x.isSigned = false) ∧
      ((Schema.parse s.print).map Schema.print = .ok s.print ↔
        ∀ e ∈ s.expressions, Expr.negatedZero ∉ e.nodes) := by
  rw [parse_print_wellFormed (wellFormed_of_parse h)]
  constructor
  · rw [Except.ok.injEq, Schema.foldSigns, Schema.mapExpr_eq_self_iff]
    exact forall₂_congr fun e _ => e.foldSigns_eq_self_iff
  · rw [Except.map, Except.ok.injEq, Schema.foldSigns,
      (shrinks_schema Expr.shrinks_foldSigns s).eq_iff]
    simp only [not_exists, not_and]

def balances : Schema where
  tables := []
  views := []
  statements := [⟨"Purge", .delete "Entry"
    (some (.binary .eq (.column none "Balance") Expr.negatedZero))⟩]

/-- A minus sign before a zero is lost to a reader, and then to the printer. -/
theorem negated_zero_lost :
    Schema.parse "CREATE STATEMENT Purge AS DELETE FROM Entry WHERE Balance = -(0);" =
        .ok balances ∧
      Schema.parse balances.print ≠ .ok balances ∧
      (Schema.parse balances.print).map Schema.print ≠ .ok balances.print := by
  have hparse : Schema.parse "CREATE STATEMENT Purge AS DELETE FROM Entry WHERE Balance = -(0);" =
      .ok balances := by
    decide +kernel
  have hfilter : Expr.binary .eq (.column none "Balance") Expr.negatedZero ∈
      balances.expressions :=
    List.mem_singleton.mpr rfl
  have hzero : Expr.negatedZero ∈
      (Expr.binary .eq (.column none "Balance") Expr.negatedZero).nodes := by
    simp [Expr.nodes, Expr.negatedZero]
  obtain ⟨hsame, hprint⟩ := parse_print_exact_iff hparse
  refine ⟨hparse, fun h => ?_, fun h => hprint.mp h _ hfilter hzero⟩
  exact Bool.noConfusion (hsame.mp h _ hfilter _ hzero)

end Schemata
