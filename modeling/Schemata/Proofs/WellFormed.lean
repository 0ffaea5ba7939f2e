import Schemata.Proofs.Built
import Schemata.Proofs.Lexing

/-! Well-formed schemas: those whose names, numbers, types and hints the schema language can write
down, and that pass the builders' checks. -/
namespace Schemata

/-- A whole number has sixty-four bits; a decimal has digits on both sides of its dot. -/
def Literal.WellFormed : Literal → Prop
  | null | string _ => True
  | integer value => -0x8000000000000000 ≤ value ∧ value < 0x8000000000000000
  | decimal text =>
    ∃ digits : String, IsDecimal digits.toList ∧ (text = digits ∨ text = "-" ++ digits)

namespace Expr

/-- Induction on expressions that treats the parts of calls and cases as members of lists. -/
@[elab_as_elim, induction_eliminator]
theorem induct {motive : Expr → Prop} (literal : ∀ value, motive (.literal value))
    (column : ∀ qualifier name, motive (.column qualifier name))
    (parameter : ∀ name, motive (.parameter name))
    (call : ∀ name args, (∀ e ∈ args, motive e) → motive (.call name args))
    (caseWhen : ∀ operand branches otherwise, (∀ e ∈ operand, motive e) →
      (∀ b ∈ branches, motive b.1 ∧ motive b.2) → (∀ e ∈ otherwise, motive e) →
      motive (.caseWhen operand branches otherwise))
    (binary : ∀ op left right, motive left → motive right → motive (.binary op left right))
    (unary : ∀ op operand, motive operand → motive (.unary op operand))
    (isNull : ∀ operand negated, motive operand → motive (.isNull operand negated)) (e : Expr) :
    motive e :=
  @Expr.rec motive (fun es => ∀ e ∈ es, motive e) (fun o => ∀ e ∈ o, motive e)
    (fun bs => ∀ b ∈ bs, motive b.1 ∧ motive b.2) (fun b => motive b.1 ∧ motive b.2)
    literal column parameter call caseWhen binary unary isNull
    (fun _ h => nomatch h) (fun _ _ he hes => List.forall_mem_cons.mpr ⟨he, hes⟩)
    (fun _ h => nomatch h) (fun _ he _ h => Option.mem_some_iff.mp h ▸ he)
    (fun _ h => nomatch h) (fun _ _ hb hbs => List.forall_mem_cons.mpr ⟨hb, hbs⟩)
    (fun _ _ ha hb => ⟨ha, hb⟩) e

section Nodes

theorem mem_nodesAll {x : Expr} {es : List Expr} : x ∈ nodesAll es ↔ ∃ e ∈ es, x ∈ e.nodes := by
  induction es with
  | nil => simp [nodesAll]
  | cons e es ih => simp [nodesAll, ih]

theorem mem_nodesOption {x : Expr} {o : Option Expr} :
    x ∈ nodesOption o ↔ ∃ e ∈ o, x ∈ e.nodes := by
  cases o <;> simp [nodesOption]

theorem mem_nodesBranches {x : Expr} {bs : List (Expr × Expr)} :
    x ∈ nodesBranches bs ↔ ∃ b ∈ bs, x ∈ b.1.nodes ∨ x ∈ b.2.nodes := by
  induction bs with
  | nil => simp [nodesBranches]
  | cons b bs ih => simp [nodesBranches, ih, or_assoc]

variable {P : Expr → Prop}

theorem forall_nodes_literal {v : Literal} :
    (∀ x ∈ (literal v).nodes, P x) ↔ P (literal v) :=
  List.forall_mem_singleton

theorem forall_nodes_column {q : Option String} {n : String} :
    (∀ x ∈ (column q n).nodes, P x) ↔ P (column q n) :=
  List.forall_mem_singleton

theorem forall_nodes_parameter {n : String} :
    (∀ x ∈ (parameter n).nodes, P x) ↔ P (parameter n) :=
  List.forall_mem_singleton

theorem forall_nodes_call {n : String} {args : List Expr} :
    (∀ x ∈ (call n args).nodes, P x) ↔ P (call n args) ∧ ∀ e ∈ args, ∀ x ∈ e.nodes, P x := by
  simp only [nodes, List.forall_mem_cons, mem_nodesAll]
  exact and_congr_right fun _ =>
    ⟨fun h e he x hx => h x ⟨e, he, hx⟩, fun h x ⟨e, he, hx⟩ => h e he x hx⟩

theorem forall_nodes_caseWhen {o : Option Expr} {bs : List (Expr × Expr)} {e : Option Expr} :
    (∀ x ∈ (caseWhen o bs e).nodes, P x) ↔ P (caseWhen o bs e) ∧
      (∀ y ∈ o, ∀ x ∈ y.nodes, P x) ∧
      (∀ b ∈ bs, (∀ x ∈ b.1.nodes, P x) ∧ ∀ x ∈ b.2.nodes, P x) ∧
      ∀ y ∈ e, ∀ x ∈ y.nodes, P x := by
  simp only [nodes, List.forall_mem_cons, List.mem_append, mem_nodesOption, mem_nodesBranches]
  refine and_congr_right fun _ => ⟨fun h => ⟨?_, ?_, ?_⟩, fun ⟨ho, hb, he⟩ x hx => ?_⟩
  · exact fun y hy x hx => h x (Or.inl (Or.inl ⟨y, hy, hx⟩))
  · exact fun b hb => ⟨fun x hx => h x (Or.inl (Or.inr ⟨b, hb, Or.inl hx⟩)),
      fun x hx => h x (Or.inl (Or.inr ⟨b, hb, Or.inr hx⟩))⟩
  · exact fun y hy x hx => h x (Or.inr ⟨y, hy, hx⟩)
  · rcases hx with (⟨y, hy, hx⟩ | ⟨b, hm, hx | hx⟩) | ⟨y, hy, hx⟩
    · exact ho y hy x hx
    · exact (hb b hm).1 x hx
    · exact (hb b hm).2 x hx
    · exact he y hy x hx

theorem forall_nodes_binary {op : BinaryOp} {l r : Expr} :
    (∀ x ∈ (binary op l r).nodes, P x) ↔
      P (binary op l r) ∧ (∀ x ∈ l.nodes, P x) ∧ ∀ x ∈ r.nodes, P x := by
  rw [← List.forall_mem_append]
  exact List.forall_mem_cons

theorem forall_nodes_unary {op : UnaryOp} {e : Expr} :
    (∀ x ∈ (unary op e).nodes, P x) ↔ P (unary op e) ∧ ∀ x ∈ e.nodes, P x :=
  List.forall_mem_cons

theorem forall_nodes_isNull {e : Expr} {n : Bool} :
    (∀ x ∈ (isNull e n).nodes, P x) ↔ P (isNull e n) ∧ ∀ x ∈ e.nodes, P x :=
  List.forall_mem_cons

end Nodes

/-- What the language asks of a single node. A quoted name makes a column, never a call. -/
def Proper : Expr → Prop
  | literal value => value.WellFormed
  | column qualifier name => (∀ q ∈ qualifier, isIdentifier q = true) ∧ isIdentifier name = true
  | parameter name => isIdentifier name = true
  | call name _ => (Token.name name).Valid
  | caseWhen _ branches _ => branches ≠ []
  | binary _ _ _ | unary _ _ | isNull _ _ => True

def WellFormed (e : Expr) : Prop :=
  ∀ x ∈ e.nodes, x.Proper

@[simp] theorem wellFormed_literal {v : Literal} : (literal v).WellFormed ↔ v.WellFormed :=
  forall_nodes_literal

@[simp] theorem wellFormed_column {q : Option String} {n : String} : (column q n).WellFormed ↔
    (∀ word ∈ q, isIdentifier word = true) ∧ isIdentifier n = true :=
  forall_nodes_column

@[simp] theorem wellFormed_parameter {n : String} :
    (parameter n).WellFormed ↔ isIdentifier n = true :=
  forall_nodes_parameter

@[simp] theorem wellFormed_call {n : String} {args : List Expr} : (call n args).WellFormed ↔
    (Token.name n).Valid ∧ ∀ e ∈ args, e.WellFormed :=
  forall_nodes_call

@[simp] theorem wellFormed_caseWhen {o : Option Expr} {bs : List (Expr × Expr)}
    {e : Option Expr} : (caseWhen o bs e).WellFormed ↔ bs ≠ [] ∧ (∀ x ∈ o, x.WellFormed) ∧
      (∀ b ∈ bs, b.1.WellFormed ∧ b.2.WellFormed) ∧ ∀ x ∈ e, x.WellFormed :=
  forall_nodes_caseWhen

@[simp] theorem wellFormed_binary {op : BinaryOp} {l r : Expr} :
    (binary op l r).WellFormed ↔ l.WellFormed ∧ r.WellFormed :=
  forall_nodes_binary.trans (iff_of_eq (true_and _))

@[simp] theorem wellFormed_unary {op : UnaryOp} {e : Expr} :
    (unary op e).WellFormed ↔ e.WellFormed :=
  forall_nodes_unary.trans (iff_of_eq (true_and _))

@[simp] theorem wellFormed_isNull {e : Expr} {n : Bool} :
    (isNull e n).WellFormed ↔ e.WellFormed :=
  forall_nodes_isNull.trans (iff_of_eq (true_and _))

end Expr

/-- Names are identifiers, lists are not empty, and an insert has a value for each column. -/
structure Dml.WellFormed (d : Dml) : Prop where
  table : isIdentifier d.table = true
  columns : ∀ c ∈ d.targetColumns, isIdentifier c = true
  expressions : ∀ e ∈ d.expressions, e.WellFormed
  shape : match d with
    | .insert _ columns values => columns ≠ [] ∧ columns.length = values.length
    | .update _ assignments _ => assignments ≠ []
    | .delete _ _ => True

structure DmlStatement.WellFormed (d : DmlStatement) : Prop where
  name : isIdentifier d.name = true
  body : d.body.WellFormed

structure TableRef.WellFormed (t : TableRef) : Prop where
  table : isIdentifier t.table = true
  otherName : ∀ n ∈ t.otherName, isIdentifier n = true

structure Select.WellFormed (s : Select) : Prop where
  items : s.items ≠ []
  tables : ∀ t ∈ s.tables, t.WellFormed
  expressions : ∀ e ∈ s.expressions, e.WellFormed

/-- Every hint may stand on the target. -/
def Hints.AllowedOn (hints : Hints) (target : HintTarget) : Prop :=
  ∀ entry ∈ hints, entry.hint.key.allowedOn target = true

structure View.WellFormed (v : View) : Prop where
  valid : v.Valid
  selects : ∀ s ∈ v.query.selects, s.WellFormed
  hints : v.hints.AllowedOn .view

/-- Sizes fit in thirty-two bits, a scale does not exceed its precision, and a length is
positive. -/
def DataType.WellFormed : DataType → Prop
  | decimal precision scale => precision < 0x100000000 ∧ scale ≤ precision
  | number (some precision) scale => precision < 0x100000000 ∧ scale.getD 0 ≤ precision
  | number none scale => scale = none
  | char length | varchar length => 0 < length ∧ length < 0x100000000
  | _ => True

def DefaultValue.WellFormed : DefaultValue → Prop
  | literal value => value.WellFormed
  | currentTimestamp => True

structure Reference.WellFormed (r : Reference) : Prop where
  table : isIdentifier r.table = true
  column : isIdentifier r.column = true

structure Column.WellFormed (c : Column) : Prop where
  name : isIdentifier c.name = true
  dataType : c.dataType.WellFormed
  default : ∀ d ∈ c.default, d.WellFormed
  reference : ∀ r ∈ c.reference, r.WellFormed
  hints : c.hints.AllowedOn .column

structure Table.WellFormed (t : Table) : Prop where
  valid : t.Valid
  columns : ∀ c ∈ t.columns, c.WellFormed
  indexes : ∀ i ∈ t.indexes, i.hints.AllowedOn .index
  declared : ∀ f ∈ t.declaredForeignKeys, f.reference.WellFormed
  onDelete : ∀ d ∈ t.onDelete, d.WellFormed
  hints : t.hints.AllowedOn .table

/-- The columns of a well-formed table go by identifiers, and so do all that its keys list. -/
theorem Table.WellFormed.listed {t : Table} (h : t.WellFormed) {columns : List String}
    (hl : t.Lists columns) : ∀ c ∈ columns, isIdentifier c = true := by
  intro c hc
  obtain ⟨column, hcolumn, rfl⟩ := List.mem_map.mp (hl.2 c hc)
  exact (h.columns column hcolumn).name

structure Schema.PartsWellFormed (s : Schema) : Prop where
  tables : ∀ t ∈ s.tables, t.WellFormed
  views : ∀ v ∈ s.views, v.WellFormed
  statements : ∀ d ∈ s.statements, d.WellFormed

structure Schema.WellFormed (s : Schema) : Prop extends s.PartsWellFormed where
  build : s.build = .ok s

end Schemata
