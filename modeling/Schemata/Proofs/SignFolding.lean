import Schemata.Proofs.WellFormed

/-! Minus signs folded into numbers. A minus sign right before an unsigned number is the sign of
that number to a reader, so the two ways to write a negative number come out as one. -/
namespace Schemata

/-- The number with a minus sign, for a number that has none. -/
def Literal.negated? : Literal → Option Literal
  | integer value => if 0 ≤ value then some (integer (-value)) else none
  | decimal digits =>
    if digits.toList.head? = some '-' then none else some (decimal ("-" ++ digits))
  | null | string _ => none

namespace Expr

/-- The literal that the operator and its operand amount to, if the operand is an unsigned number
and the operator a minus sign. -/
def signed? : UnaryOp → Expr → Option Literal
  | .neg, literal value => value.negated?
  | _, _ => none

mutual

/-- Every minus sign that stands right before an unsigned number is folded into it. -/
def foldSigns : Expr → Expr
  | literal value => literal value
  | column qualifier name => column qualifier name
  | parameter name => parameter name
  | call name args => call name (foldSignsAll args)
  | caseWhen operand branches otherwise =>
    caseWhen (foldSignsOption operand) (foldSignsBranches branches) (foldSignsOption otherwise)
  | binary op left right => binary op (foldSigns left) (foldSigns right)
  | unary op operand =>
    match signed? op operand with
    | some value => literal value
    | none => unary op (foldSigns operand)
  | isNull operand negated => isNull (foldSigns operand) negated

def foldSignsAll : List Expr → List Expr
  | [] => []
  | e :: es => foldSigns e :: foldSignsAll es

def foldSignsOption : Option Expr → Option Expr
  | none => none
  | some e => some (foldSigns e)

def foldSignsBranches : List (Expr × Expr) → List (Expr × Expr)
  | [] => []
  | (a, b) :: rest => (foldSigns a, foldSigns b) :: foldSignsBranches rest

end

theorem foldSignsAll_eq_map (es : List Expr) : foldSignsAll es = es.map foldSigns := by
  induction es with
  | nil => rfl
  | cons e es ih => rw [foldSignsAll, ih, List.map_cons]

theorem foldSignsOption_eq_map (o : Option Expr) : foldSignsOption o = o.map foldSigns := by
  cases o <;> rfl

theorem foldSignsBranches_eq_map (bs : List (Expr × Expr)) :
    foldSignsBranches bs = bs.map fun b => (b.1.foldSigns, b.2.foldSigns) := by
  induction bs with
  | nil => rfl
  | cons b bs ih => rw [foldSignsBranches, ih, List.map_cons]

/-- Only a minus sign and an unsigned number amount to a literal. -/
theorem signed_cases {op : UnaryOp} {operand : Expr} {value : Literal}
    (h : signed? op operand = some value) : op = .neg ∧
      ((∃ n : Nat, operand = literal (.integer n) ∧ value = .integer (-n)) ∨
        ∃ digits : String, digits.toList.head? ≠ some '-' ∧ operand = literal (.decimal digits) ∧
          value = .decimal ("-" ++ digits)) := by
  unfold signed? at h
  split at h
  · rename_i number
    refine ⟨rfl, ?_⟩
    unfold Literal.negated? at h
    split at h
    · split at h
      · rename_i n hn
        cases h
        obtain ⟨k, rfl⟩ := Int.eq_ofNat_of_zero_le hn
        exact Or.inl ⟨k, rfl, rfl⟩
      · cases h
    · split at h
      · cases h
      · rename_i digits hd
        cases h
        exact Or.inr ⟨digits, hd, rfl, rfl⟩
    · cases h
    · cases h
  · cases h

end Expr

section MapExpr

variable (f : Expr → Expr)

/-- The statement with each of its expressions changed. -/
def Dml.mapExpr : Dml → Dml
  | insert table columns values => insert table columns (values.map f)
  | update table assignments filter =>
    update table (assignments.map fun a => (a.1, f a.2)) (filter.map f)
  | delete table filter => delete table (filter.map f)

def DmlStatement.mapExpr (d : DmlStatement) : DmlStatement :=
  { d with body := d.body.mapExpr f }

def Select.mapExpr (s : Select) : Select where
  items := s.items.map f
  source := s.source
  joins := s.joins.map fun j => { j with on := f j.on }
  filter := s.filter.map f

def Query.mapExpr (q : Query) : Query where
  first := q.first.mapExpr f
  unions := q.unions.map fun u => (u.1, u.2.mapExpr f)

def View.mapExpr (v : View) : View :=
  { v with query := v.query.mapExpr f }

def Table.mapExpr (t : Table) : Table :=
  { t with onDelete := t.onDelete.map (Dml.mapExpr f) }

def Schema.mapExpr (s : Schema) : Schema where
  tables := s.tables.map (Table.mapExpr f)
  views := s.views.map (View.mapExpr f)
  statements := s.statements.map (DmlStatement.mapExpr f)

variable {f}

theorem Query.selects_mapExpr (q : Query) :
    (q.mapExpr f).selects = q.selects.map (Select.mapExpr f) := by
  simp [selects, mapExpr, Function.comp_def]

/-- No check of the builders looks into an expression. -/
theorem Table.Valid.mapExpr {t : Table} (h : t.Valid) : (t.mapExpr f).Valid where
  name := h.name
  nonempty := h.nonempty
  columns_nodup := h.columns_nodup
  primaryKey := h.primaryKey
  uniques := h.uniques
  indexes := h.indexes
  declared := h.declared
  names_nodup := h.names_nodup
  names := h.names

theorem View.Valid.mapExpr {v : View} (h : v.Valid) : (v.mapExpr f).Valid where
  name := h.name
  nonempty := h.nonempty
  columns_nodup := h.columns_nodup
  columns := h.columns
  arity := by
    change ∀ s ∈ (v.query.mapExpr f).selects, s.items.length = v.columns.length
    rw [Query.selects_mapExpr, List.forall_mem_map]
    intro s hs
    rw [Select.mapExpr, List.length_map]
    exact h.arity s hs

end MapExpr

/-- The schema with the signs folded in all its expressions. -/
def Schema.foldSigns (s : Schema) : Schema :=
  s.mapExpr Expr.foldSigns

end Schemata
