import Schemata.Proofs.ExprReading
import Schemata.Proofs.SignFolding

/-! A printed expression is derived by its tokens, with its signs folded. The printer leaves out the
parentheses that the order of precedence makes needless, so an operand is derived at the level at
which it was written. -/
namespace Schemata

open Grammar Reader

theorem nameToken_cases (n : String) : nameToken n = .name n ∨ nameToken n = .quotedName n := by
  unfold nameToken
  split
  · exact Or.inr rfl
  · exact Or.inl rfl

section Numbers

theorem digitsValue_toString (n : Nat) : digitsValue (toString n) = n := by
  change (n.repr.toList).foldl _ 0 = n
  rw [Nat.toList_repr]
  exact Nat.ofDigitChars_ten_toDigits

theorem denotes_toString {negative : Bool} {n : Nat} {value : Int}
    (hvalue : value = if negative then -(n : Int) else n) (h : (Literal.integer value).WellFormed) :
    Denotes negative (.integer (toString n)) (.integer value) := by
  obtain ⟨hlow, hhigh⟩ := h
  refine .integer ?_ (by omega) (by omega)
  rw [digitsValue_toString]
  exact hvalue

theorem denotes_decimal (digits : String) :
    Denotes false (.decimal digits) (.decimal digits) := by
  simpa using @Denotes.decimal false digits

end Numbers

theorem derives_literal {value : Literal} (h : value.WellFormed) :
    Derives 7 value.tokens (.literal value) := by
  cases value with
  | null => exact .tighter (by decide) (by decide) .null
  | string text => exact .tighter (by decide) (by decide) (.string text)
  | integer value =>
    rw [Literal.tokens]
    split
    · refine .signed (denotes_toString ?_ h)
      rw [if_pos rfl]
      omega
    · refine .tighter (by decide) (by decide) (.number (denotes_toString ?_ h))
      rw [if_neg Bool.false_ne_true]
      omega
  | decimal text =>
    obtain ⟨digits, hd, rfl | rfl⟩ := h
    · rw [Literal.tokens_decimal hd]
      exact .tighter (by decide) (by decide) (.number (denotes_decimal text))
    · rw [Literal.tokens_signed]
      exact .signed (.decimal digits)

/-- Before an unsigned number a minus sign is its sign. -/
theorem derives_folded {value folded : Literal} (h : value.WellFormed)
    (hfolded : value.negated? = some folded) :
    Derives 7 (Expr.unary .neg (.literal value)).tokens (.literal folded) := by
  cases value with
  | null => cases hfolded
  | string text => cases hfolded
  | integer value =>
    rw [Literal.negated?] at hfolded
    split at hfolded
    · rename_i hpos
      cases hfolded
      have hneg : ¬ value < 0 := by omega
      have htokens : (Expr.unary .neg (.literal (.integer value))).tokens =
          [.symbol .minus, .integer (toString value.natAbs)] := by
        rw [Expr.tokens, Expr.tokens, Literal.tokens, Expr.precedence, if_neg hneg, if_neg hneg]
        rfl
      rw [htokens]
      refine .signed (denotes_toString ?_ ?_)
      · rw [if_pos rfl]
        omega
      · obtain ⟨hlow, hhigh⟩ := h
        constructor <;> omega
    · cases hfolded
  | decimal text =>
    rw [Literal.negated?] at hfolded
    split at hfolded
    · cases hfolded
    · rename_i hhead
      cases hfolded
      obtain ⟨digits, hd, rfl | rfl⟩ := h
      · have htokens : (Expr.unary .neg (.literal (.decimal text))).tokens =
            [.symbol .minus, .decimal text] := by
          rw [Expr.tokens, Expr.tokens, Literal.tokens_decimal hd]
          rfl
        rw [htokens]
        exact .signed (.decimal text)
      · simp at hhead

/-- After a minus sign there is a number token only where there is an unsigned number. -/
theorem number_head {e : Expr} (h : e.signed? .neg = none) :
    ∃ t us, wrapped (e.precedence < UnaryOp.neg.precedence) e.tokens = t :: us ∧
      isNumber t = false := by
  cases e with
  | literal value =>
    cases value with
    | null => exact ⟨_, _, rfl, rfl⟩
    | string text => exact ⟨_, _, rfl, rfl⟩
    | integer value =>
      have hneg : value < 0 := by
        by_contra hpos
        rw [Expr.signed?, Literal.negated?, if_pos (by omega)] at h
        cases h
      rw [Expr.tokens, Literal.tokens, Expr.precedence, if_pos hneg, if_pos hneg]
      exact ⟨_, _, rfl, rfl⟩
    | decimal text =>
      have hhead : text.toList.head? = some '-' := by
        by_contra hhead
        rw [Expr.signed?, Literal.negated?, if_neg hhead] at h
        cases h
      obtain ⟨cs, hcs⟩ := List.head?_eq_some_iff.mp hhead
      rw [Expr.tokens, Literal.tokens, hcs]
      exact ⟨_, _, rfl, rfl⟩
  | column qualifier name =>
    have hname : ∀ n, isNumber (nameToken n) = false := by
      intro n
      rcases nameToken_cases n with h | h <;> rw [h] <;> rfl
    cases qualifier with
    | none => exact ⟨_, _, rfl, hname name⟩
    | some q => exact ⟨_, _, rfl, hname q⟩
  | parameter name => exact ⟨_, _, rfl, rfl⟩
  | call name args =>
    rw [Expr.tokens]
    exact ⟨_, _, rfl, rfl⟩
  | caseWhen operand branches otherwise =>
    rw [Expr.tokens]
    exact ⟨_, _, rfl, rfl⟩
  | binary op left right => cases op <;> exact ⟨_, _, rfl, rfl⟩
  | unary op operand =>
    cases op with
    | not => exact ⟨_, _, rfl, rfl⟩
    | neg =>
      rw [Expr.tokens]
      exact ⟨_, _, rfl, rfl⟩
  | isNull operand negated => exact ⟨_, _, rfl, rfl⟩

theorem precedence_pos (e : Expr) : 1 ≤ e.precedence := by
  unfold Expr.precedence
  split
  · rename_i op _ _
    cases op <;> decide
  · rename_i op _
    cases op <;> decide
  · decide
  · split <;> decide
  · decide

/-- The expression is derived by its tokens at its own level. -/
def Printed (e : Expr) : Prop :=
  Derives (min e.precedence 7) e.tokens e.foldSigns

def Expr.phrase (e : Expr) : Phrase :=
  ⟨e.tokens, e.foldSigns⟩

namespace Printed

variable {e : Expr}

theorem whole (h : Printed e) : Derives 1 e.tokens e.foldSigns := by
  have hpos := precedence_pos e
  exact Derives.looser h (by omega) (Nat.le_refl 1) (by omega)

/-- An operand, in parentheses where it would bind too loosely without them. -/
theorem operand (h : Printed e) {w : Bool} {k : Nat} (h1 : 1 ≤ k) (h7 : k ≤ 7)
    (hw : w = false → k ≤ e.precedence) : Derives k (wrapped w e.tokens) e.foldSigns := by
  cases w with
  | false =>
    have hk := hw rfl
    exact Derives.looser h (by omega) h1 (by omega)
  | true => exact (Derives.parenthesized h.whole).looser (Nat.le_refl 8) h1 (by omega)

theorem of_primary (hp : e.precedence = 8) (h : Derives 8 e.tokens e.foldSigns) : Printed e := by
  rw [Printed, hp]
  exact .tighter (by decide) (by decide) h

theorem binary {op : BinaryOp} {left right : Expr} (hl : Printed left) (hr : Printed right) :
    Printed (.binary op left right) := by
  have hbounds : 1 ≤ op.precedence ∧ op.precedence ≤ 6 := by cases op <;> decide
  have hown : min (Expr.binary op left right).precedence 7 = op.precedence := by
    change min op.precedence 7 = _
    omega
  rw [Printed, hown, Expr.tokens, Expr.foldSigns]
  refine .binary (.inl rfl) (hl.operand hbounds.1 (by omega) fun hw => ?_)
    (hr.operand (Nat.le_add_left 1 _) (by omega) fun hw => ?_)
  · exact Nat.le_of_not_lt (of_decide_eq_false hw)
  · exact Nat.lt_of_not_le (of_decide_eq_false hw)

theorem isNull {negated : Bool} (h : Printed e) : Printed (.isNull e negated) := by
  change Derives 4 _ _
  rw [Expr.tokens, Expr.foldSigns]
  have htest : (if negated = true then [Token.keyword .is, .keyword .not, .keyword .null]
      else [.keyword .is, .keyword .null]) = .keyword .is :: nullTestTokens negated := by
    cases negated <;> rfl
  rw [htest]
  refine .isNull negated (h.operand (by decide) (by decide) fun hw => ?_)
  exact Nat.le_of_lt (Nat.lt_of_not_le (of_decide_eq_false hw))

theorem not (h : Printed e) : Printed (.unary .not e) := by
  change Derives 3 _ _
  rw [Expr.tokens, Expr.foldSigns]
  exact .not (h.operand (by decide) (by decide) fun hw =>
    Nat.le_of_not_lt (of_decide_eq_false hw))

theorem neg (hwf : e.WellFormed) (h : Printed e) : Printed (.unary .neg e) := by
  change Derives 7 _ _
  rw [Expr.foldSigns]
  cases hsigned : e.signed? .neg with
  | some folded =>
    unfold Expr.signed? at hsigned
    split at hsigned
    · exact derives_folded (Expr.wellFormed_literal.mp hwf) hsigned
    · cases hsigned
  | none =>
    have hoperand : Derives 7 (wrapped (e.precedence < UnaryOp.neg.precedence) e.tokens)
        e.foldSigns :=
      h.operand (by decide) (by decide) fun hw => Nat.le_of_not_lt (of_decide_eq_false hw)
    obtain ⟨t, us, hwrapped, hnumber⟩ := number_head hsigned
    rw [Expr.tokens]
    rw [hwrapped] at hoperand ⊢
    exact .neg hnumber hoperand

end Printed

theorem tokensBranches_eq (bs : List (Expr × Expr)) :
    Expr.tokensBranches bs = (bs.map fun b => (b.1.phrase, b.2.phrase)).flatMap branchTokens := by
  induction bs with
  | nil => rfl
  | cons b bs ih => simp [Expr.tokensBranches, branchTokens, Expr.phrase, ih]

theorem optionalTokens_phrase (lead : List Token) (o : Option Expr) :
    Expr.tokensOption lead o = optionalTokens lead Phrase.tokens (o.map Expr.phrase) := by
  cases o <;> rfl

/-- Every well-formed expression is derived by its tokens. -/
theorem printed {e : Expr} (h : e.WellFormed) : Printed e := by
  induction e with
  | literal value =>
    have hown : min (Expr.literal value).precedence 7 = 7 := by
      cases value with
      | integer value =>
        rw [Expr.precedence]
        split <;> rfl
      | _ => rfl
    rw [Printed, hown]
    exact derives_literal (Expr.wellFormed_literal.mp h)
  | column qualifier name =>
    refine .of_primary rfl ?_
    cases qualifier with
    | none => exact .column (nameWord_nameToken name)
    | some q => exact .qualified (nameWord_nameToken q) (nameWord_nameToken name)
  | parameter name => exact .of_primary rfl (.parameter name)
  | call name args ih =>
    obtain ⟨-, hargs⟩ := Expr.wellFormed_call.mp h
    have hphrases : ∀ a ∈ args.map Expr.phrase, Derives 1 a.tokens a.value := by
      intro a ha
      obtain ⟨e, he, rfl⟩ := List.mem_map.mp ha
      exact (ih e he (hargs e he)).whole
    have hcall := Derives.call name hphrases
    rw [List.map_map, List.map_map] at hcall
    refine .of_primary rfl ?_
    rw [Expr.tokens, Expr.tokensAll_eq_map, Expr.foldSigns, Expr.foldSignsAll_eq_map]
    exact hcall
  | caseWhen operand branches otherwise ihOperand ihBranches ihOtherwise =>
    obtain ⟨hne, hoperand, hbranches, hotherwise⟩ := Expr.wellFormed_caseWhen.mp h
    have hphrase : ∀ o : Option Expr, (∀ e ∈ o, Printed e) →
        ∀ a ∈ o.map Expr.phrase, Derives 1 a.tokens a.value := by
      intro o ho a ha
      obtain ⟨e, he, rfl⟩ := Option.map_eq_some_iff.mp ha
      exact (ho e he).whole
    have hsome : branches.map (fun b => (b.1.phrase, b.2.phrase)) ≠ [] :=
      fun hnil => hne (List.map_eq_nil_iff.mp hnil)
    have hcase := Derives.caseWhen hsome
      (hphrase operand fun e he => ihOperand e he (hoperand e he))
      (List.forall_mem_map.mpr fun b hb => ((ihBranches b hb).1 (hbranches b hb).1).whole)
      (List.forall_mem_map.mpr fun b hb => ((ihBranches b hb).2 (hbranches b hb).2).whole)
      (hphrase otherwise fun e he => ihOtherwise e he (hotherwise e he))
    rw [Option.map_map, Option.map_map, List.map_map] at hcase
    refine .of_primary rfl ?_
    rw [Expr.tokens, optionalTokens_phrase, optionalTokens_phrase, tokensBranches_eq,
      Expr.foldSigns, Expr.foldSignsOption_eq_map, Expr.foldSignsOption_eq_map,
      Expr.foldSignsBranches_eq_map]
    exact hcase
  | binary op left right ihLeft ihRight =>
    obtain ⟨hl, hr⟩ := Expr.wellFormed_binary.mp h
    exact (ihLeft hl).binary (ihRight hr)
  | unary op operand ih =>
    have hoperand := Expr.wellFormed_unary.mp h
    cases op with
    | not => exact (ih hoperand).not
    | neg => exact (ih hoperand).neg hoperand
  | isNull operand negated ih => exact (ih (Expr.wellFormed_isNull.mp h)).isNull

theorem reads_expr {e : Expr} (h : e.WellFormed) :
    Reads expr e.tokens (· = e.foldSigns) exprFollow :=
  (printed h).whole.reads

end Schemata
