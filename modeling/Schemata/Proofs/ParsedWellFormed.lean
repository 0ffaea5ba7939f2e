import Schemata.Proofs.Repetition
import Schemata.Proofs.WellFormed
import Mathlib.Data.List.TakeWhile

/-! What is read is well formed: the scanner makes valid tokens only, and each reader that records
no mistake turns valid tokens into something that the schema language can write down again. -/
namespace Schemata

section Tokens

theorem isWord_takeWhile {c : Char} (h : isNameStart c = true) (cs : List Char) :
    isIdentifier (String.ofList (c :: cs.takeWhile isNameChar)) = true := by
  rw [isIdentifier_iff, String.toList_ofList]
  exact ⟨c, _, rfl, h, fun _ hd => List.mem_takeWhile_imp hd⟩

theorem wordToken_valid {word : List Char} (h : isIdentifier (String.ofList word) = true) :
    (wordToken word).Valid := by
  unfold wordToken
  split
  · trivial
  · rename_i hk
    exact ⟨h, hk⟩

theorem isDigits_cons_takeWhile {c : Char} (h : c.isDigit = true) (cs : List Char) :
    IsDigits (c :: cs.takeWhile Char.isDigit) :=
  ⟨List.cons_ne_nil _ _, List.forall_mem_cons.mpr ⟨h, fun _ hd => List.mem_takeWhile_imp hd⟩⟩

theorem numberPiece_valid {c : Char} (h : c.isDigit = true) {cs : List Char} {t : Token}
    (ht : (numberPiece c cs).1 = .token t) : t.Valid := by
  have hwhole : (Token.integer (String.ofList (c :: cs.takeWhile Char.isDigit))).Valid := by
    rw [Token.Valid, String.toList_ofList]
    exact isDigits_cons_takeWhile h cs
  unfold numberPiece at ht
  dsimp only at ht
  split at ht
  · rename_i d rest hrest
    split at ht
    · rename_i hd
      cases ht
      have hcs : cs.takeWhile Char.isDigit ++ '.' :: d :: rest = cs := by
        rw [← hrest, drop_takeWhile, List.takeWhile_append_dropWhile]
      have hpart : rest.take (rest.takeWhile Char.isDigit).length = rest.takeWhile Char.isDigit :=
        (List.prefix_iff_eq_take.mp (List.takeWhile_prefix _)).symm
      have htext : cs.take ((cs.takeWhile Char.isDigit).length + 2 +
          (rest.takeWhile Char.isDigit).length) =
            cs.takeWhile Char.isDigit ++ '.' :: d :: rest.takeWhile Char.isDigit := by
        nth_rewrite 2 [← hcs]
        rw [Nat.add_assoc, List.take_length_add_append, Nat.add_comm 2, List.take_succ_cons,
          List.take_succ_cons, hpart]
      rw [Token.Valid, String.toList_ofList, htext]
      exact ⟨_, _, rfl, isDigits_cons_takeWhile h cs, isDigits_cons_takeWhile hd rest⟩
    · cases ht
      exact hwhole
  · cases ht
    exact hwhole

theorem parameterPiece_valid {cs : List Char} {t : Token}
    (ht : (parameterPiece cs).1 = .token t) : t.Valid := by
  unfold parameterPiece at ht
  split at ht
  · split at ht
    · rename_i hc
      cases ht
      exact isWord_takeWhile hc _
    · cases ht
  · cases ht

theorem quotedNamePiece_valid {cs : List Char} {t : Token}
    (ht : (quotedNamePiece cs).1 = .token t) : t.Valid := by
  unfold quotedNamePiece at ht
  split at ht
  · split at ht
    · rename_i hc
      dsimp only at ht
      split at ht
      · cases ht
        exact isWord_takeWhile hc _
      · cases ht
    · cases ht
  · cases ht

theorem piece_valid {c : Char} {cs : List Char} {t : Token} (ht : (piece c cs).1 = .token t) :
    t.Valid := by
  unfold piece at ht
  split at ht
  · cases ht
  split at ht
  · rename_i hc
    cases ht
    exact wordToken_valid (isWord_takeWhile hc _)
  split at ht
  · rename_i hc
    exact numberPiece_valid hc ht
  split at ht
  case h_2 =>
    unfold commentPiece at ht
    split at ht <;> cases ht
  case h_3 =>
    unfold stringPiece at ht
    split at ht <;> cases ht
    trivial
  case h_4 => exact quotedNamePiece_valid ht
  case h_5 => exact parameterPiece_valid ht
  all_goals cases ht <;> trivial

def ValidTokens (ls : List Lexeme) : Prop :=
  ∀ l ∈ ls, l.token.Valid

theorem scanFrom_valid (start : Nat) (cs : List Char) :
    ValidTokens ((scanFrom start cs).filterMap Scanned.lexeme?) := by
  fun_induction scanFrom start cs with
  | case1 => exact List.forall_mem_nil _
  | case2 start c cs text stop hp ih => exact ih
  | case3 start c cs text stop t hp ih => exact List.forall_mem_cons.mpr ⟨piece_valid hp, ih⟩
  | case4 start c cs text stop hp ih => exact ih

end Tokens

section Combinators

open Grammar Reader

variable {α β σ : Type} {P : α → Prop} {Q : β → Prop}

/-- From valid tokens, whatever the reader gives has `P`. -/
def Yields (r : Reader α) (P : α → Prop) : Prop :=
  ∀ ⦃ls a rest⦄, ValidTokens ls → r ls = .ok (a, rest) → P a ∧ ValidTokens rest

/-- From valid tokens, whatever the reader gives without a mistake on record has `P`. -/
def Settles (r : Recovering α) (P : α → Prop) : Prop :=
  ∀ ⦃ls a rest⦄, ValidTokens ls → r ls = ⟨[], .ok (a, rest)⟩ → P a ∧ ValidTokens rest

namespace Yields

theorem pure {a : α} (h : P a) : Yields (pure a : Reader α) P := by
  intro ls b rest hls hr
  cases hr
  exact ⟨h, hls⟩

theorem bind {r : Reader α} {f : α → Reader β} (hr : Yields r P)
    (hf : ∀ a, P a → Yields (f a) Q) : Yields (r >>= f) Q := by
  intro ls b rest hls h
  obtain ⟨⟨a, between⟩, ha, hb⟩ := bind_ok_iff.mp h
  obtain ⟨hpa, hbetween⟩ := hr hls ha
  exact hf a hpa hbetween hb

theorem imp {P' : α → Prop} {r : Reader α} (hr : Yields r P) (h : ∀ a, P a → P' a) :
    Yields r P' :=
  fun _ _ _ hls hread => (hr hls hread).imp (h _) id

theorem map {r : Reader α} {f : α → β} (hr : Yields r P) (h : ∀ a, P a → Q (f a)) :
    Yields (f <$> r) Q := by
  rw [map_eq_pure_bind]
  exact hr.bind fun a ha => .pure (h a ha)

theorem ite {b : Prop} [Decidable b] {r s : Reader α} (hr : b → Yields r P)
    (hs : ¬ b → Yields s P) : Yields (if b then r else s) P := by
  split
  · exact hr ‹_›
  · exact hs ‹_›

/-- Both ways go on alike. -/
theorem ite_bind {b : Prop} [Decidable b] {r s : Reader α} {k : α → Reader β}
    (hr : b → Yields r P) (hs : ¬ b → Yields s P) (hk : ∀ a, P a → Yields (k a) Q) :
    Yields (if b then r >>= k else s >>= k) Q :=
  .ite (fun h => (hr h).bind hk) fun h => (hs h).bind hk

theorem fails {r : Reader α} (h : ∀ ls, ∃ e, r ls = .error e) : Yields r P := by
  intro ls a rest _ hread
  obtain ⟨e, he⟩ := h ls
  rw [he] at hread
  cases hread

end Yields

namespace Settles

variable {r s : Recovering α}

theorem pure {a : α} (h : P a) : Settles (Pure.pure a) P := by
  intro ls b rest hls hr
  cases hr
  exact ⟨h, hls⟩

theorem bind {f : α → Recovering β} (hr : Settles r P) (hf : ∀ a, P a → Settles (f a) Q) :
    Settles (r >>= f) Q := by
  intro ls b rest hls h
  simp only [Bind.bind] at h
  split at h
  · cases h
  · rename_i recorded a between hread
    obtain ⟨hrecorded, hresult⟩ := Outcome.mk.inj h
    obtain ⟨hfirst, hlater⟩ := List.append_eq_nil_iff.mp hrecorded
    rw [hfirst] at hread
    obtain ⟨ha, hbetween⟩ := hr hls hread
    refine hf a ha hbetween ?_
    rw [← hlater, ← hresult]

theorem ite {b : Prop} [Decidable b] (hr : b → Settles r P) (hs : ¬ b → Settles s P) :
    Settles (if b then r else s) P := by
  split
  · exact hr ‹_›
  · exact hs ‹_›

theorem lift {r : Reader α} (h : Yields r P) : Settles (liftM r) P :=
  fun _ _ _ hls hread => h hls (Outcome.mk.inj hread).2

/-- A step by a plain reader. -/
theorem step {r : Reader α} {f : α → Recovering β} (hr : Yields r P)
    (hf : ∀ a, P a → Settles (f a) Q) : Settles (liftM r >>= f) Q :=
  (lift hr).bind hf

theorem noting (h : Settles r P) : Settles r.noting fun p => P p.1 := by
  intro ls p rest hls hread
  unfold Recovering.noting at hread
  split at hread
  · cases hread
  · rename_i hr
    cases hread
    exact h hls hr

/-- With a mistake on record there is nothing to show. -/
theorem recorded {fault : Fault} {place : Span} {f : Unit → Recovering α} :
    Settles (Recovering.record fault place >>= f) P := by
  intro ls a rest _ h
  cases (Outcome.mk.inj h).1

end Settles

theorem yields_refuse {fault : Fault} {place : Span} : Yields (refuse fault place) P :=
  .fails fun _ => ⟨_, rfl⟩

theorem yields_refuseLexeme {expected : String} {l : Lexeme} :
    Yields (refuseLexeme expected l) P :=
  .fails fun _ => ⟨_, rfl⟩

theorem yields_refuseHere {expected : String} : Yields (refuseHere expected) P := by
  refine .fails fun ls => ?_
  cases ls <;> exact ⟨_, rfl⟩

theorem yields_peek : Yields peek? fun _ => True := by
  intro ls a rest hls h
  cases h
  exact ⟨trivial, hls⟩

theorem yields_isAt {t : Token} : Yields (isAt t) fun _ => True :=
  yields_peek.bind fun _ _ => .pure trivial

theorem yields_next {expected : String} : Yields (next expected) fun l => l.token.Valid := by
  intro ls a rest hls h
  cases ls with
  | nil => cases h
  | cons l ls =>
    cases h
    exact List.forall_mem_cons.mp hls

theorem yields_eat {t : Token} : Yields (eat t) fun _ => True := by
  intro ls a rest hls h
  unfold eat at h
  split at h
  · cases h
    exact ⟨trivial, hls⟩
  split at h <;> cases h
  · exact ⟨trivial, (List.forall_mem_cons.mp hls).2⟩
  · exact ⟨trivial, hls⟩

theorem yields_expect {t : Token} : Yields (expect t) fun _ => True :=
  yields_next.bind fun _ _ => .ite (fun _ => .pure trivial) fun _ => yields_refuseLexeme

theorem yields_keyword {k : Keyword} : Yields (expectKeyword k) fun _ => True :=
  yields_expect.map fun _ _ => trivial

theorem yields_symbol {s : Symbol} : Yields (expectSymbol s) fun _ => True :=
  yields_expect.map fun _ _ => trivial

theorem yields_name {what : String} :
    Yields (expectName what) fun p => isIdentifier p.1 = true := by
  refine yields_next.bind fun l hl => ?_
  split
  · rename_i word hword
    refine .pure ?_
    cases ht : l.token <;> rw [ht] at hl hword <;> cases hword
    · exact hl
    · exact hl.1
  · exact yields_refuseLexeme

theorem yields_string : Yields expectString fun _ => True := by
  refine yields_next.bind fun l _ => ?_
  split
  · exact .pure trivial
  · exact yields_refuseLexeme

theorem yields_count : Yields expectCount (· < 0x100000000) := by
  refine yields_next.bind fun l _ => ?_
  split
  · exact .ite (fun h => .pure h) fun _ => yields_refuse
  · exact yields_refuseLexeme

theorem yields_many {item? : Reader (Option α)} (h : Yields item? fun o => ∀ a ∈ o, P a) :
    Yields (many item?) fun as => ∀ a ∈ as, P a := by
  intro ls as rest hls hread
  fun_induction many item? ls generalizing as rest with
  | case1 ls e he => cases hread
  | case2 ls left hnone =>
    cases hread
    exact ⟨List.forall_mem_nil _, (h hls hnone).2⟩
  | case3 ls a left hsome hlength e he ih => cases hread
  | case4 ls a left hsome hlength as last hmore ih =>
    cases hread
    obtain ⟨ha, hleft⟩ := h hls hsome
    obtain ⟨has, hlast⟩ := ih hleft hmore
    exact ⟨List.forall_mem_cons.mpr ⟨ha a rfl, has⟩, hlast⟩
  | case5 ls a left hsome hlength =>
    cases hread
    obtain ⟨ha, hleft⟩ := h hls hsome
    exact ⟨List.forall_mem_singleton.mpr (ha a rfl), hleft⟩

theorem yields_none : Yields (pure none : Reader (Option α)) fun o => ∀ a ∈ o, P a :=
  .pure nofun

theorem forall_mem_some {a : α} (h : P a) : ∀ b ∈ some a, P b :=
  fun _ hb => Option.mem_some_iff.mp hb ▸ h

theorem yields_one {a : α} (h : P a) :
    Yields (pure (some a) : Reader (Option α)) fun o => ∀ a ∈ o, P a :=
  .pure (forall_mem_some h)

theorem settles_one {a : α} (h : P a) :
    Settles (pure (some a) : Recovering (Option α)) fun o => ∀ a ∈ o, P a :=
  .pure (forall_mem_some h)

theorem settles_none : Settles (pure none : Recovering (Option α)) fun o => ∀ a ∈ o, P a :=
  .pure nofun

theorem Yields.some {r : Reader α} (h : Yields r P) :
    Yields (some <$> r) fun o => ∀ a ∈ o, P a :=
  h.map fun _ ha => forall_mem_some ha

theorem yields_sepBy1 {sep : Symbol} {item : Reader α} (h : Yields item P) :
    Yields (sepBy1 sep item) fun as => as ≠ [] ∧ ∀ a ∈ as, P a := by
  have hmore : Yields (itemAfter? sep item) fun o => ∀ a ∈ o, P a :=
    yields_eat.bind fun _ _ => .ite (fun _ => h.some) fun _ => yields_none
  refine h.bind fun a ha => ?_
  rw [moreItems_eq_many]
  exact (yields_many hmore).bind fun as has =>
    .pure ⟨List.cons_ne_nil _ _, List.forall_mem_cons.mpr ⟨ha, has⟩⟩

theorem yields_columnList : Yields columnList fun columns =>
    columns ≠ [] ∧ ∀ c ∈ columns, isIdentifier c = true := by
  have hname : Yields (Prod.fst <$> expectName "column name") (isIdentifier · = true) :=
    yields_name.map fun _ h => h
  refine yields_symbol.bind fun _ _ => (yields_sepBy1 hname).bind fun columns hcolumns => ?_
  exact yields_symbol.bind fun _ _ => .pure hcolumns

section Loops

variable {I : σ → Prop} {acc last : σ} {ls left : List Lexeme} {sep : Symbol}

theorem itemOrSkip_settles {item : σ → Recovering σ} (h : Settles (item acc) I)
    (hls : ValidTokens ls)
    (hread : Recovering.itemOrSkip sep item acc ls = ([], last, left)) :
    I last ∧ ValidTokens left := by
  unfold Recovering.itemOrSkip at hread
  split at hread
  · rename_i hok
    cases hread
    exact h hls hok
  · simp at hread

theorem gather_settles {item : σ → Recovering σ} (h : ∀ acc, I acc → Settles (item acc) I)
    (hacc : I acc) (hls : ValidTokens ls)
    (hread : Recovering.gather sep item acc ls = ([], last, left)) :
    I last ∧ ValidTokens left := by
  fun_induction Recovering.gather sep item acc ls generalizing last left with
  | case1 acc ls recorded acc' l rest hitem hl hlength more final remaining hmore ih =>
    obtain ⟨hrecorded, hend⟩ := Prod.mk.inj hread
    obtain ⟨rfl, rfl⟩ := List.append_eq_nil_iff.mp hrecorded
    obtain ⟨hacc', hrest⟩ := itemOrSkip_settles (h acc hacc) hls hitem
    exact ih hacc' (List.forall_mem_cons.mp hrest).2 (hend ▸ hmore)
  | case2 acc ls recorded acc' l rest hitem hl hlength =>
    cases hread
    obtain ⟨hacc', hrest⟩ := itemOrSkip_settles (h acc hacc) hls hitem
    exact ⟨hacc', (List.forall_mem_cons.mp hrest).2⟩
  | case3 acc ls recorded acc' l rest hitem hl =>
    cases hread
    exact itemOrSkip_settles (h acc hacc) hls hitem
  | case4 acc ls recorded acc' hitem =>
    cases hread
    exact itemOrSkip_settles (h acc hacc) hls hitem

theorem settles_sepBy1 {item : σ → Recovering σ} (hacc : I acc)
    (h : ∀ acc, I acc → Settles (item acc) I) : Settles (Recovering.sepBy1 item acc) I := by
  intro ls last rest hls hread
  cases hg : Recovering.gather .comma item acc ls with
  | mk recorded p =>
    rw [Recovering.sepBy1, hg] at hread
    cases hread
    exact gather_settles h hacc hls hg

theorem settles_repeatClauses {clause? : σ → Recovering (Option σ)} (hacc : I acc)
    (h : ∀ acc, I acc → Settles (clause? acc) fun o => ∀ a ∈ o, I a) :
    Settles (repeatClauses clause? acc) I := by
  intro ls last rest hls hread
  unfold repeatClauses at hread
  fun_induction repeatClauses.go clause? acc ls generalizing last rest with
  | case1 acc ls recorded e hclause => cases hread
  | case2 acc ls recorded left hclause =>
    cases hread
    exact ⟨hacc, (h acc hacc hls hclause).2⟩
  | case3 acc ls recorded acc' left hclause hlength later ih =>
    obtain ⟨hrecorded, hresult⟩ := Outcome.mk.inj hread
    obtain ⟨rfl, hlater⟩ := List.append_eq_nil_iff.mp hrecorded
    obtain ⟨hacc', hleft⟩ := h acc hacc hls hclause
    refine ih (hacc' acc' rfl) hleft ?_
    rw [← hlater, ← hresult]
  | case4 acc ls recorded acc' left hclause hlength =>
    cases hread
    obtain ⟨hacc', hleft⟩ := h acc hacc hls hclause
    exact ⟨hacc' acc' rfl, hleft⟩

end Loops

end Combinators

section Expressions

open Grammar Reader

variable {nested operand : Reader Expr}

theorem yields_numberLiteral {l : Lexeme} (h : l.token.Valid) (negative : Bool) :
    Yields (numberLiteral negative l) Literal.WellFormed := by
  unfold numberLiteral
  dsimp only
  split
  · rename_i digits ht
    rw [ht] at h
    refine .pure ⟨digits, h, ?_⟩
    cases negative with
    | false => exact Or.inl String.empty_append
    | true => exact Or.inr rfl
  · exact .ite (fun hrange => .pure hrange) fun _ => yields_refuse
  · exact yields_refuseLexeme

theorem yields_whenBranch (h : Yields nested Expr.WellFormed) :
    Yields (whenBranch nested) fun b => b.1.WellFormed ∧ b.2.WellFormed := by
  refine yields_keyword.bind fun _ _ => h.bind fun condition hcondition => ?_
  exact yields_keyword.bind fun _ _ => h.bind fun value hvalue => .pure ⟨hcondition, hvalue⟩

theorem yields_caseTail (h : Yields nested Expr.WellFormed) :
    Yields (caseTail nested) Expr.WellFormed := by
  have hmore : Yields (whenBranch? nested) fun o => ∀ b ∈ o, b.1.WellFormed ∧ b.2.WellFormed :=
    yields_isAt.bind fun _ _ => .ite (fun _ => (yields_whenBranch h).some) fun _ => yields_none
  refine yields_isAt.bind fun _ _ => .ite_bind (fun _ => yields_none) (fun _ => h.some) ?_
  refine fun operand hoperand => (yields_whenBranch h).bind fun first hfirst => ?_
  rw [moreBranches_eq_many]
  refine (yields_many hmore).bind fun others hothers => yields_eat.bind fun _ _ => ?_
  refine .ite_bind (fun _ => h.some) (fun _ => yields_none) fun otherwise hotherwise => ?_
  refine yields_keyword.bind fun _ _ => .pure (Expr.wellFormed_caseWhen.mpr ?_)
  exact ⟨List.cons_ne_nil _ _, hoperand, List.forall_mem_cons.mpr ⟨hfirst, hothers⟩, hotherwise⟩

theorem yields_columnTail {word : String} (h : isIdentifier word = true) :
    Yields (columnTail word) Expr.WellFormed := by
  refine yields_eat.bind fun _ _ => .ite (fun _ => ?_) fun _ => .pure ?_
  · refine yields_name.bind fun ⟨column, _⟩ hcolumn => .pure ?_
    exact Expr.wellFormed_column.mpr ⟨forall_mem_some h, hcolumn⟩
  · exact Expr.wellFormed_column.mpr ⟨nofun, h⟩

theorem yields_nameTail {word : String} (hword : (Token.name word).Valid)
    (h : Yields nested Expr.WellFormed) : Yields (nameTail nested word) Expr.WellFormed := by
  have hargs : Yields (sepBy1 .comma nested) fun args => ∀ e ∈ args, e.WellFormed :=
    (yields_sepBy1 h).imp fun _ h => h.2
  refine yields_eat.bind fun _ _ => .ite (fun _ => ?_) fun _ => yields_columnTail hword.1
  refine yields_isAt.bind fun _ _ => .ite_bind (fun _ => .pure nofun) (fun _ => hargs) ?_
  refine fun args hargs => yields_symbol.bind fun _ _ => .pure ?_
  exact Expr.wellFormed_call.mpr ⟨hword, hargs⟩

theorem yields_primary (h : Yields nested Expr.WellFormed) :
    Yields (primary nested) Expr.WellFormed := by
  have hnumber : ∀ l : Lexeme, l.token.Valid →
      Yields (Expr.literal <$> numberLiteral false l) Expr.WellFormed := fun l hl =>
    (yields_numberLiteral hl false).map fun _ hv => Expr.wellFormed_literal.mpr hv
  refine yields_next.bind fun l hl => ?_
  split <;> rename_i ht
  · exact .pure (Expr.wellFormed_literal.mpr trivial)
  · exact .pure (Expr.wellFormed_literal.mpr trivial)
  · exact hnumber l hl
  · exact hnumber l hl
  · rw [ht] at hl
    exact .pure (Expr.wellFormed_parameter.mpr hl)
  · exact h.bind fun inner hinner => yields_symbol.bind fun _ _ => .pure hinner
  · exact yields_caseTail h
  · rw [ht] at hl
    exact yields_nameTail hl h
  · rw [ht] at hl
    exact yields_columnTail hl
  · exact yields_refuseLexeme

theorem yields_unaryLevel (h : Yields nested Expr.WellFormed) :
    Yields (unaryLevel nested) Expr.WellFormed := by
  intro ls e rest hls hread
  fun_induction unaryLevel nested ls generalizing e rest with
  | case1 span l left hnumber =>
    obtain ⟨-, hls⟩ := List.forall_mem_cons.mp hls
    obtain ⟨hl, hleft⟩ := List.forall_mem_cons.mp hls
    have hvalue := (yields_numberLiteral hl true).map fun _ => Expr.wellFormed_literal.mpr
    exact hvalue hleft hread
  | case2 span l left hnumber ih =>
    obtain ⟨operand, hoperand, rfl⟩ := underUnary_ok hread
    obtain ⟨he, hrest⟩ := ih (List.forall_mem_cons.mp hls).2 hoperand
    exact ⟨Expr.wellFormed_unary.mpr he, hrest⟩
  | case3 span => exact yields_primary h (List.forall_mem_nil _) hread
  | case4 ls => exact yields_primary h hls hread

theorem yields_chain {op? : Token → Option BinaryOp} (h : Yields operand Expr.WellFormed)
    {left : Expr} (hleft : left.WellFormed) : Yields (chain op? operand left) Expr.WellFormed := by
  intro ls e rest hls hread
  fun_induction chain op? operand left ls generalizing e rest with
  | case1 left =>
    cases hread
    exact ⟨hleft, hls⟩
  | case2 left l ls hop =>
    cases hread
    exact ⟨hleft, hls⟩
  | case3 left l ls op hop e he => cases hread
  | case4 left l ls op hop right between hright hlength ih =>
    obtain ⟨he, hbetween⟩ := h (List.forall_mem_cons.mp hls).2 hright
    exact ih (Expr.wellFormed_binary.mpr ⟨hleft, he⟩) hbetween hread
  | case5 left l ls op hop right between hright hlength =>
    obtain ⟨he, hbetween⟩ := h (List.forall_mem_cons.mp hls).2 hright
    cases hread
    exact ⟨Expr.wellFormed_binary.mpr ⟨hleft, he⟩, hbetween⟩

theorem yields_chained {op? : Token → Option BinaryOp} (h : Yields operand Expr.WellFormed) :
    Yields (chained op? operand) Expr.WellFormed :=
  h.bind fun _ hleft => yields_chain h hleft

theorem yields_nullTest : Yields nullTest fun _ => True :=
  yields_eat.bind fun _ _ => yields_keyword.bind fun _ _ => .pure trivial

theorem yields_comparisonTail (h : Yields operand Expr.WellFormed) {left : Expr}
    (hleft : left.WellFormed) : Yields (comparisonTail operand left) Expr.WellFormed := by
  intro ls e rest hls hread
  fun_induction comparisonTail operand left ls generalizing e rest with
  | case1 left =>
    cases hread
    exact ⟨hleft, hls⟩
  | case2 left l ls his e he => cases hread
  | case3 left l ls his negated between hnull hlength ih =>
    obtain ⟨-, hbetween⟩ := yields_nullTest (List.forall_mem_cons.mp hls).2 hnull
    exact ih (Expr.wellFormed_isNull.mpr hleft) hbetween hread
  | case4 left l ls his negated between hnull hlength =>
    obtain ⟨-, hbetween⟩ := yields_nullTest (List.forall_mem_cons.mp hls).2 hnull
    cases hread
    exact ⟨Expr.wellFormed_isNull.mpr hleft, hbetween⟩
  | case5 left l ls his hop =>
    cases hread
    exact ⟨hleft, hls⟩
  | case6 left l ls his op hop e he => cases hread
  | case7 left l ls his op hop right between hright hlength ih =>
    obtain ⟨he, hbetween⟩ := h (List.forall_mem_cons.mp hls).2 hright
    exact ih (Expr.wellFormed_binary.mpr ⟨hleft, he⟩) hbetween hread
  | case8 left l ls his op hop right between hright hlength =>
    obtain ⟨he, hbetween⟩ := h (List.forall_mem_cons.mp hls).2 hright
    cases hread
    exact ⟨Expr.wellFormed_binary.mpr ⟨hleft, he⟩, hbetween⟩

theorem yields_comparisonLevel (h : Yields nested Expr.WellFormed) :
    Yields (comparisonLevel nested) Expr.WellFormed := by
  have hadditive : Yields (additiveLevel nested) Expr.WellFormed :=
    yields_chained (yields_chained (yields_unaryLevel h))
  exact hadditive.bind fun _ hleft => yields_comparisonTail hadditive hleft

theorem yields_notLevel (h : Yields nested Expr.WellFormed) :
    Yields (notLevel nested) Expr.WellFormed := by
  intro ls e rest hls hread
  fun_induction notLevel nested ls generalizing e rest with
  | case1 span left ih =>
    obtain ⟨operand, hoperand, rfl⟩ := underUnary_ok hread
    obtain ⟨he, hrest⟩ := ih (List.forall_mem_cons.mp hls).2 hoperand
    exact ⟨Expr.wellFormed_unary.mpr he, hrest⟩
  | case2 ls => exact yields_comparisonLevel h hls hread

theorem yields_exprWithin (depth : Nat) : Yields (exprWithin depth) Expr.WellFormed := by
  induction depth with
  | zero => exact .fails fun _ => ⟨_, rfl⟩
  | succ depth ih => exact yields_chained (yields_chained (yields_notLevel ih))

theorem yields_expr : Yields expr Expr.WellFormed :=
  fun ls _ _ hls hread => yields_exprWithin ls.length hls hread

end Expressions

section Statements

open Grammar Reader

theorem yields_filter : Yields optionalFilter fun o => ∀ e ∈ o, e.WellFormed :=
  yields_eat.bind fun _ _ => .ite (fun _ => yields_expr.some) fun _ => yields_none

theorem yields_insert : Yields insertStatement Dml.WellFormed := by
  refine yields_keyword.bind fun _ _ => yields_keyword.bind fun _ _ => ?_
  refine yields_name.bind fun ⟨table, place⟩ htable => ?_
  refine yields_columnList.bind fun columns hcolumns => yields_keyword.bind fun _ _ => ?_
  refine yields_symbol.bind fun _ _ => (yields_sepBy1 yields_expr).bind fun values hvalues => ?_
  refine yields_expect.bind fun close _ => ?_
  split
  · rename_i dml hdml
    unfold Dml.insert? at hdml
    split at hdml
    · rename_i hlength
      cases hdml
      exact .pure ⟨htable, hcolumns.2, hvalues.2, hcolumns.1, hlength⟩
    · cases hdml
  · exact yields_refuse

theorem yields_assignment : Yields assignment fun a =>
    isIdentifier a.1 = true ∧ a.2.WellFormed := by
  refine yields_name.bind fun ⟨column, _⟩ hcolumn => yields_symbol.bind fun _ _ => ?_
  exact yields_expr.bind fun value hvalue => .pure ⟨hcolumn, hvalue⟩

theorem yields_update : Yields updateStatement Dml.WellFormed := by
  refine yields_keyword.bind fun _ _ => yields_name.bind fun ⟨table, _⟩ htable => ?_
  refine yields_keyword.bind fun _ _ => ?_
  refine (yields_sepBy1 yields_assignment).bind fun assignments hassignments => ?_
  refine yields_filter.bind fun filter hfilter => .pure ⟨htable, ?_, ?_, hassignments.1⟩
  · exact List.forall_mem_map.mpr fun a ha => (hassignments.2 a ha).1
  · refine List.forall_mem_append.mpr ⟨?_, fun e he => hfilter e (Option.mem_toList.mp he)⟩
    exact List.forall_mem_map.mpr fun a ha => (hassignments.2 a ha).2

theorem yields_delete : Yields deleteStatement Dml.WellFormed := by
  refine yields_keyword.bind fun _ _ => yields_keyword.bind fun _ _ => ?_
  refine yields_name.bind fun ⟨table, _⟩ htable => yields_filter.bind fun filter hfilter => ?_
  exact .pure ⟨htable, nofun, fun e he => hfilter e (Option.mem_toList.mp he), trivial⟩

theorem yields_dml : Yields dml Dml.WellFormed := by
  refine yields_peek.bind fun _ _ => ?_
  split
  · exact yields_insert
  · exact yields_update
  · exact yields_delete
  · exact yields_refuseHere

theorem yields_template : Yields template fun p => p.1.WellFormed := by
  refine yields_name.bind fun ⟨name, place⟩ hname => yields_keyword.bind fun _ _ => ?_
  exact yields_dml.bind fun body hbody => .pure ⟨hname, hbody⟩

theorem yields_tableRef : Yields tableRef TableRef.WellFormed := by
  refine yields_name.bind fun table htable => yields_eat.bind fun _ _ => ?_
  have hother : Yields (expectName "table alias" >>= fun other =>
      pure ⟨table.1, some other.1⟩) TableRef.WellFormed :=
    yields_name.bind fun other h => .pure ⟨htable, forall_mem_some h⟩
  refine .ite (fun _ => hother) fun _ => yields_peek.bind fun _ _ => ?_
  split
  · exact hother
  · exact .pure ⟨htable, nofun⟩

theorem yields_skip {t : Token} : Yields (discard (eat t)) fun _ => True :=
  yields_eat.map fun _ _ => trivial

theorem yields_joinKind : Yields joinKind? fun _ => True := by
  refine yields_peek.bind fun _ _ => ?_
  split
  · exact .pure trivial
  · exact yields_skip.bind fun _ _ => .pure trivial
  · exact yields_skip.bind fun _ _ => yields_skip.bind fun _ _ => .pure trivial
  · exact .pure trivial

theorem yields_join : Yields join? fun o => ∀ j ∈ o, j.table.WellFormed ∧ j.on.WellFormed := by
  refine yields_joinKind.bind fun kind _ => ?_
  split
  · exact yields_none
  · refine yields_keyword.bind fun _ _ => yields_tableRef.bind fun table htable => ?_
    exact yields_keyword.bind fun _ _ => yields_expr.bind fun on hon => yields_one ⟨htable, hon⟩

theorem yields_select : Yields select Select.WellFormed := by
  refine yields_keyword.bind fun _ _ => (yields_sepBy1 yields_expr).bind fun items hitems => ?_
  refine yields_keyword.bind fun _ _ => yields_tableRef.bind fun source hsource => ?_
  rw [joins_eq_many]
  refine (yields_many yields_join).bind fun joins hjoins => ?_
  refine yields_filter.bind fun filter hfilter => .pure ⟨hitems.1, ?_, ?_⟩
  · exact List.forall_mem_cons.mpr ⟨hsource, List.forall_mem_map.mpr fun j hj => (hjoins j hj).1⟩
  · refine List.forall_mem_append.mpr ⟨List.forall_mem_append.mpr ⟨hitems.2, ?_⟩, ?_⟩
    · exact List.forall_mem_map.mpr fun j hj => (hjoins j hj).2
    · exact fun e he => hfilter e (Option.mem_toList.mp he)

theorem yields_union : Yields union? fun o => ∀ u ∈ o, u.2.WellFormed := by
  refine yields_eat.bind fun _ _ => .ite (fun _ => ?_) fun _ => yields_none
  exact yields_eat.bind fun _ _ => yields_select.bind fun s hs => yields_one hs

theorem yields_query : Yields query fun q => ∀ s ∈ q.selects, s.WellFormed := by
  refine yields_select.bind fun first hfirst => ?_
  rw [unions_eq_many]
  refine (yields_many yields_union).bind fun unions hunions => .pure ?_
  exact List.forall_mem_cons.mpr ⟨hfirst, List.forall_mem_map.mpr hunions⟩

end Statements

section Views

open Grammar Reader

theorem Hint.key_ofParts {key : HintKey} {value : Option String} {h : Hint}
    (hparts : Hint.ofParts? key value = some h) : h.key = key := by
  cases key <;> cases value <;> cases hparts <;> rfl

theorem yields_hintScope : Yields hintScope fun _ => True := by
  refine yields_next.bind fun l _ => ?_
  split
  · exact .pure trivial
  · split
    · exact .pure trivial
    · exact yields_refuse
  · exact yields_refuseLexeme

theorem yields_hintKey (target : HintTarget) :
    Yields (hintKey target) fun p => p.1.allowedOn target = true := by
  refine yields_next.bind fun l _ => ?_
  split
  · split
    · exact .ite (fun h => .pure h) fun _ => yields_refuse
    · exact yields_refuse
  · exact yields_refuseLexeme

theorem yields_hint (target : HintTarget) :
    Yields (hint target) fun entry => entry.hint.key.allowedOn target = true := by
  refine yields_hintScope.bind fun scope _ => ?_
  refine (yields_hintKey target).bind fun ⟨key, place⟩ hkey => yields_eat.bind fun _ _ => ?_
  refine .ite_bind (fun _ => yields_string.some) (fun _ => yields_none) fun value _ => ?_
  refine .ite (fun _ => yields_refuse) fun _ => ?_
  split
  · rename_i h hparts
    refine .pure ?_
    rw [Hint.key_ofParts hparts]
    exact hkey
  · exact yields_refuse

theorem settles_hintBlock (target : HintTarget) :
    Settles (hintBlock target) fun hints => hints.AllowedOn target := by
  have hone : ∀ read : Hints, read.AllowedOn target →
      Settles (do return read ++ [← hint target]) fun hints => hints.AllowedOn target :=
    fun read hread => .step (yields_hint target) fun entry hentry =>
      .pure (List.forall_mem_append.mpr ⟨hread, List.forall_mem_singleton.mpr hentry⟩)
  refine .step yields_keyword fun _ _ => .step yields_keyword fun _ _ => ?_
  refine .step yields_symbol fun _ _ => ?_
  refine (settles_sepBy1 (List.forall_mem_nil _) hone).bind fun hints hhints => ?_
  exact .step yields_symbol fun _ _ => .pure hhints

theorem settles_viewClause {selects : List (Option UnionKind × Select)} {draft : ViewDraft}
    (h : draft.selects = selects ∧ draft.hints.AllowedOn .view) :
    Settles (viewClause? draft) fun o => ∀ d ∈ o,
      d.selects = selects ∧ d.hints.AllowedOn .view := by
  refine .step yields_peek fun _ _ => ?_
  split
  · exact .step yields_keyword fun _ _ => .step yields_string fun _ _ => settles_one h
  · exact (settles_hintBlock .view).bind fun hints hhints => settles_one ⟨h.1, hhints⟩
  · exact settles_none

theorem settles_view : Settles view fun o => ∀ p ∈ o, p.1.WellFormed := by
  refine .step yields_name fun ⟨name, place⟩ _ => .step yields_columnList fun columns _ => ?_
  refine .step yields_keyword fun _ _ => .step yields_query fun q hq => ?_
  generalize hall : (none, q.first) :: q.unions.map (fun u => (some u.1, u.2)) = selects
  have hclauses : Settles (repeatClauses viewClause? { name, columns, selects }) fun draft =>
      draft.selects = selects ∧ draft.hints.AllowedOn .view :=
    settles_repeatClauses ⟨rfl, List.forall_mem_nil _⟩ fun _ h => settles_viewClause h
  refine hclauses.noting.bind fun ⟨draft, clean⟩ hdraft => ?_
  refine .ite (fun _ => settles_none) fun _ => ?_
  split
  · rename_i v hv
    obtain ⟨hvalid, hselects, hhints⟩ := ViewDraft.build_ok hv
    refine settles_one ⟨hvalid, ?_, hhints ▸ hdraft.2⟩
    have hquery : selects.map (·.2) = q.selects := by
      simp [← hall, Query.selects, Function.comp_def]
    rw [hselects, hdraft.1, hquery]
    exact hq
  · exact .recorded

end Views

section Tables

open Grammar Reader

theorem yields_orInvalid {α : Type} {P : α → Prop} {place : Span} {x : Except SchemaError α}
    (h : ∀ a, x = .ok a → P a) : Yields (orInvalid place x) P := by
  cases x with
  | ok a => exact .pure (h a rfl)
  | error e => exact yields_refuse

theorem yields_precisionAndScale : Yields precisionAndScale fun p => p.1 < 0x100000000 := by
  refine yields_symbol.bind fun _ _ => yields_count.bind fun precision hprecision => ?_
  refine yields_eat.bind fun _ _ => .ite_bind (fun _ => yields_count.some) (fun _ => yields_none) ?_
  exact fun scale _ => yields_symbol.bind fun _ _ => .pure hprecision

theorem yields_length : Yields lengthInParentheses (· < 0x100000000) := by
  refine yields_symbol.bind fun _ _ => yields_count.bind fun length hlength => ?_
  exact yields_symbol.bind fun _ _ => .pure hlength

theorem DataType.decimal_ok {precision scale : Nat} {t : DataType}
    (h : DataType.decimal? precision scale = .ok t) :
    scale ≤ precision ∧ t = .decimal precision scale := by
  unfold DataType.decimal? at h
  split at h
  · cases h
  · cases h
    exact ⟨by omega, rfl⟩

theorem yields_dataType : Yields dataType DataType.WellFormed := by
  refine yields_next.bind fun l _ => ?_
  split
  case h_10 =>
    refine yields_precisionAndScale.bind fun ⟨precision, scale⟩ hprecision => ?_
    refine yields_orInvalid fun t ht => ?_
    obtain ⟨hscale, rfl⟩ := DataType.decimal_ok ht
    exact ⟨hprecision, hscale⟩
  case h_11 =>
    refine yields_isAt.bind fun _ _ => .ite (fun _ => ?_) fun _ => .pure rfl
    refine yields_precisionAndScale.bind fun ⟨precision, scale⟩ hprecision => ?_
    have hscale : Yields (discard (orInvalid l.span (DataType.decimal? precision (scale.getD 0))))
        fun _ => scale.getD 0 ≤ precision :=
      (yields_orInvalid fun _ ht => DataType.decimal_ok ht).map fun _ h => h.1
    exact hscale.bind fun _ hscale => .pure ⟨hprecision, hscale⟩
  case h_12 =>
    refine yields_length.bind fun length hlength => yields_orInvalid fun t ht => ?_
    unfold DataType.char? at ht
    split at ht <;> cases ht
    exact ⟨by omega, hlength⟩
  case h_13 =>
    refine yields_length.bind fun length hlength => yields_orInvalid fun t ht => ?_
    unfold DataType.varchar? at ht
    split at ht <;> cases ht
    exact ⟨by omega, hlength⟩
  case h_14 => exact yields_refuseLexeme
  all_goals exact .pure trivial

theorem yields_literal : Yields literal Literal.WellFormed := by
  refine yields_eat.bind fun _ _ => yields_next.bind fun l hl => ?_
  split
  · exact yields_numberLiteral hl _
  · exact yields_numberLiteral hl _
  · exact .pure trivial
  · exact .pure trivial
  · exact yields_refuseLexeme

theorem yields_defaultValue : Yields defaultValue DefaultValue.WellFormed :=
  yields_eat.bind fun _ _ => .ite (fun _ => .pure trivial) fun _ => yields_literal.map fun _ h => h

theorem yields_referentialAction : Yields referentialAction fun _ => True := by
  refine yields_next.bind fun l _ => ?_
  split
  · exact .pure trivial
  · exact .pure trivial
  · exact yields_keyword.bind fun _ _ => .pure trivial
  · exact yields_keyword.bind fun _ _ => .pure trivial
  · exact yields_refuseLexeme

theorem yields_actionClause {r : Reference} (h : r.WellFormed) :
    Yields (actionClause? r) fun o => ∀ r ∈ o, r.WellFormed := by
  refine yields_eat.bind fun _ _ => .ite (fun _ => ?_) fun _ => yields_none
  refine yields_next.bind fun l _ => ?_
  split
  · exact yields_referentialAction.bind fun action _ => yields_one ⟨h.table, h.column⟩
  · exact yields_referentialAction.bind fun action _ => yields_one ⟨h.table, h.column⟩
  · exact yields_refuseLexeme

theorem yields_actionClauses {r : Reference} (h : r.WellFormed) :
    Yields (actionClauses r) Reference.WellFormed := by
  intro ls last rest hls hread
  fun_induction actionClauses r ls generalizing last rest with
  | case1 r ls e he => cases hread
  | case2 r ls left hnone =>
    cases hread
    exact ⟨h, (yields_actionClause h hls hnone).2⟩
  | case3 r ls r' left hsome hlength ih =>
    obtain ⟨hr', hleft⟩ := yields_actionClause h hls hsome
    exact ih (hr' r' rfl) hleft hread
  | case4 r ls r' left hsome hlength =>
    cases hread
    obtain ⟨hr', hleft⟩ := yields_actionClause h hls hsome
    exact ⟨hr' r' rfl, hleft⟩

theorem yields_references : Yields references Reference.WellFormed := by
  refine yields_keyword.bind fun _ _ => yields_name.bind fun ⟨table, _⟩ htable => ?_
  refine yields_symbol.bind fun _ _ => yields_name.bind fun ⟨column, _⟩ hcolumn => ?_
  exact yields_symbol.bind fun _ _ => yields_actionClauses ⟨htable, hcolumn⟩

/-- The parts of a draft can be written down; keys and names are left to the builder. -/
structure TableDraft.WellFormed (d : TableDraft) : Prop where
  columns : ∀ c ∈ d.columns, c.WellFormed
  indexes : ∀ i ∈ d.indexes, i.hints.AllowedOn .index
  foreignKeys : ∀ f ∈ d.foreignKeys, f.reference.WellFormed
  onDelete : ∀ block ∈ d.onDelete, ∀ statement ∈ block, statement.WellFormed
  hints : d.hints.AllowedOn .table

theorem settles_columnOption {d : ColumnDraft} (hc : d.column.WellFormed)
    (ht : d.table.WellFormed) :
    Settles (columnOption? d) fun o => ∀ d ∈ o, d.column.WellFormed ∧ d.table.WellFormed := by
  refine .step yields_peek fun _ _ => ?_
  split
  · refine .step yields_keyword fun _ _ => .step yields_keyword fun _ _ => ?_
    exact settles_one ⟨{ hc with }, ht⟩
  · exact .step yields_keyword fun _ _ => settles_one ⟨{ hc with }, ht⟩
  · refine .step yields_keyword fun _ _ => .step yields_defaultValue fun value hvalue => ?_
    exact settles_one ⟨{ hc with default := forall_mem_some hvalue }, ht⟩
  · refine .step yields_keyword fun _ _ => .step yields_keyword fun _ _ => ?_
    exact settles_one ⟨{ hc with }, { ht with }⟩
  · exact .step yields_keyword fun _ _ => settles_one ⟨hc, { ht with }⟩
  · refine .step yields_references fun reference href => ?_
    exact settles_one ⟨{ hc with reference := forall_mem_some href }, ht⟩
  · refine .step yields_keyword fun _ _ => .step yields_string fun _ _ => ?_
    exact settles_one ⟨{ hc with }, ht⟩
  · refine (settles_hintBlock .column).bind fun hints hhints => ?_
    exact settles_one ⟨{ hc with hints := hhints }, ht⟩
  · exact settles_none

theorem settles_column {d : TableDraft} (h : d.WellFormed) :
    Settles (column d) TableDraft.WellFormed := by
  refine .step yields_name fun ⟨name, place⟩ hname => .step yields_dataType fun type htype => ?_
  have hfirst : Column.WellFormed { name, dataType := type } :=
    ⟨hname, htype, nofun, nofun, List.forall_mem_nil _⟩
  have hoptions : Settles (repeatClauses columnOption? ⟨{ name, dataType := type }, d⟩) fun d =>
      d.column.WellFormed ∧ d.table.WellFormed :=
    settles_repeatClauses ⟨hfirst, h⟩ fun _ h => settles_columnOption h.1 h.2
  refine hoptions.bind fun draft ⟨hcolumn, htable⟩ => ?_
  refine .step (yields_orInvalid fun _ hbuild => (Column.build_ok_iff.mp hbuild).2) ?_
  rintro _ rfl
  exact .pure { htable with
    columns := List.forall_mem_append.mpr ⟨htable.columns, List.forall_mem_singleton.mpr hcolumn⟩ }

theorem yields_keyElement {d : TableDraft} (h : d.WellFormed) (name : Option String) :
    Yields (keyElement? d name) fun o => ∀ d ∈ o, d.WellFormed := by
  refine yields_peek.bind fun _ _ => ?_
  split
  · refine yields_keyword.bind fun _ _ => yields_keyword.bind fun _ _ => ?_
    exact yields_columnList.bind fun columns _ => yields_one { h with }
  · exact yields_keyword.bind fun _ _ => yields_columnList.bind fun _ _ => yields_one { h with }
  · refine yields_keyword.bind fun _ _ => yields_keyword.bind fun _ _ => ?_
    refine yields_symbol.bind fun _ _ => yields_name.bind fun ⟨column, _⟩ _ => ?_
    refine yields_symbol.bind fun _ _ => yields_references.bind fun reference href => ?_
    exact yields_one { h with
      foreignKeys := List.forall_mem_append.mpr
        ⟨h.foreignKeys, List.forall_mem_singleton.mpr href⟩ }
  · exact yields_none

theorem settles_indexElement {d : TableDraft} (h : d.WellFormed) :
    Settles (indexElement d) TableDraft.WellFormed := by
  refine .step yields_keyword fun _ _ => .step yields_name fun ⟨name, _⟩ _ => ?_
  refine .step yields_columnList fun columns _ => .step yields_isAt fun _ _ => ?_
  have hindex : ∀ hints : Hints, hints.AllowedOn .index →
      Settles (pure (d.addIndex ⟨name, columns, hints⟩)) TableDraft.WellFormed :=
    fun hints hhints => .pure { h with
      indexes := List.forall_mem_append.mpr ⟨h.indexes, List.forall_mem_singleton.mpr hhints⟩ }
  refine .ite (fun _ => (settles_hintBlock .index).bind hindex) fun _ => ?_
  exact (Settles.pure (List.forall_mem_nil _)).bind hindex

theorem settles_tableElement {d : TableDraft} (h : d.WellFormed) :
    Settles (tableElement d) TableDraft.WellFormed := by
  refine .step yields_eat fun _ _ => .ite (fun _ => ?_) fun _ => ?_
  · refine .step yields_name fun ⟨name, _⟩ _ => .step (yields_keyElement h _) fun o ho => ?_
    split
    · exact .pure (ho _ rfl)
    · exact .lift yields_refuseHere
  · refine .step (yields_keyElement h _) fun o ho => ?_
    split
    · exact .pure (ho _ rfl)
    · refine .step yields_isAt fun _ _ => ?_
      exact .ite (fun _ => settles_indexElement h) fun _ => settles_column h

theorem settles_anotherDml {read : List Dml} (h : ∀ d ∈ read, d.WellFormed) :
    Settles (do return read ++ [← dml]) fun read => ∀ d ∈ read, d.WellFormed :=
  .step yields_dml fun _ hd =>
    .pure (List.forall_mem_append.mpr ⟨h, List.forall_mem_singleton.mpr hd⟩)

theorem actionStatements_settles {read last : List Dml} {ls left : List Lexeme}
    (h : ∀ d ∈ read, d.WellFormed) (hls : ValidTokens ls)
    (hread : actionStatements read ls = ([], last, left)) :
    (∀ d ∈ last, d.WellFormed) ∧ ValidTokens left := by
  fun_induction actionStatements read ls generalizing last left with
  | case1 read =>
    cases hread
    exact ⟨h, hls⟩
  | case2 read l ls hl =>
    cases hread
    exact ⟨h, hls⟩
  | case3 read l ls hl recorded read' s rest hitem hs more final remaining hmore ih =>
    obtain ⟨hrecorded, hend⟩ := Prod.mk.inj hread
    obtain ⟨rfl, rfl⟩ := List.append_eq_nil_iff.mp hrecorded
    obtain ⟨hread', hrest⟩ := itemOrSkip_settles (settles_anotherDml h) hls hitem
    exact ih hread' (List.forall_mem_cons.mp hrest).2 (hend ▸ hmore)
  | case4 read l ls hl recorded read' s rest hitem hs =>
    cases hread
    exact itemOrSkip_settles (settles_anotherDml h) hls hitem
  | case5 read l ls hl recorded read' hitem =>
    cases hread
    exact itemOrSkip_settles (settles_anotherDml h) hls hitem

theorem settles_actionBlock : Settles actionBlock fun block => ∀ d ∈ block, d.WellFormed := by
  have hstatements : Settles (fun ls =>
      ⟨(actionStatements [] ls).1, .ok (actionStatements [] ls).2⟩)
      fun block => ∀ d ∈ block, d.WellFormed := by
    intro ls block rest hls hread
    cases hs : actionStatements [] ls with
    | mk recorded p =>
      dsimp only at hread
      rw [hs] at hread
      cases hread
      exact actionStatements_settles (List.forall_mem_nil _) hls hs
  refine .step yields_symbol fun _ _ => hstatements.bind fun block hblock => ?_
  exact .step yields_symbol fun _ _ => .pure hblock

theorem settles_tableClause {d : TableDraft} (h : d.WellFormed) :
    Settles (tableClause? d) fun o => ∀ d ∈ o, d.WellFormed := by
  refine .step yields_peek fun _ _ => ?_
  split
  · exact .step yields_keyword fun _ _ => .step yields_string fun _ _ => settles_one { h with }
  · refine .step yields_keyword fun _ _ => .step yields_keyword fun _ _ => ?_
    refine settles_actionBlock.bind fun block hblock => ?_
    exact settles_one { h with onDelete := forall_mem_some hblock }
  · exact (settles_hintBlock .table).bind fun hints hhints => settles_one { h with hints := hhints }
  · exact settles_none

theorem TableDraft.WellFormed.build {d : TableDraft} (h : d.WellFormed) {t : Table}
    (ht : d.build = .ok t) : t.WellFormed := by
  obtain ⟨hvalid, -, honDelete, -, hcolumns, -, hindexes, hforeignKeys, -, hhints⟩ :=
    TableDraft.build_ok ht
  refine ⟨hvalid, hcolumns ▸ h.columns, hindexes ▸ h.indexes, hforeignKeys ▸ h.foreignKeys, ?_,
    hhints ▸ h.hints⟩
  unfold TableDraft.checkedOnDelete at honDelete
  split at honDelete
  · cases honDelete
  · rename_i block hne hsome
    rw [← Except.ok.inj honDelete]
    exact h.onDelete block hsome
  · rw [← Except.ok.inj honDelete]
    exact List.forall_mem_nil _

theorem settles_table : Settles table fun o => ∀ p ∈ o, p.1.WellFormed := by
  refine .step yields_name fun ⟨name, place⟩ _ => .step yields_symbol fun _ _ => ?_
  have hempty : TableDraft.WellFormed { name } :=
    ⟨List.forall_mem_nil _, List.forall_mem_nil _, List.forall_mem_nil _, nofun,
      List.forall_mem_nil _⟩
  refine (settles_sepBy1 hempty fun _ => settles_tableElement).noting.bind ?_
  rintro ⟨elements, clean⟩ helements
  refine .step yields_isAt fun _ _ => .ite (fun _ => settles_none) fun _ => ?_
  refine .step yields_symbol fun _ _ => ?_
  refine (settles_repeatClauses helements fun _ => settles_tableClause).noting.bind ?_
  rintro ⟨draft, cleanClauses⟩ hdraft
  refine .ite (fun _ => settles_none) fun _ => ?_
  split
  · rename_i t ht
    exact settles_one (hdraft.build ht)
  · exact .recorded

end Tables

section Schemas

open Grammar Reader

theorem settles_addOrDuplicate {α : Type} {kind : ArtifactKind} {name : String} {place : Span}
    {known : Bool} {add : α → Schema} {s : Schema} {a : α} (h : (add a).PartsWellFormed) :
    Settles (addOrDuplicate kind name place known add s a) Schema.PartsWellFormed :=
  .ite (fun _ => .recorded) fun _ => .pure h

theorem settles_statement {s : Schema} (h : s.PartsWellFormed) :
    Settles (statement s) Schema.PartsWellFormed := by
  refine .step yields_keyword fun _ _ => .step yields_next fun l _ => ?_
  split
  · refine settles_table.bind fun read hread => .step yields_symbol fun _ _ => ?_
    split
    · exact .pure h
    · rename_i t place
      refine settles_addOrDuplicate { h with tables := ?_ }
      exact List.forall_mem_append.mpr ⟨h.tables, List.forall_mem_singleton.mpr (hread _ rfl)⟩
  · refine settles_view.bind fun read hread => .step yields_symbol fun _ _ => ?_
    split
    · exact .pure h
    · rename_i v place
      refine settles_addOrDuplicate { h with views := ?_ }
      exact List.forall_mem_append.mpr ⟨h.views, List.forall_mem_singleton.mpr (hread _ rfl)⟩
  · refine .step yields_template fun ⟨d, place⟩ hd => .step yields_symbol fun _ _ => ?_
    refine settles_addOrDuplicate { h with statements := ?_ }
    exact List.forall_mem_append.mpr ⟨h.statements, List.forall_mem_singleton.mpr hd⟩
  · exact .lift yields_refuseLexeme

theorem statements_settles {s last : Schema} {ls : List Lexeme} (h : s.PartsWellFormed)
    (hls : ValidTokens ls) (hread : statements s ls = ([], last)) : last.PartsWellFormed := by
  fun_induction statements s ls generalizing last with
  | case1 s =>
    cases hread
    exact h
  | case2 s l ls recorded s' left hs hlength more final hmore ih =>
    obtain ⟨hrecorded, hend⟩ := Prod.mk.inj hread
    obtain ⟨rfl, rfl⟩ := List.append_eq_nil_iff.mp hrecorded
    obtain ⟨hs', hleft⟩ := settles_statement h hls hs
    exact ih hs' hleft (hend ▸ hmore)
  | case3 s l ls recorded s' left hs hlength =>
    cases hread
    exact (settles_statement h hls hs).1
  | case4 s l ls recorded e hs more final hmore ih => simp at hread

/-- Whatever is read without a mistake can be written down again. -/
theorem wellFormed_of_parse {source : String} {s : Schema} (h : Schema.parse source = .ok s) :
    s.WellFormed := by
  have hempty : Schema.PartsWellFormed .empty :=
    ⟨List.forall_mem_nil _, List.forall_mem_nil _, List.forall_mem_nil _⟩
  unfold Schema.parse at h
  dsimp only at h
  split at h
  · rename_i read hread
    split at h
    · cases h
      unfold schemaOfLexemes at hread
      split at hread
      · rename_i s' hstatements
        split at hread
        · rename_i built hbuilt
          cases hread
          cases Schema.eq_of_build hbuilt
          exact ⟨statements_settles hempty (scanFrom_valid 0 _) hstatements, hbuilt⟩
        · cases hread
      · cases hread
    · cases h
  · cases h

end Schemas

end Schemata
