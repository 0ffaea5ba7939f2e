import Schemata.Proofs.ParsedWellFormed

/-! Where a reader finds a mistake. Each mistake is at a token, from one token to another, or at the
end of the input, so that it is as well placed as the tokens are. -/
namespace Schemata

open Grammar Reader

section Regions

/-- Spans of which any two are covered by a third one. -/
structure Region where
  Contains : Span → Prop
  cover : ∀ {s t : Span}, Contains s → Contains t → Contains (s.cover t)

variable (G : Region) {α β σ : Type} {P : α → Prop} {Q : β → Prop}

def TokensIn (ls : List Lexeme) : Prop :=
  ∀ l ∈ ls, G.Contains l.span

/-- The refusal has its place in the region, if it has one. -/
def Refusal.In (e : Refusal) : Prop :=
  ∀ place ∈ e.place, G.Contains place

/-- A refusal in the region, or something with `P` and tokens in the region. -/
inductive ResultIn (P : α → Prop) : Except Refusal (α × List Lexeme) → Prop
  | refused {e : Refusal} (h : e.In G) : ResultIn P (.error e)
  | read {a : α} {rest : List Lexeme} (ha : P a) (hrest : TokensIn G rest) :
    ResultIn P (.ok (a, rest))

/-- From tokens in the region the reader leaves a result in it. -/
def Points (r : Reader α) (P : α → Prop) : Prop :=
  ∀ ⦃ls⦄, TokensIn G ls → ResultIn G P (r ls)

/-- The same with the mistakes on record. -/
def Reports (r : Recovering α) (P : α → Prop) : Prop :=
  ∀ ⦃ls⦄, TokensIn G ls → (∀ e ∈ (r ls).recorded, e.In G) ∧ ResultIn G P (r ls).result

/-- The mistakes on record are in the region, and so are the tokens that are left. -/
def GathersIn (x : List Refusal × σ × List Lexeme) : Prop :=
  (∀ e ∈ x.1, e.In G) ∧ TokensIn G x.2.2

variable {G}

theorem ResultIn.of_error {x : Except Refusal (α × List Lexeme)} {e : Refusal}
    (h : ResultIn G P x) (hx : x = .error e) : e.In G := by
  subst hx
  cases h with
  | refused h => exact h

theorem ResultIn.of_ok {x : Except Refusal (α × List Lexeme)} {a : α} {rest : List Lexeme}
    (h : ResultIn G P x) (hx : x = .ok (a, rest)) : P a ∧ TokensIn G rest := by
  subst hx
  cases h with
  | read ha hrest => exact ⟨ha, hrest⟩

theorem TokensIn.tail {l : Lexeme} {ls : List Lexeme} (h : TokensIn G (l :: ls)) :
    TokensIn G ls :=
  (List.forall_mem_cons.mp h).2

theorem TokensIn.of_suffix {ls rest : List Lexeme} (h : TokensIn G ls) (hrest : rest <:+ ls) :
    TokensIn G rest :=
  fun l hl => h l (hrest.subset hl)

namespace Points

theorem pure {a : α} (h : P a) : Points G (pure a : Reader α) P :=
  fun _ hls => .read h hls

theorem bind {r : Reader α} {f : α → Reader β} (hr : Points G r P)
    (hf : ∀ a, P a → Points G (f a) Q) : Points G (r >>= f) Q := by
  intro ls hls
  have hread := hr hls
  change ResultIn G Q (r ls >>= fun p => f p.1 p.2)
  generalize r ls = x at hread
  cases hread with
  | refused h => exact .refused h
  | @read a rest ha hrest => exact hf a ha hrest

theorem map {r : Reader α} {f : α → β} (hr : Points G r P) (h : ∀ a, P a → Q (f a)) :
    Points G (f <$> r) Q := by
  rw [map_eq_pure_bind]
  exact hr.bind fun a ha => .pure (h a ha)

/-- What is read need not be looked at. -/
theorem any {r : Reader α} (hr : Points G r P) (f : α → β) : Points G (f <$> r) fun _ => True :=
  hr.map fun _ _ => trivial

theorem ite {b : Prop} [Decidable b] {r s : Reader α} (hr : Points G r P) (hs : Points G s P) :
    Points G (if b then r else s) P := by
  split
  · exact hr
  · exact hs

/-- Both ways go on alike. -/
theorem ite_bind {b : Prop} [Decidable b] {r s : Reader α} {k : α → Reader β}
    (hr : Points G r P) (hs : Points G s P) (hk : ∀ a, P a → Points G (k a) Q) :
    Points G (if b then r >>= k else s >>= k) Q :=
  .ite (hr.bind hk) (hs.bind hk)

end Points

namespace Reports

variable {r s : Recovering α}

theorem pure {a : α} (h : P a) : Reports G (Pure.pure a) P :=
  fun _ hls => ⟨List.forall_mem_nil _, .read h hls⟩

theorem bind {f : α → Recovering β} (hr : Reports G r P) (hf : ∀ a, P a → Reports G (f a) Q) :
    Reports G (r >>= f) Q := by
  intro ls hls
  obtain ⟨hrecorded, hresult⟩ := hr hls
  simp only [Bind.bind]
  generalize r ls = o at hrecorded hresult
  obtain ⟨recorded, result⟩ := o
  cases hresult with
  | refused h => exact ⟨hrecorded, .refused h⟩
  | @read a rest ha hrest =>
    obtain ⟨hlater, hend⟩ := hf a ha hrest
    exact ⟨List.forall_mem_append.mpr ⟨hrecorded, hlater⟩, hend⟩

theorem ite {b : Prop} [Decidable b] (hr : Reports G r P) (hs : Reports G s P) :
    Reports G (if b then r else s) P := by
  split
  · exact hr
  · exact hs

theorem lift {r : Reader α} (h : Points G r P) : Reports G (liftM r) P :=
  fun _ hls => ⟨List.forall_mem_nil _, h hls⟩

/-- A step by a plain reader. -/
theorem step {r : Reader α} {f : α → Recovering β} (hr : Points G r P)
    (hf : ∀ a, P a → Reports G (f a) Q) : Reports G (liftM r >>= f) Q :=
  (lift hr).bind hf

theorem noting (h : Reports G r P) : Reports G r.noting fun p => P p.1 := by
  intro ls hls
  obtain ⟨hrecorded, hresult⟩ := h hls
  unfold Recovering.noting
  generalize r ls = o at hrecorded hresult
  obtain ⟨recorded, result⟩ := o
  cases hresult with
  | refused h => exact ⟨hrecorded, .refused h⟩
  | read ha hrest => exact ⟨hrecorded, .read ha hrest⟩

theorem record {fault : Fault} {place : Span} (h : G.Contains place) :
    Reports G (Recovering.record fault place) fun _ => True := by
  intro ls hls
  refine ⟨List.forall_mem_singleton.mpr ?_, .read trivial hls⟩
  rintro _ ⟨⟩
  exact h

end Reports

section Tokens

variable {l : Lexeme} {expected : String} {t : Token}

theorem points_refuse {fault : Fault} {place : Span} (h : G.Contains place) :
    Points G (refuse fault place) P := by
  refine fun ls _ => .refused ?_
  rintro _ ⟨⟩
  exact h

theorem points_refuseEnd : Points G (refuseEnd expected) P :=
  fun _ _ => .refused nofun

theorem points_refuseLexeme (h : G.Contains l.span) : Points G (refuseLexeme expected l) P :=
  points_refuse h

theorem points_refuseHere : Points G (refuseHere expected) P := by
  intro ls hls
  cases ls with
  | nil => exact points_refuseEnd hls
  | cons l ls => exact points_refuseLexeme (List.forall_mem_cons.mp hls).1 hls

theorem points_peek : Points G peek? fun _ => True :=
  fun _ hls => .read trivial hls

theorem points_isAt : Points G (isAt t) fun _ => True :=
  points_peek.bind fun _ _ => .pure trivial

theorem points_next : Points G (next expected) fun l => G.Contains l.span := by
  intro ls hls
  cases ls with
  | nil => exact points_refuseEnd hls
  | cons l ls => exact .read (List.forall_mem_cons.mp hls).1 hls.tail

theorem points_eat : Points G (eat t) fun _ => True := by
  intro ls hls
  unfold eat
  split
  · exact .read trivial hls
  split
  · exact .read trivial hls.tail
  · exact .read trivial hls

theorem points_expect : Points G (expect t) fun l => G.Contains l.span :=
  points_next.bind fun _ hl => .ite (.pure hl) (points_refuseLexeme hl)

theorem points_keyword {k : Keyword} : Points G (expectKeyword k) fun _ => True :=
  points_expect.map fun _ _ => trivial

theorem points_symbol {s : Symbol} : Points G (expectSymbol s) fun _ => True :=
  points_expect.map fun _ _ => trivial

theorem points_name : Points G (expectName expected) fun p => G.Contains p.2 := by
  refine points_next.bind fun l hl => ?_
  split
  · exact .pure hl
  · exact points_refuseLexeme hl

theorem points_string : Points G expectString fun _ => True := by
  refine points_next.bind fun l hl => ?_
  split
  · exact .pure trivial
  · exact points_refuseLexeme hl

theorem points_count : Points G expectCount fun _ => True := by
  refine points_next.bind fun l hl => ?_
  split
  · exact .ite (.pure trivial) (points_refuse hl)
  · exact points_refuseLexeme hl

end Tokens

section Loops

variable {ls : List Lexeme} {sep : Symbol}

theorem points_many {item? : Reader (Option α)} (h : Points G item? fun _ => True) :
    Points G (many item?) fun _ => True := by
  intro ls hls
  fun_induction many item? ls with
  | case1 ls e he => exact .refused ((h hls).of_error he)
  | case2 ls left hnone => exact .read trivial ((h hls).of_ok hnone).2
  | case3 ls a left hsome hlength e he ih =>
    exact .refused ((ih ((h hls).of_ok hsome).2).of_error he)
  | case4 ls a left hsome hlength as last hmore ih =>
    exact .read trivial ((ih ((h hls).of_ok hsome).2).of_ok hmore).2
  | case5 ls a left hsome hlength => exact .read trivial ((h hls).of_ok hsome).2

theorem points_sepBy1 {item : Reader α} (h : Points G item P) :
    Points G (sepBy1 sep item) fun _ => True := by
  have hmore : Points G (itemAfter? sep item) fun _ => True :=
    points_eat.bind fun _ _ => .ite (h.any _) (.pure trivial)
  refine h.bind fun a _ => ?_
  rw [moreItems_eq_many]
  exact (points_many hmore).bind fun _ _ => .pure trivial

theorem points_columnList : Points G columnList fun _ => True :=
  points_symbol.bind fun _ _ => (points_sepBy1 (points_name.any _)).bind fun _ _ =>
    points_symbol.bind fun _ _ => .pure trivial

theorem skipToSeparator_suffix (sep : Symbol) (depth : Nat) (ls : List Lexeme) :
    skipToSeparator sep depth ls <:+ ls := by
  fun_induction skipToSeparator sep depth ls <;> simp_all [List.suffix_cons_iff]

theorem skipStatementRest_suffix (depth : Nat) (ls : List Lexeme) :
    skipStatementRest depth ls <:+ ls := by
  fun_induction skipStatementRest depth ls <;> simp_all [List.suffix_cons_iff]

theorem gathersIn_itemOrSkip {item : σ → Recovering σ} {acc : σ}
    (h : Reports G (item acc) fun _ => True) (hls : TokensIn G ls) :
    GathersIn G (Recovering.itemOrSkip sep item acc ls) := by
  obtain ⟨hrecorded, hresult⟩ := h hls
  unfold Recovering.itemOrSkip
  generalize item acc ls = o at hrecorded hresult
  obtain ⟨recorded, result⟩ := o
  cases hresult with
  | refused he =>
    exact ⟨List.forall_mem_append.mpr ⟨hrecorded, List.forall_mem_singleton.mpr he⟩,
      hls.of_suffix (skipToSeparator_suffix sep 0 ls)⟩
  | read _ hrest => exact ⟨hrecorded, hrest⟩

theorem gathersIn_gather {item : σ → Recovering σ}
    (h : ∀ acc, Reports G (item acc) fun _ => True) (acc : σ) (hls : TokensIn G ls) :
    GathersIn G (Recovering.gather sep item acc ls) := by
  fun_induction Recovering.gather sep item acc ls with
  | case1 acc ls recorded acc' l rest hitem hl hlength more final remaining hmore ih =>
    obtain ⟨hrecorded, hrest⟩ := hitem ▸ gathersIn_itemOrSkip (h acc) hls
    obtain ⟨hlater, hleft⟩ := hmore ▸ ih hrest.tail
    exact ⟨List.forall_mem_append.mpr ⟨hrecorded, hlater⟩, hleft⟩
  | case2 acc ls recorded acc' l rest hitem hl hlength =>
    obtain ⟨hrecorded, hrest⟩ := hitem ▸ gathersIn_itemOrSkip (h acc) hls
    exact ⟨hrecorded, hrest.tail⟩
  | case3 acc ls recorded acc' l rest hitem hl =>
    exact hitem ▸ gathersIn_itemOrSkip (h acc) hls
  | case4 acc ls recorded acc' hitem =>
    exact hitem ▸ gathersIn_itemOrSkip (h acc) hls

theorem GathersIn.reports {f : List Lexeme → List Refusal × σ × List Lexeme}
    (h : ∀ ls, TokensIn G ls → GathersIn G (f ls)) :
    Reports G (fun ls => ⟨(f ls).1, .ok (f ls).2⟩) fun _ => True :=
  fun ls hls => ⟨(h ls hls).1, .read trivial (h ls hls).2⟩

theorem reports_sepBy1 {item : σ → Recovering σ} (h : ∀ acc, Reports G (item acc) fun _ => True)
    (acc : σ) : Reports G (Recovering.sepBy1 item acc) fun _ => True :=
  GathersIn.reports fun _ => gathersIn_gather h acc

theorem reports_repeatClauses {clause? : σ → Recovering (Option σ)}
    (h : ∀ acc, Reports G (clause? acc) fun _ => True) (acc : σ) :
    Reports G (repeatClauses clause? acc) fun _ => True := by
  intro ls hls
  unfold repeatClauses
  fun_induction repeatClauses.go clause? acc ls with
  | case1 acc ls recorded e hclause =>
    obtain ⟨hrecorded, hresult⟩ := hclause ▸ h acc hls
    exact ⟨hrecorded, .refused (hresult.of_error rfl)⟩
  | case2 acc ls recorded left hclause =>
    obtain ⟨hrecorded, hresult⟩ := hclause ▸ h acc hls
    exact ⟨hrecorded, .read trivial (hresult.of_ok rfl).2⟩
  | case3 acc ls recorded acc' left hclause hlength later ih =>
    obtain ⟨hrecorded, hresult⟩ := hclause ▸ h acc hls
    obtain ⟨hlater, hend⟩ := ih (hresult.of_ok rfl).2
    exact ⟨List.forall_mem_append.mpr ⟨hrecorded, hlater⟩, hend⟩
  | case4 acc ls recorded acc' left hclause hlength =>
    obtain ⟨hrecorded, hresult⟩ := hclause ▸ h acc hls
    exact ⟨hrecorded, .read trivial (hresult.of_ok rfl).2⟩

end Loops

section Expressions

variable {nested operand : Reader Expr} {l : Lexeme}

theorem points_numberLiteral (h : G.Contains l.span) (negative : Bool) :
    Points G (numberLiteral negative l) fun _ => True := by
  unfold numberLiteral
  dsimp only
  split
  · exact .pure trivial
  · exact .ite (.pure trivial) (points_refuse h)
  · exact points_refuseLexeme h

theorem points_whenBranch (h : Points G nested fun _ => True) :
    Points G (whenBranch nested) fun _ => True :=
  points_keyword.bind fun _ _ => h.bind fun _ _ => points_keyword.bind fun _ _ =>
    h.bind fun _ _ => .pure trivial

theorem points_caseTail (h : Points G nested fun _ => True) :
    Points G (caseTail nested) fun _ => True := by
  have hmore : Points G (whenBranch? nested) fun _ => True :=
    points_isAt.bind fun _ _ => .ite ((points_whenBranch h).any _) (.pure trivial)
  refine points_isAt.bind fun _ _ => .ite_bind (.pure trivial) (h.any _) fun _ _ => ?_
  refine (points_whenBranch h).bind fun _ _ => ?_
  rw [moreBranches_eq_many]
  refine (points_many hmore).bind fun _ _ => points_eat.bind fun _ _ => ?_
  refine .ite_bind (h.any _) (.pure trivial) fun _ _ => ?_
  exact points_keyword.bind fun _ _ => .pure trivial

theorem points_columnTail (word : String) : Points G (columnTail word) fun _ => True :=
  points_eat.bind fun _ _ => .ite (points_name.bind fun _ _ => .pure trivial) (.pure trivial)

theorem points_nameTail (h : Points G nested fun _ => True) (word : String) :
    Points G (nameTail nested word) fun _ => True := by
  refine points_eat.bind fun _ _ => .ite ?_ (points_columnTail word)
  refine points_isAt.bind fun _ _ => .ite_bind (.pure trivial) (points_sepBy1 h) fun _ _ => ?_
  exact points_symbol.bind fun _ _ => .pure trivial

theorem points_primary (h : Points G nested fun _ => True) :
    Points G (primary nested) fun _ => True := by
  refine points_next.bind fun l hl => ?_
  split
  · exact .pure trivial
  · exact .pure trivial
  · exact (points_numberLiteral hl false).any _
  · exact (points_numberLiteral hl false).any _
  · exact .pure trivial
  · exact h.bind fun _ _ => points_symbol.bind fun _ _ => .pure trivial
  · exact points_caseTail h
  · exact points_nameTail h _
  · exact points_columnTail _
  · exact points_refuseLexeme hl

theorem ResultIn.underUnary {op : UnaryOp} {x : Except Refusal (Expr × List Lexeme)}
    (h : ResultIn G (fun _ => True) x) : ResultIn G (fun _ => True) (underUnary op x) := by
  cases h with
  | refused h => exact .refused h
  | read _ hrest => exact .read trivial hrest

theorem points_unaryLevel (h : Points G nested fun _ => True) :
    Points G (unaryLevel nested) fun _ => True := by
  intro ls hls
  fun_induction unaryLevel nested ls with
  | case1 span l left hnumber =>
    have hl : G.Contains l.span := (List.forall_mem_cons.mp hls.tail).1
    exact (points_numberLiteral hl true).any _ hls.tail.tail
  | case2 span l left hnumber ih => exact (ih hls.tail).underUnary
  | case3 span => exact points_primary h hls.tail
  | case4 ls => exact points_primary h hls

theorem points_chain {op? : Token → Option BinaryOp} (h : Points G operand fun _ => True)
    (left : Expr) : Points G (chain op? operand left) fun _ => True := by
  intro ls hls
  fun_induction chain op? operand left ls with
  | case1 left => exact .read trivial hls
  | case2 left l ls hop => exact .read trivial hls
  | case3 left l ls op hop e he => exact .refused ((h hls.tail).of_error he)
  | case4 left l ls op hop right between hright hlength ih =>
    exact ih ((h hls.tail).of_ok hright).2
  | case5 left l ls op hop right between hright hlength =>
    exact .read trivial ((h hls.tail).of_ok hright).2

theorem points_chained {op? : Token → Option BinaryOp} (h : Points G operand fun _ => True) :
    Points G (chained op? operand) fun _ => True :=
  h.bind fun left _ => points_chain h left

theorem points_nullTest : Points G nullTest fun _ => True :=
  points_eat.bind fun _ _ => points_keyword.bind fun _ _ => .pure trivial

theorem points_comparisonTail (h : Points G operand fun _ => True) (left : Expr) :
    Points G (comparisonTail operand left) fun _ => True := by
  intro ls hls
  fun_induction comparisonTail operand left ls with
  | case1 left => exact .read trivial hls
  | case2 left l ls his e he => exact .refused ((points_nullTest hls.tail).of_error he)
  | case3 left l ls his negated between hnull hlength ih =>
    exact ih ((points_nullTest hls.tail).of_ok hnull).2
  | case4 left l ls his negated between hnull hlength =>
    exact .read trivial ((points_nullTest hls.tail).of_ok hnull).2
  | case5 left l ls his hop => exact .read trivial hls
  | case6 left l ls his op hop e he => exact .refused ((h hls.tail).of_error he)
  | case7 left l ls his op hop right between hright hlength ih =>
    exact ih ((h hls.tail).of_ok hright).2
  | case8 left l ls his op hop right between hright hlength =>
    exact .read trivial ((h hls.tail).of_ok hright).2

theorem points_comparisonLevel (h : Points G nested fun _ => True) :
    Points G (comparisonLevel nested) fun _ => True := by
  have hadditive : Points G (additiveLevel nested) fun _ => True :=
    points_chained (points_chained (points_unaryLevel h))
  exact hadditive.bind fun left _ => points_comparisonTail hadditive left

theorem points_notLevel (h : Points G nested fun _ => True) :
    Points G (notLevel nested) fun _ => True := by
  intro ls hls
  fun_induction notLevel nested ls with
  | case1 span left ih => exact (ih hls.tail).underUnary
  | case2 ls => exact points_comparisonLevel h hls

theorem points_exprWithin (depth : Nat) : Points G (exprWithin depth) fun _ => True := by
  induction depth with
  | zero => exact points_refuseEnd
  | succ depth ih => exact points_chained (points_chained (points_notLevel ih))

theorem points_expr : Points G expr fun _ => True :=
  fun ls hls => points_exprWithin ls.length hls

end Expressions

section Statements

theorem points_filter : Points G optionalFilter fun _ => True :=
  points_eat.bind fun _ _ => .ite (points_expr.any _) (.pure trivial)

/-- The only mistake that covers more than a token. -/
theorem points_insert : Points G insertStatement fun _ => True := by
  refine points_keyword.bind fun _ _ => points_keyword.bind fun _ _ => ?_
  refine points_name.bind fun ⟨table, place⟩ hplace => points_columnList.bind fun _ _ => ?_
  refine points_keyword.bind fun _ _ => points_symbol.bind fun _ _ => ?_
  refine (points_sepBy1 points_expr).bind fun _ _ => points_expect.bind fun close hclose => ?_
  split
  · exact .pure trivial
  · exact points_refuse (G.cover hplace hclose)

theorem points_assignment : Points G assignment fun _ => True :=
  points_name.bind fun _ _ => points_symbol.bind fun _ _ => points_expr.bind fun _ _ =>
    .pure trivial

theorem points_update : Points G updateStatement fun _ => True :=
  points_keyword.bind fun _ _ => points_name.bind fun _ _ => points_keyword.bind fun _ _ =>
    (points_sepBy1 points_assignment).bind fun _ _ => points_filter.bind fun _ _ => .pure trivial

theorem points_delete : Points G deleteStatement fun _ => True :=
  points_keyword.bind fun _ _ => points_keyword.bind fun _ _ => points_name.bind fun _ _ =>
    points_filter.bind fun _ _ => .pure trivial

theorem points_dml : Points G dml fun _ => True := by
  refine points_peek.bind fun _ _ => ?_
  split
  · exact points_insert
  · exact points_update
  · exact points_delete
  · exact points_refuseHere

theorem points_template : Points G template fun p => G.Contains p.2 :=
  points_name.bind fun _ hplace => points_keyword.bind fun _ _ => points_dml.bind fun _ _ =>
    .pure hplace

theorem points_tableRef : Points G tableRef fun _ => True := by
  refine points_name.bind fun _ _ => points_eat.bind fun _ _ => ?_
  refine .ite (points_name.bind fun _ _ => .pure trivial) (points_peek.bind fun _ _ => ?_)
  split
  · exact points_name.bind fun _ _ => .pure trivial
  · exact .pure trivial

theorem points_skip {t : Token} : Points G (discard (eat t)) fun _ => True :=
  points_eat.any _

theorem points_joinKind : Points G joinKind? fun _ => True := by
  refine points_peek.bind fun _ _ => ?_
  split
  · exact .pure trivial
  · exact points_skip.bind fun _ _ => .pure trivial
  · exact points_skip.bind fun _ _ => points_skip.bind fun _ _ => .pure trivial
  · exact .pure trivial

theorem points_join : Points G join? fun _ => True := by
  refine points_joinKind.bind fun kind _ => ?_
  split
  · exact .pure trivial
  · refine points_keyword.bind fun _ _ => points_tableRef.bind fun _ _ => ?_
    exact points_keyword.bind fun _ _ => points_expr.bind fun _ _ => .pure trivial

theorem points_select : Points G select fun _ => True := by
  refine points_keyword.bind fun _ _ => (points_sepBy1 points_expr).bind fun _ _ => ?_
  refine points_keyword.bind fun _ _ => points_tableRef.bind fun _ _ => ?_
  rw [joins_eq_many]
  exact (points_many points_join).bind fun _ _ => points_filter.bind fun _ _ => .pure trivial

theorem points_union : Points G union? fun _ => True := by
  refine points_eat.bind fun _ _ => .ite ?_ (.pure trivial)
  exact points_eat.bind fun _ _ => points_select.bind fun _ _ => .pure trivial

theorem points_query : Points G query fun _ => True := by
  refine points_select.bind fun _ _ => ?_
  rw [unions_eq_many]
  exact (points_many points_union).bind fun _ _ => .pure trivial

end Statements

section Views

theorem points_hintScope : Points G hintScope fun _ => True := by
  refine points_next.bind fun l hl => ?_
  split
  · exact .pure trivial
  · split
    · exact .pure trivial
    · exact points_refuse hl
  · exact points_refuseLexeme hl

theorem points_hintKey (target : HintTarget) :
    Points G (hintKey target) fun p => G.Contains p.2 := by
  refine points_next.bind fun l hl => ?_
  split
  · split
    · exact .ite (.pure hl) (points_refuse hl)
    · exact points_refuse hl
  · exact points_refuseLexeme hl

theorem points_hint (target : HintTarget) : Points G (hint target) fun _ => True := by
  refine points_hintScope.bind fun _ _ => (points_hintKey target).bind fun ⟨key, place⟩ hplace => ?_
  refine points_eat.bind fun _ _ => .ite_bind (points_string.any _) (.pure trivial) fun _ _ => ?_
  refine .ite (points_refuse hplace) ?_
  split
  · exact .pure trivial
  · exact points_refuse hplace

theorem reports_hintBlock (target : HintTarget) : Reports G (hintBlock target) fun _ => True := by
  have hone : ∀ read : Hints, Reports G (do return read ++ [← hint target]) fun _ => True :=
    fun _ => .step (points_hint target) fun _ _ => .pure trivial
  refine .step points_keyword fun _ _ => .step points_keyword fun _ _ => ?_
  refine .step points_symbol fun _ _ => (reports_sepBy1 hone []).bind fun _ _ => ?_
  exact .step points_symbol fun _ _ => .pure trivial

theorem reports_viewClause (draft : ViewDraft) : Reports G (viewClause? draft) fun _ => True := by
  refine .step points_peek fun _ _ => ?_
  split
  · exact .step points_keyword fun _ _ => .step points_string fun _ _ => .pure trivial
  · exact (reports_hintBlock .view).bind fun _ _ => .pure trivial
  · exact .pure trivial

theorem reports_placed {a : α} {place : Span} (h : G.Contains place) :
    Reports G (pure (some (a, place))) fun o => ∀ p ∈ o, G.Contains p.2 :=
  .pure fun _ hp => Option.mem_some_iff.mp hp ▸ h

/-- An artifact that cannot be built is reported at its name. -/
theorem reports_unbuilt {e : SchemaError} {place : Span} (h : G.Contains place) :
    Reports G (do
      Recovering.record (.invalidSchema e) place
      return none) fun o : Option (α × Span) => ∀ p ∈ o, G.Contains p.2 :=
  (Reports.record h).bind fun _ _ => .pure nofun

theorem reports_view : Reports G view fun o => ∀ p ∈ o, G.Contains p.2 := by
  refine .step points_name fun ⟨name, place⟩ hplace => .step points_columnList fun _ _ => ?_
  refine .step points_keyword fun _ _ => .step points_query fun _ _ => ?_
  refine (reports_repeatClauses reports_viewClause _).noting.bind fun _ _ => ?_
  refine .ite (.pure nofun) ?_
  split
  · exact reports_placed hplace
  · exact reports_unbuilt hplace

end Views

section Tables

theorem points_orInvalid {x : Except SchemaError α} {place : Span} (h : G.Contains place) :
    Points G (orInvalid place x) fun _ => True := by
  cases x with
  | ok a => exact .pure trivial
  | error e => exact points_refuse h

theorem points_precisionAndScale : Points G precisionAndScale fun _ => True := by
  refine points_symbol.bind fun _ _ => points_count.bind fun _ _ => points_eat.bind fun _ _ => ?_
  refine .ite_bind (points_count.any _) (.pure trivial) fun _ _ => ?_
  exact points_symbol.bind fun _ _ => .pure trivial

theorem points_length : Points G lengthInParentheses fun _ => True :=
  points_symbol.bind fun _ _ => points_count.bind fun _ _ => points_symbol.bind fun _ _ =>
    .pure trivial

theorem points_dataType : Points G dataType fun _ => True := by
  refine points_next.bind fun l hl => ?_
  split
  case h_10 => exact points_precisionAndScale.bind fun _ _ => points_orInvalid hl
  case h_11 =>
    refine points_isAt.bind fun _ _ => .ite ?_ (.pure trivial)
    refine points_precisionAndScale.bind fun _ _ => ?_
    exact ((points_orInvalid hl).any _).bind fun _ _ => .pure trivial
  case h_12 => exact points_length.bind fun _ _ => points_orInvalid hl
  case h_13 => exact points_length.bind fun _ _ => points_orInvalid hl
  case h_14 => exact points_refuseLexeme hl
  all_goals exact .pure trivial

theorem points_literal : Points G literal fun _ => True := by
  refine points_eat.bind fun _ _ => points_next.bind fun l hl => ?_
  split
  · exact points_numberLiteral hl _
  · exact points_numberLiteral hl _
  · exact .pure trivial
  · exact .pure trivial
  · exact points_refuseLexeme hl

theorem points_defaultValue : Points G defaultValue fun _ => True :=
  points_eat.bind fun _ _ => .ite (.pure trivial) (points_literal.any _)

theorem points_referentialAction : Points G referentialAction fun _ => True := by
  refine points_next.bind fun l hl => ?_
  split
  · exact .pure trivial
  · exact .pure trivial
  · exact points_keyword.bind fun _ _ => .pure trivial
  · exact points_keyword.bind fun _ _ => .pure trivial
  · exact points_refuseLexeme hl

theorem points_actionClause (r : Reference) : Points G (actionClause? r) fun _ => True := by
  refine points_eat.bind fun _ _ => .ite (points_next.bind fun l hl => ?_) (.pure trivial)
  split
  · exact points_referentialAction.bind fun _ _ => .pure trivial
  · exact points_referentialAction.bind fun _ _ => .pure trivial
  · exact points_refuseLexeme hl

theorem points_actionClauses (r : Reference) : Points G (actionClauses r) fun _ => True := by
  intro ls hls
  fun_induction actionClauses r ls with
  | case1 r ls e he => exact .refused ((points_actionClause r hls).of_error he)
  | case2 r ls left hnone => exact .read trivial ((points_actionClause r hls).of_ok hnone).2
  | case3 r ls r' left hsome hlength ih => exact ih ((points_actionClause r hls).of_ok hsome).2
  | case4 r ls r' left hsome hlength =>
    exact .read trivial ((points_actionClause r hls).of_ok hsome).2

theorem points_references : Points G references fun _ => True := by
  refine points_keyword.bind fun _ _ => points_name.bind fun _ _ => ?_
  refine points_symbol.bind fun _ _ => points_name.bind fun _ _ => ?_
  exact points_symbol.bind fun _ _ => points_actionClauses _

theorem reports_columnOption (d : ColumnDraft) : Reports G (columnOption? d) fun _ => True := by
  refine .step points_peek fun _ _ => ?_
  split
  · exact .step points_keyword fun _ _ => .step points_keyword fun _ _ => .pure trivial
  · exact .step points_keyword fun _ _ => .pure trivial
  · exact .step points_keyword fun _ _ => .step points_defaultValue fun _ _ => .pure trivial
  · exact .step points_keyword fun _ _ => .step points_keyword fun _ _ => .pure trivial
  · exact .step points_keyword fun _ _ => .pure trivial
  · exact .step points_references fun _ _ => .pure trivial
  · exact .step points_keyword fun _ _ => .step points_string fun _ _ => .pure trivial
  · exact (reports_hintBlock .column).bind fun _ _ => .pure trivial
  · exact .pure trivial

theorem reports_column (d : TableDraft) : Reports G (column d) fun _ => True := by
  refine .step points_name fun ⟨name, place⟩ hplace => .step points_dataType fun _ _ => ?_
  refine (reports_repeatClauses reports_columnOption _).bind fun _ _ => ?_
  exact .step (points_orInvalid hplace) fun _ _ => .pure trivial

theorem points_keyElement (d : TableDraft) (name : Option String) :
    Points G (keyElement? d name) fun _ => True := by
  refine points_peek.bind fun _ _ => ?_
  split
  · refine points_keyword.bind fun _ _ => points_keyword.bind fun _ _ => ?_
    exact points_columnList.bind fun _ _ => .pure trivial
  · exact points_keyword.bind fun _ _ => points_columnList.bind fun _ _ => .pure trivial
  · refine points_keyword.bind fun _ _ => points_keyword.bind fun _ _ => ?_
    refine points_symbol.bind fun _ _ => points_name.bind fun _ _ => ?_
    exact points_symbol.bind fun _ _ => points_references.bind fun _ _ => .pure trivial
  · exact .pure trivial

theorem reports_indexElement (d : TableDraft) : Reports G (indexElement d) fun _ => True := by
  refine .step points_keyword fun _ _ => .step points_name fun _ _ => ?_
  refine .step points_columnList fun _ _ => .step points_isAt fun _ _ => ?_
  refine .ite ((reports_hintBlock .index).bind fun _ _ => .pure trivial) ?_
  exact (Reports.pure (P := fun _ => True) trivial).bind fun _ _ => .pure trivial

theorem reports_tableElement (d : TableDraft) : Reports G (tableElement d) fun _ => True := by
  refine .step points_eat fun _ _ => .ite ?_ ?_
  · refine .step points_name fun _ _ => .step (points_keyElement d _) fun _ _ => ?_
    split
    · exact .pure trivial
    · exact .lift points_refuseHere
  · refine .step (points_keyElement d _) fun _ _ => ?_
    split
    · exact .pure trivial
    · refine .step points_isAt fun _ _ => ?_
      exact .ite (reports_indexElement d) (reports_column d)

theorem reports_anotherDml (read : List Dml) :
    Reports G (do return read ++ [← dml]) fun _ => True :=
  .step points_dml fun _ _ => .pure trivial

theorem gathersIn_actionStatements (read : List Dml) {ls : List Lexeme} (hls : TokensIn G ls) :
    GathersIn G (actionStatements read ls) := by
  fun_induction actionStatements read ls with
  | case1 read => exact ⟨List.forall_mem_nil _, hls⟩
  | case2 read l ls hl => exact ⟨List.forall_mem_nil _, hls⟩
  | case3 read l ls hl recorded read' s rest hitem hs more final remaining hmore ih =>
    obtain ⟨hrecorded, hrest⟩ := hitem ▸ gathersIn_itemOrSkip (reports_anotherDml read) hls
    obtain ⟨hlater, hleft⟩ := hmore ▸ ih hrest.tail
    exact ⟨List.forall_mem_append.mpr ⟨hrecorded, hlater⟩, hleft⟩
  | case4 read l ls hl recorded read' s rest hitem hs =>
    exact hitem ▸ gathersIn_itemOrSkip (reports_anotherDml read) hls
  | case5 read l ls hl recorded read' hitem =>
    exact hitem ▸ gathersIn_itemOrSkip (reports_anotherDml read) hls

theorem reports_actionBlock : Reports G actionBlock fun _ => True := by
  refine .step points_symbol fun _ _ => ?_
  refine (GathersIn.reports fun _ => gathersIn_actionStatements []).bind fun _ _ => ?_
  exact .step points_symbol fun _ _ => .pure trivial

theorem reports_tableClause (d : TableDraft) : Reports G (tableClause? d) fun _ => True := by
  refine .step points_peek fun _ _ => ?_
  split
  · exact .step points_keyword fun _ _ => .step points_string fun _ _ => .pure trivial
  · refine .step points_keyword fun _ _ => .step points_keyword fun _ _ => ?_
    exact reports_actionBlock.bind fun _ _ => .pure trivial
  · exact (reports_hintBlock .table).bind fun _ _ => .pure trivial
  · exact .pure trivial

theorem reports_table : Reports G table fun o => ∀ p ∈ o, G.Contains p.2 := by
  refine .step points_name fun ⟨name, place⟩ hplace => .step points_symbol fun _ _ => ?_
  refine (reports_sepBy1 reports_tableElement _).noting.bind fun ⟨elements, clean⟩ _ => ?_
  refine .step points_isAt fun _ _ => .ite (.pure nofun) ?_
  refine .step points_symbol fun _ _ => ?_
  refine (reports_repeatClauses reports_tableClause _).noting.bind fun _ _ => ?_
  refine .ite (.pure nofun) ?_
  split
  · exact reports_placed hplace
  · exact reports_unbuilt hplace

end Tables

section Schemas

theorem reports_addOrDuplicate {kind : ArtifactKind} {name : String} {place : Span} {known : Bool}
    {add : α → Schema} {s : Schema} {a : α} (h : G.Contains place) :
    Reports G (addOrDuplicate kind name place known add s a) fun _ => True :=
  .ite ((Reports.record h).bind fun _ _ => .pure trivial) (.pure trivial)

theorem reports_statement (s : Schema) : Reports G (statement s) fun _ => True := by
  refine .step points_keyword fun _ _ => .step points_next fun l hl => ?_
  split
  · refine reports_table.bind fun read hread => .step points_symbol fun _ _ => ?_
    split
    · exact .pure trivial
    · exact reports_addOrDuplicate (hread _ rfl)
  · refine reports_view.bind fun read hread => .step points_symbol fun _ _ => ?_
    split
    · exact .pure trivial
    · exact reports_addOrDuplicate (hread _ rfl)
  · refine .step points_template fun _ hplace => .step points_symbol fun _ _ => ?_
    exact reports_addOrDuplicate hplace
  · exact .lift (points_refuseLexeme hl)

theorem refusals_in {s : Schema} {ls : List Lexeme} (hls : TokensIn G ls) :
    ∀ e ∈ (statements s ls).1, e.In G := by
  fun_induction statements s ls with
  | case1 s => exact List.forall_mem_nil _
  | case2 s l ls recorded s' left hs hlength more final hmore ih =>
    obtain ⟨hrecorded, hresult⟩ := hs ▸ reports_statement s hls
    rw [hmore] at ih
    exact List.forall_mem_append.mpr ⟨hrecorded, ih (hresult.of_ok rfl).2⟩
  | case3 s l ls recorded s' left hs hlength => exact (hs ▸ reports_statement s hls).1
  | case4 s l ls recorded e hs more final hmore ih =>
    obtain ⟨hrecorded, hresult⟩ := hs ▸ reports_statement s hls
    rw [hmore] at ih
    have hlater := ih (hls.tail.of_suffix (skipStatementRest_suffix 0 ls))
    exact List.forall_mem_append.mpr
      ⟨hrecorded, List.forall_mem_cons.mpr ⟨hresult.of_error rfl, hlater⟩⟩

end Schemas

end Regions

end Schemata
