import Schemata.Proofs.ExprReading
import Schemata.Proofs.ParsedWellFormed

/-!
The reader of expressions decides their grammar: it takes what is derived and nothing else, and no
tokens derive two expressions.
-/

namespace Schemata

open Grammar Reader

/-! ### What a reader takes off its input -/

variable {α β γ : Type}

/-- Whatever the reader gives, it gives for tokens with which `N` relates it. -/
def Accepts (r : Reader α) (N : α → List Token → Prop) : Prop :=
  ∀ ⦃ls a rest⦄, r ls = .ok (a, rest) → ∃ p, ls = p ++ rest ∧ N a (p.map Lexeme.token)

namespace Accepts

variable {r : Reader α} {f : α → Reader β} {L M : α → List Token → Prop}
  {N : β → List Token → Prop} {t : Token}

theorem pure {a : α} (h : L a []) : Accepts (Pure.pure a) L := by
  intro ls b rest hr
  cases hr
  exact ⟨[], rfl, h⟩

theorem bind (hr : Accepts r L)
    (hf : ∀ a ts, L a ts → Accepts (f a) fun b us => N b (ts ++ us)) : Accepts (r >>= f) N := by
  intro ls b rest h
  obtain ⟨⟨a, between⟩, ha, hb⟩ := bind_ok_iff.mp h
  obtain ⟨p, rfl, hp⟩ := hr ha
  obtain ⟨q, rfl, hq⟩ := hf a _ hp hb
  refine ⟨p ++ q, (List.append_assoc _ _ _).symm, ?_⟩
  rw [List.map_append]
  exact hq

theorem pure_bind {a : α} (hf : Accepts (f a) N) : Accepts (Pure.pure a >>= f) N :=
  hf

theorem imp (h : Accepts r L) (hLM : ∀ a ts, L a ts → M a ts) : Accepts r M := by
  intro ls a rest hr
  obtain ⟨p, hls, hp⟩ := h hr
  exact ⟨p, hls, hLM a _ hp⟩

theorem map {g : α → β} (h : Accepts r L) (hg : ∀ a ts, L a ts → N (g a) ts) :
    Accepts (g <$> r) N := by
  rw [map_eq_pure_bind]
  refine h.bind fun a ts ha => .pure ?_
  rw [List.append_nil]
  exact hg a ts ha

theorem fails (h : ∀ ls, ∃ e, r ls = .error e) : Accepts r L := by
  intro ls a rest hr
  obtain ⟨e, he⟩ := h ls
  rw [he] at hr
  cases hr

theorem refuseLexeme {expected : String} {l : Lexeme} :
    Accepts (Reader.refuseLexeme expected l) L :=
  .fails fun _ => ⟨_, rfl⟩

theorem next {what : String} {f : Lexeme → Reader β}
    (hf : ∀ l, Accepts (f l) fun b us => N b (l.token :: us)) :
    Accepts (Reader.next what >>= f) N := by
  have htaken : Accepts (Reader.next what) fun l ts => ts = [l.token] := by
    intro ls l rest h
    cases ls with
    | nil => cases h
    | cons _ ls =>
      cases h
      exact ⟨[l], rfl, rfl⟩
  refine htaken.bind ?_
  rintro l _ rfl
  exact hf l

theorem expect (t : Token) : Accepts (discard (Reader.expect t)) fun _ ts => ts = [t] := by
  refine Accepts.map (L := fun _ ts => ts = [t]) (.next fun l => ?_) fun _ _ h => h
  split
  · rename_i hl
    exact .pure (by rw [hl])
  · exact .refuseLexeme

theorem keyword {k : Keyword} {f : Unit → Reader β}
    (hf : Accepts (f ()) fun b us => N b (.keyword k :: us)) :
    Accepts (expectKeyword k >>= f) N := by
  refine (expect (.keyword k)).bind ?_
  rintro _ _ rfl
  exact hf

theorem symbol {s : Symbol} {f : Unit → Reader β}
    (hf : Accepts (f ()) fun b us => N b (.symbol s :: us)) :
    Accepts (expectSymbol s >>= f) N := by
  refine (expect (.symbol s)).bind ?_
  rintro _ _ rfl
  exact hf

theorem name {what : String} {f : String × Span → Reader β}
    (hf : ∀ n place t, t.nameWord? = some n → Accepts (f (n, place)) fun b us => N b (t :: us)) :
    Accepts (expectName what >>= f) N := by
  have htaken : Accepts (expectName what) fun p ts => ∃ t, ts = [t] ∧ t.nameWord? = some p.1 := by
    refine .next fun l => ?_
    split
    · rename_i word hword
      exact .pure ⟨l.token, rfl, hword⟩
    · exact .refuseLexeme
  refine htaken.bind ?_
  rintro ⟨n, place⟩ _ ⟨t, rfl, ht⟩
  exact hf n place t ht

theorem eat {f : Bool → Reader β} (ht : Accepts (f true) fun b us => N b (t :: us))
    (hf : Accepts (f false) N) : Accepts (Reader.eat t >>= f) N := by
  have htaken : Accepts (Reader.eat t) fun b ts => ts = if b then [t] else [] := by
    intro ls b rest h
    cases ls with
    | nil =>
      cases h
      exact ⟨[], rfl, rfl⟩
    | cons l ls =>
      by_cases hl : l.token = t
      · rw [Reader.eat, if_pos hl] at h
        cases h
        exact ⟨[l], rfl, by rw [List.map_cons, hl]; rfl⟩
      · rw [Reader.eat, if_neg hl] at h
        cases h
        exact ⟨[], rfl, rfl⟩
  refine htaken.bind ?_
  rintro (_ | _) _ rfl
  · exact hf
  · exact ht

theorem isAt {f : Bool → Reader β} (hf : ∀ b, Accepts (f b) N) :
    Accepts (Reader.isAt t >>= f) N := by
  have htaken : Accepts (Reader.isAt t) fun _ ts => ts = [] := by
    intro ls b rest h
    cases h
    exact ⟨[], rfl, rfl⟩
  refine htaken.bind ?_
  rintro b _ rfl
  exact hf b

end Accepts

/-- Items that each have tokens of their own. -/
theorem accepts_many {item? : Reader (Option α)} {P : γ → Prop} {tokens : γ → List Token}
    {value : γ → α} (h : Accepts item? fun o ts =>
      o = none ∧ ts = [] ∨ ∃ x, P x ∧ o = some (value x) ∧ ts = tokens x) :
    Accepts (many item?) fun as ts =>
      ∃ xs : List γ, (∀ x ∈ xs, P x) ∧ as = xs.map value ∧ ts = xs.flatMap tokens := by
  intro ls as rest hread
  fun_induction many item? ls generalizing as rest with
  | case1 ls e he => cases hread
  | case2 ls left hnone =>
    cases hread
    obtain ⟨p, hls, ⟨-, hp⟩ | ⟨x, -, hx, -⟩⟩ := h hnone
    · exact ⟨p, hls, [], List.forall_mem_nil _, rfl, hp⟩
    · cases hx
  | case3 ls a left hsome hlength e he ih => cases hread
  | case4 ls a left hsome hlength as last hmore ih =>
    cases hread
    obtain ⟨p, rfl, ⟨hx, -⟩ | ⟨x, hPx, hx, hp⟩⟩ := h hsome
    · cases hx
    · cases hx
      obtain ⟨q, rfl, xs, hxs, rfl, hq⟩ := ih hmore
      refine ⟨p ++ q, (List.append_assoc _ _ _).symm, x :: xs,
        List.forall_mem_cons.mpr ⟨hPx, hxs⟩, rfl, ?_⟩
      rw [List.map_append, hp, hq, List.flatMap_cons]
  | case5 ls a left hsome hlength =>
    cases hread
    obtain ⟨p, rfl, ⟨hx, -⟩ | ⟨x, hPx, hx, hp⟩⟩ := h hsome
    · cases hx
    · cases hx
      refine ⟨p, rfl, [x], List.forall_mem_singleton.mpr hPx, rfl, ?_⟩
      rw [hp, List.flatMap_cons, List.flatMap_nil, List.append_nil]

/-! ### Primaries -/

/-- The reader takes what is derived at the level. -/
abbrev Derived (r : Reader Expr) (k : Nat) : Prop :=
  Accepts r fun e ts => Derives k ts e

section Primary

variable {nested : Reader Expr} {t : Token} {word : String}

theorem accepts_numberLiteral {negative : Bool} {l : Lexeme} :
    Accepts (numberLiteral negative l) fun value ts =>
      ts = [] ∧ Denotes negative l.token value := by
  unfold numberLiteral
  cases hl : l.token with
  | decimal digits =>
    refine Accepts.pure ?_
    exact ⟨rfl, .decimal digits⟩
  | integer digits =>
    dsimp only
    generalize hvalue : (if negative = true then -(digitsValue digits : Int)
      else digitsValue digits) = value
    split
    · rename_i hbounds
      refine Accepts.pure ?_
      exact ⟨rfl, .integer hvalue.symm (by omega) (by omega)⟩
    · exact .fails fun _ => ⟨_, rfl⟩
  | _ => exact .refuseLexeme

theorem accepts_columnTail (ht : t.nameWord? = some word) :
    Accepts (columnTail word) fun e us => Derives 8 (t :: us) e := by
  refine .eat ?_ (.pure (.column ht))
  exact .name fun n place u hu => .pure (.qualified ht hu)

/-- An item that is a phrase of its own. -/
theorem accepts_phrase (h : Derived nested 1) : Accepts nested fun e ts =>
    ∃ a : Phrase, Derives 1 a.tokens a.value ∧ e = a.value ∧ ts = a.tokens :=
  h.imp fun e ts he => ⟨⟨ts, e⟩, he, rfl, rfl⟩

theorem accepts_arguments (h : Derived nested 1) : Accepts (sepBy1 .comma nested) fun es ts =>
    ∃ as : List Phrase, (∀ a ∈ as, Derives 1 a.tokens a.value) ∧ es = as.map Phrase.value ∧
      ts = commaTokens (as.map Phrase.tokens) := by
  have hitem : Accepts (itemAfter? .comma nested) fun o ts => o = none ∧ ts = [] ∨
      ∃ a : Phrase, Derives 1 a.tokens a.value ∧ o = some a.value ∧
        ts = [Token.symbol .comma] ++ a.tokens := by
    refine .eat ?_ (.pure (Or.inl ⟨rfl, rfl⟩))
    refine (accepts_phrase h).map ?_
    rintro _ _ ⟨a, ha, rfl, rfl⟩
    exact Or.inr ⟨a, ha, rfl, rfl⟩
  refine (accepts_phrase h).bind ?_
  rintro _ _ ⟨a, ha, rfl, rfl⟩
  rw [moreItems_eq_many]
  refine (accepts_many hitem).bind ?_
  rintro _ _ ⟨as, has, rfl, rfl⟩
  refine .pure ⟨a :: as, List.forall_mem_cons.mpr ⟨ha, has⟩, rfl, ?_⟩
  rw [List.append_nil, List.map_cons, commaTokens, separated, List.flatMap_map]

theorem accepts_nameTail (h : Derived nested 1) :
    Accepts (nameTail nested word) fun e us => Derives 8 (.name word :: us) e := by
  refine .eat ?_ (accepts_columnTail rfl)
  refine .isAt fun b => ?_
  cases b with
  | true => exact .pure_bind (.symbol (.pure (Derives.call word (List.forall_mem_nil _))))
  | false =>
    refine (accepts_arguments h).bind ?_
    rintro _ _ ⟨as, has, rfl, rfl⟩
    exact .symbol (.pure (.call word has))

theorem accepts_whenBranch (h : Derived nested 1) : Accepts (whenBranch nested) fun v ts =>
    ∃ b : Phrase × Phrase, (Derives 1 b.1.tokens b.1.value ∧ Derives 1 b.2.tokens b.2.value) ∧
      v = (b.1.value, b.2.value) ∧ ts = branchTokens b := by
  refine .keyword (h.bind fun condition ts hcondition => ?_)
  refine .keyword (h.bind fun value us hvalue => .pure ?_)
  exact ⟨(⟨ts, condition⟩, ⟨us, value⟩), ⟨hcondition, hvalue⟩, rfl, by simp [branchTokens]⟩

section Options

variable {k : Option Expr → Reader β} {N : β → List Token → Prop}

theorem accepts_some (h : Derived nested 1)
    (hk : ∀ a : Phrase, Derives 1 a.tokens a.value →
      Accepts (k (some a.value)) fun b us => N b (a.tokens ++ us)) :
    Accepts ((some <$> nested) >>= k) N := by
  have hsome : Accepts (some <$> nested) fun o ts => ∃ e, o = some e ∧ Derives 1 ts e :=
    h.map fun e _ he => ⟨e, rfl, he⟩
  refine hsome.bind ?_
  rintro _ ts ⟨e, rfl, he⟩
  exact hk ⟨ts, e⟩ he

theorem accepts_operand (h : Derived nested 1)
    (hk : ∀ o : Option Phrase, (∀ a ∈ o, Derives 1 a.tokens a.value) →
      Accepts (k (o.map Phrase.value)) fun b us =>
        N b (optionalTokens [] Phrase.tokens o ++ us)) :
    Accepts (isAt t >>= fun b =>
      if b = true then pure none >>= k else (some <$> nested) >>= k) N := by
  refine .isAt fun b => ?_
  cases b with
  | true => exact .pure_bind (hk none nofun)
  | false => exact accepts_some h fun a ha => hk (some a) fun b hb => Option.mem_some_iff.mp hb ▸ ha

theorem accepts_optional (h : Derived nested 1)
    (hk : ∀ o : Option Phrase, (∀ a ∈ o, Derives 1 a.tokens a.value) →
      Accepts (k (o.map Phrase.value)) fun b us =>
        N b (optionalTokens [t] Phrase.tokens o ++ us)) :
    Accepts (eat t >>= fun b =>
      if b = true then (some <$> nested) >>= k else pure none >>= k) N := by
  refine .eat ?_ (.pure_bind (hk none nofun))
  exact accepts_some h fun a ha => hk (some a) fun b hb => Option.mem_some_iff.mp hb ▸ ha

end Options

theorem accepts_caseTail (h : Derived nested 1) :
    Accepts (caseTail nested) fun e us => Derives 8 (.keyword .case :: us) e := by
  have hmore : Accepts (whenBranch? nested) fun o ts => o = none ∧ ts = [] ∨
      ∃ b : Phrase × Phrase, (Derives 1 b.1.tokens b.1.value ∧ Derives 1 b.2.tokens b.2.value) ∧
        o = some (b.1.value, b.2.value) ∧ ts = branchTokens b := by
    refine .isAt fun b => ?_
    cases b with
    | false => exact .pure (Or.inl ⟨rfl, rfl⟩)
    | true =>
      refine (accepts_whenBranch h).map ?_
      rintro _ _ ⟨b, hb, rfl, rfl⟩
      exact Or.inr ⟨b, hb, rfl, rfl⟩
  refine accepts_operand h fun operand hoperand => ?_
  refine (accepts_whenBranch h).bind ?_
  rintro _ _ ⟨first, hfirst, rfl, rfl⟩
  rw [moreBranches_eq_many]
  refine (accepts_many hmore).bind ?_
  rintro _ _ ⟨others, hothers, rfl, rfl⟩
  refine accepts_optional h fun otherwise hotherwise => .keyword (.pure ?_)
  have hbranches : ∀ b ∈ first :: others,
      Derives 1 b.1.tokens b.1.value ∧ Derives 1 b.2.tokens b.2.value :=
    List.forall_mem_cons.mpr ⟨hfirst, hothers⟩
  have hcase := Derives.caseWhen (List.cons_ne_nil first others) hoperand
    (fun b hb => (hbranches b hb).1) (fun b hb => (hbranches b hb).2) hotherwise
  rw [List.flatMap_cons, List.append_assoc] at hcase
  exact hcase

theorem accepts_primary (h : Derived nested 1) : Derived (primary nested) 8 := by
  have hnumber : ∀ l : Lexeme, Accepts (Expr.literal <$> numberLiteral false l) fun e us =>
      Derives 8 (l.token :: us) e := by
    intro l
    refine accepts_numberLiteral.map ?_
    rintro value _ ⟨rfl, hvalue⟩
    exact .number hvalue
  refine .next fun l => ?_
  specialize hnumber l
  cases hl : l.token with
  | keyword k =>
    cases k with
    | null => exact .pure .null
    | case => exact accepts_caseTail h
    | _ => exact .refuseLexeme
  | symbol s =>
    cases s with
    | lparen =>
      refine h.bind fun e ts he => .symbol (.pure ?_)
      exact .parenthesized he
    | _ => exact .refuseLexeme
  | string text => exact .pure (.string text)
  | integer digits | decimal digits =>
    rw [hl] at hnumber
    exact hnumber
  | parameter name => exact .pure (.parameter name)
  | name word => exact accepts_nameTail h
  | quotedName word => exact accepts_columnTail rfl

end Primary

/-! ### Levels -/

section Levels

variable {nested operand : Reader Expr} {k : Nat}

theorem derived_tighter {r : Reader Expr} (h1 : 1 ≤ k) (h8 : k < 8) (h : Derived r (k + 1)) :
    Derived r k :=
  h.imp fun _ _ he => .tighter h1 h8 he

theorem accepts_unaryLevel (h : Derived nested 1) : Derived (unaryLevel nested) 7 := by
  intro ls e rest hread
  fun_induction unaryLevel nested ls generalizing e rest with
  | case1 span l left hnumber =>
    have hvalue : Accepts (Expr.literal <$> numberLiteral true l) fun e us =>
        Derives 7 (.symbol .minus :: l.token :: us) e := by
      refine accepts_numberLiteral.map ?_
      rintro value _ ⟨rfl, hvalue⟩
      exact .signed hvalue
    obtain ⟨p, rfl, hp⟩ := hvalue hread
    exact ⟨⟨.symbol .minus, span⟩ :: l :: p, rfl, hp⟩
  | case2 span l left hnumber ih =>
    obtain ⟨operand, hoperand, rfl⟩ := underUnary_ok hread
    obtain ⟨p, hls, hp⟩ := ih hoperand
    cases p with
    | nil => exact absurd rfl hp.ne_nil
    | cons m p =>
      obtain ⟨rfl, rfl⟩ := List.cons.inj hls
      exact ⟨⟨.symbol .minus, span⟩ :: l :: p, rfl, .neg (Bool.not_eq_true _ ▸ hnumber) hp⟩
  | case3 span => cases hread
  | case4 ls => exact derived_tighter (by decide) (by decide) (accepts_primary h) hread

/-- A chain goes on with what a level may go on with, after what was derived before. -/
theorem accepts_chain (h : Derived operand (k + 1)) {left : Expr} {ts : List Token}
    (hleft : Derives k ts left) :
    Accepts (chain (levelOp? k) operand left) fun e us => Derives k (ts ++ us) e := by
  intro ls e rest hread
  fun_induction chain (levelOp? k) operand left ls generalizing e rest ts with
  | case1 left =>
    cases hread
    exact ⟨[], rfl, by simpa using hleft⟩
  | case2 left l ls hop =>
    cases hread
    exact ⟨[], rfl, by simpa using hleft⟩
  | case3 left l ls op hop e he => cases hread
  | case4 left l ls op hop right between hright hlength ih =>
    obtain ⟨hwritten, rfl⟩ := written_of_levelOp hop
    obtain ⟨p, rfl, hp⟩ := h hright
    obtain ⟨q, rfl, hq⟩ := ih (.binary hwritten hleft hp) hread
    refine ⟨l :: (p ++ q), by simp, ?_⟩
    simpa using hq
  | case5 left l ls op hop right between hright hlength =>
    obtain ⟨hwritten, rfl⟩ := written_of_levelOp hop
    obtain ⟨p, rfl, hp⟩ := h hright
    cases hread
    exact ⟨l :: p, rfl, .binary hwritten hleft hp⟩

theorem accepts_chained (h1 : 1 ≤ k) (h8 : k < 8) (h : Derived operand (k + 1)) :
    Derived (chained (levelOp? k) operand) k :=
  h.bind fun _ _ hleft => accepts_chain h (.tighter h1 h8 hleft)

theorem accepts_nullTest : Accepts nullTest fun negated ts => ts = nullTestTokens negated :=
  .eat (.keyword (.pure rfl)) (.keyword (.pure rfl))

theorem accepts_comparisonTail (h : Derived operand 5) {left : Expr} {ts : List Token}
    (hleft : Derives 4 ts left) :
    Accepts (comparisonTail operand left) fun e us => Derives 4 (ts ++ us) e := by
  have hbinary : ∀ {l : Lexeme} {op : BinaryOp} {left right : Expr} {ts us : List Token},
      comparisonOp? l.token = some op → Derives 4 ts left → Derives 5 us right →
      Derives 4 (ts ++ l.token :: us) (.binary op left right) := by
    intro l op left right ts us hop hleft hright
    obtain ⟨hwritten, hp⟩ := written_of_levelOp (k := 4) hop
    rw [← hp] at hleft ⊢
    refine .binary hwritten hleft ?_
    rw [hp]
    exact hright
  intro ls e rest hread
  fun_induction comparisonTail operand left ls generalizing e rest ts with
  | case1 left =>
    cases hread
    exact ⟨[], rfl, by simpa using hleft⟩
  | case2 left l ls his e he => cases hread
  | case3 left l ls his negated between hnull hlength ih =>
    obtain ⟨p, rfl, hp⟩ := accepts_nullTest hnull
    obtain ⟨q, rfl, hq⟩ := ih (.isNull negated hleft) hread
    refine ⟨l :: (p ++ q), by simp, ?_⟩
    simpa [his, hp] using hq
  | case4 left l ls his negated between hnull hlength =>
    obtain ⟨p, rfl, hp⟩ := accepts_nullTest hnull
    cases hread
    refine ⟨l :: p, rfl, ?_⟩
    rw [List.map_cons, his, hp]
    exact .isNull negated hleft
  | case5 left l ls his hop =>
    cases hread
    exact ⟨[], rfl, by simpa using hleft⟩
  | case6 left l ls his op hop e he => cases hread
  | case7 left l ls his op hop right between hright hlength ih =>
    obtain ⟨p, rfl, hp⟩ := h hright
    obtain ⟨q, rfl, hq⟩ := ih (hbinary hop hleft hp) hread
    refine ⟨l :: (p ++ q), by simp, ?_⟩
    simpa using hq
  | case8 left l ls his op hop right between hright hlength =>
    obtain ⟨p, rfl, hp⟩ := h hright
    cases hread
    exact ⟨l :: p, rfl, hbinary hop hleft hp⟩

theorem accepts_comparisonLevel (h : Derived nested 1) : Derived (comparisonLevel nested) 4 := by
  have hproduct : Derived (multiplicativeLevel nested) 6 :=
    accepts_chained (by decide) (by decide) (accepts_unaryLevel h)
  have hsum : Derived (additiveLevel nested) 5 :=
    accepts_chained (by decide) (by decide) hproduct
  exact hsum.bind fun _ _ hleft =>
    accepts_comparisonTail hsum (.tighter (by decide) (by decide) hleft)

theorem accepts_notLevel (h : Derived nested 1) : Derived (notLevel nested) 3 := by
  intro ls e rest hread
  fun_induction notLevel nested ls generalizing e rest with
  | case1 span left ih =>
    obtain ⟨operand, hoperand, rfl⟩ := underUnary_ok hread
    obtain ⟨p, rfl, hp⟩ := ih hoperand
    exact ⟨⟨.keyword .not, span⟩ :: p, rfl, .not hp⟩
  | case2 ls => exact derived_tighter (by decide) (by decide) (accepts_comparisonLevel h) hread

theorem accepts_exprWithin (depth : Nat) : Derived (exprWithin depth) 1 := by
  induction depth with
  | zero => exact .fails fun _ => ⟨_, rfl⟩
  | succ depth ih =>
    have hand : Derived (andLevel (exprWithin depth)) 2 :=
      accepts_chained (by decide) (by decide) (accepts_notLevel ih)
    exact accepts_chained (by decide) (by decide) hand

theorem accepts_expr : Derived expr 1 :=
  fun ls _ _ hread => accepts_exprWithin ls.length hread

end Levels

/-! ### Whole inputs -/

theorem exprOfLexemes_eq_ok {ls : List Lexeme} {e : Expr} :
    exprOfLexemes ls = .ok e ↔ expr ls = .ok (e, []) := by
  rw [exprOfLexemes]
  cases h : expr ls with
  | error r =>
    have hbind : ∀ k : Expr → Reader Expr, (expr >>= k) ls = .error r := by
      intro k
      change (expr ls >>= fun p => k p.1 p.2) = _
      rw [h]
      rfl
    rw [hbind]
    exact ⟨nofun, nofun⟩
  | ok p =>
    obtain ⟨e', rest⟩ := p
    rw [Reads.bind_eq h]
    cases rest with
    | nil =>
      change Except.ok e' = Except.ok e ↔ _
      constructor
      · intro heq
        cases heq
        rfl
      · intro heq
        cases heq
        rfl
    | cons l rest => exact ⟨nofun, nofun⟩

theorem exprOfLexemes_iff {ls : List Lexeme} {e : Expr} :
    exprOfLexemes ls = .ok e ↔ Derives 1 (ls.map Lexeme.token) e := by
  rw [exprOfLexemes_eq_ok]
  constructor
  · intro h
    obtain ⟨p, rfl, hp⟩ := accepts_expr h
    rw [List.append_nil]
    exact hp
  · intro h
    obtain ⟨_, hread, rfl⟩ := h.reads ls [] rfl nofun
    rw [List.append_nil] at hread
    exact hread

theorem Grammar.Derives.unique {ts : List Token} {e e' : Expr} (h : Derives 1 ts e)
    (h' : Derives 1 ts e') : e = e' := by
  have htokens : (ts.map fun t => Lexeme.mk t ⟨0, 0⟩).map Lexeme.token = ts := by
    rw [List.map_map]
    exact List.map_id ts
  rw [← htokens] at h h'
  have hsame := (exprOfLexemes_iff.mpr h).symm.trans (exprOfLexemes_iff.mpr h')
  exact Except.ok.inj hsame

theorem Expr.parse_eq_ok {source : String} {e : Expr} :
    Expr.parse source = .ok e ↔ strayMistakes (scan source) = [] ∧
      exprOfLexemes ((scan source).filterMap Scanned.lexeme?) = .ok e := by
  rw [Expr.parse]
  cases strayMistakes (scan source) with
  | cons m stray => exact ⟨nofun, fun h => nomatch h.1⟩
  | nil =>
    cases exprOfLexemes ((scan source).filterMap Scanned.lexeme?) with
    | error m => exact ⟨nofun, fun h => nomatch h.2⟩
    | ok e' =>
      constructor
      · intro h
        cases h
        exact ⟨rfl, rfl⟩
      · rintro ⟨-, h⟩
        cases h
        rfl

/-- Tokens are read as an expression exactly if they derive it, a text exactly if nothing in it is
stray and its tokens derive the expression, and no tokens derive two expressions. -/
theorem expr_reader_decides_grammar :
    (∀ (ls : List Lexeme) (e : Expr),
      exprOfLexemes ls = .ok e ↔ Derives 1 (ls.map Lexeme.token) e) ∧
    (∀ (source : String) (e : Expr), Expr.parse source = .ok e ↔
      strayMistakes (scan source) = [] ∧
        Derives 1 (((scan source).filterMap Scanned.lexeme?).map Lexeme.token) e) ∧
    ∀ (ts : List Token) (e e' : Expr), Derives 1 ts e → Derives 1 ts e' → e = e' := by
  refine ⟨fun _ _ => exprOfLexemes_iff, fun source e => ?_, fun _ _ _ h h' => h.unique h'⟩
  rw [Expr.parse_eq_ok, exprOfLexemes_iff]

namespace Sample

/-- The first minus sign belongs to a number, the second one negates. -/
def signsText : String :=
  "NOT -5 < -x IS NOT NULL"

def signsTokens : List Token :=
  [.keyword .not, .symbol .minus, .integer "5", .symbol .lt, .symbol .minus, .name "x",
   .keyword .is, .keyword .not, .keyword .null]

def signsExpr : Expr :=
  .unary .not (.isNull (.binary .lt (.literal (.integer (-5)))
    (.unary .neg (.column none "x"))) true)

theorem derives_signs : Derives 1 signsTokens signsExpr := by
  have hnumber : Denotes true (.integer "5") (.integer (-5)) :=
    .integer (by decide) (by decide) (by decide)
  have hleft : Derives 4 [.symbol .minus, .integer "5"] (.literal (.integer (-5))) :=
    (Derives.signed hnumber).looser (by decide) (by decide) (by decide)
  have hx : Derives 7 [.name "x"] (.column none "x") :=
    .tighter (by decide) (by decide) (.column rfl)
  have hright : Derives 5 [.symbol .minus, .name "x"] (.unary .neg (.column none "x")) :=
    (Derives.neg rfl hx).looser (by decide) (by decide) (by decide)
  have hless : BinaryOp.lt.WrittenAs (.symbol .lt) := .inl rfl
  have htest := (Derives.binary hless hleft hright).isNull true
  exact (Derives.tighter (by decide) (by decide) htest).not.looser (by decide) (by decide)
    (by decide)

end Sample

theorem signs_parsed : Derives 1 Sample.signsTokens Sample.signsExpr ∧
    Expr.parse Sample.signsText = .ok Sample.signsExpr ∧
      ∀ e, Derives 1 Sample.signsTokens e → e = Sample.signsExpr := by
  have hstray : strayMistakes (scan Sample.signsText) = [] := by with_unfolding_all rfl
  have hscan : ((scan Sample.signsText).filterMap Scanned.lexeme?).map Lexeme.token =
      Sample.signsTokens := by
    with_unfolding_all rfl
  obtain ⟨-, hparse, hunique⟩ := expr_reader_decides_grammar
  refine ⟨Sample.derives_signs, (hparse _ _).mpr ⟨hstray, ?_⟩, fun e he => ?_⟩
  · rw [hscan]
    exact Sample.derives_signs
  · exact hunique _ _ _ he Sample.derives_signs

end Schemata
