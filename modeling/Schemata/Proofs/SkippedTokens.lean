import Schemata.Proofs.ExprRecognition

/-! What is read can be skipped. A skip goes over every token in parentheses that it has seen open,
but for `CREATE`; so it goes over whatever a reader takes, and gets as far as the reader got before
it failed. -/
namespace Schemata

open Grammar Reader

/-- How many parentheses are open behind a token that skips go over; `none` if one may stop at the
token. Commas outside of parentheses are gone over or not. -/
def Token.skipped? (commas : Bool) (depth : Nat) : Token → Option Nat
  | .keyword .create => none
  | .symbol .lparen => some (depth + 1)
  | .symbol .rparen => if depth = 0 then none else some (depth - 1)
  | .symbol .semicolon => if depth = 0 then none else some depth
  | .symbol .comma => if depth = 0 ∧ commas = false then none else some depth
  | _ => some depth

def skipped? (commas : Bool) : Nat → List Token → Option Nat
  | depth, [] => some depth
  | depth, t :: ts => (t.skipped? commas depth).bind fun d => skipped? commas d ts

section Tokens

variable {commas : Bool} {d d' d'' : Nat} {t : Token} {ts us : List Token}

theorem skipped_cons (ht : t.skipped? commas d = some d')
    (hts : skipped? commas d' ts = some d'') : skipped? commas d (t :: ts) = some d'' := by
  rw [skipped?, ht]
  exact hts

theorem skipped_append (hts : skipped? commas d ts = some d')
    (hus : skipped? commas d' us = some d'') : skipped? commas d (ts ++ us) = some d'' := by
  induction ts generalizing d with
  | nil =>
    cases hts
    exact hus
  | cons t ts ih =>
    obtain ⟨e, ht, hts⟩ := Option.bind_eq_some_iff.mp hts
    exact skipped_cons ht (ih hts)

theorem skipped_name {name : String} (h : t.nameWord? = some name) :
    t.skipped? commas d = some d := by
  cases t with
  | name _ | quotedName _ => rfl
  | _ => cases h

theorem skipped_comma (h : commas = true ∨ 0 < d) :
    (Token.symbol .comma).skipped? commas d = some d := by
  refine if_neg ?_
  rintro ⟨rfl, rfl⟩
  rcases h with h | h
  · cases h
  · exact Nat.lt_irrefl 0 h

theorem skipped_inside (hd : 0 < d) (hcreate : t ≠ .keyword .create) (hopen : t ≠ .symbol .lparen)
    (hclose : t ≠ .symbol .rparen) : t.skipped? commas d = some d := by
  unfold Token.skipped?
  split
  · exact absurd rfl hcreate
  · exact absurd rfl hopen
  · exact absurd rfl hclose
  · exact if_neg (Nat.pos_iff_ne_zero.mp hd)
  · exact if_neg fun h => Nat.pos_iff_ne_zero.mp hd h.1
  · rfl

theorem skipped_rparen : (Token.symbol .rparen).skipped? commas (d + 1) = some d := by
  simp [Token.skipped?]

theorem skipped_operator {op : BinaryOp} (h : op.WrittenAs t) : t.skipped? commas d = some d := by
  rcases h with rfl | ⟨-, rfl⟩
  · cases op <;> rfl
  · rfl

theorem skipped_number {negative : Bool} {value : Literal} (h : Denotes negative t value) :
    t.skipped? commas d = some d := by
  cases h <;> rfl

theorem skipped_flatMap {γ : Type} {xs : List γ} {tokens : γ → List Token}
    (h : ∀ x ∈ xs, skipped? commas d (tokens x) = some d) :
    skipped? commas d (xs.flatMap tokens) = some d := by
  induction xs with
  | nil => rfl
  | cons x xs ih =>
    obtain ⟨hx, hxs⟩ := List.forall_mem_cons.mp h
    rw [List.flatMap_cons]
    exact skipped_append hx (ih hxs)

theorem skipped_optional {γ : Type} {o : Option γ} {lead : List Token} {tokens : γ → List Token}
    (hlead : skipped? commas d lead = some d) (h : ∀ x ∈ o, skipped? commas d (tokens x) = some d) :
    skipped? commas d (optionalTokens lead tokens o) = some d := by
  cases o with
  | none => rfl
  | some x => exact skipped_append hlead (h x rfl)

theorem skipped_commaTokens {items : List (List Token)} (hd : 0 < d)
    (h : ∀ item ∈ items, skipped? commas d item = some d) :
    skipped? commas d (commaTokens items) = some d := by
  cases items with
  | nil => rfl
  | cons item items =>
    obtain ⟨hitem, hitems⟩ := List.forall_mem_cons.mp h
    refine skipped_append hitem (skipped_flatMap fun item hm => ?_)
    exact skipped_cons (skipped_comma (.inr hd)) (hitems item hm)

/-- The tokens of an expression close the parentheses that they open, and have no comma outside of
them. -/
theorem Grammar.Derives.skipped {k : Nat} {e : Expr} (h : Derives k ts e) (commas : Bool)
    (d : Nat) : skipped? commas d ts = some d := by
  induction h generalizing d with
  | tighter _ _ _ ih => exact ih d
  | binary ht _ _ ihl ihr =>
    exact skipped_append (ihl d) (skipped_cons (skipped_operator ht) (ihr d))
  | isNull negated _ ih =>
    refine skipped_append (ih d) (skipped_cons rfl ?_)
    cases negated <;> rfl
  | not _ ih => exact skipped_cons rfl (ih d)
  | signed h => exact skipped_cons rfl (skipped_cons (skipped_number h) rfl)
  | neg _ _ ih => exact skipped_cons rfl (ih d)
  | null | string | parameter => rfl
  | number h => exact skipped_cons (skipped_number h) rfl
  | column h => exact skipped_cons (skipped_name h) rfl
  | qualified ht hu =>
    exact skipped_cons (skipped_name ht) (skipped_cons rfl (skipped_cons (skipped_name hu) rfl))
  | call name _ ih =>
    refine skipped_cons rfl (skipped_cons rfl (skipped_append ?_ (skipped_cons skipped_rparen rfl)))
    exact skipped_commaTokens (Nat.succ_pos d) (List.forall_mem_map.mpr fun a ha => ih a ha (d + 1))
  | caseWhen _ _ _ _ _ iho ihw iht ihe =>
    refine skipped_cons rfl (skipped_append (skipped_optional rfl fun a ha => iho a ha d) ?_)
    refine skipped_append (skipped_flatMap fun b hb => skipped_append rfl ?_) ?_
    · exact skipped_append (ihw b hb d) (skipped_append rfl (iht b hb d))
    · exact skipped_append (skipped_optional rfl fun a ha => ihe a ha d) rfl
  | parenthesized _ ih =>
    exact skipped_cons rfl (skipped_append (ih (d + 1)) (skipped_cons skipped_rparen rfl))

end Tokens

/-! ### Skips -/

/-- A way to skip tokens with some parentheses open. It stops at `CREATE`, and goes over what skips
go over. -/
structure Skipper where
  commas : Bool
  skip : Nat → List Lexeme → List Lexeme
  nil : ∀ d, skip d [] = []
  create : ∀ {l : Lexeme} (d : Nat) (ts : List Lexeme), l.token = .keyword .create →
    skip d (l :: ts) = l :: ts
  passes : ∀ {l : Lexeme} {d d' : Nat} (ts : List Lexeme), l.token.skipped? commas d = some d' →
    skip d (l :: ts) = skip d' ts
  length_le : ∀ (d : Nat) (ts : List Lexeme), (skip d ts).length ≤ ts.length

namespace Skipper

/-- Up to a semicolon, or else to a comma. -/
def separator (commas : Bool) : Symbol :=
  if commas then .semicolon else .comma

def toSeparator (commas : Bool) : Skipper where
  commas := commas
  skip := skipToSeparator (separator commas)
  nil d := by rw [skipToSeparator]
  create d ts h := by
    rw [skipToSeparator.eq_def]
    simp only [h]
  passes {l d d'} ts h := by
    rw [skipToSeparator.eq_def]
    dsimp only
    cases ht : l.token with
    | symbol s =>
      rw [ht] at h
      cases s <;> cases d <;> cases commas <;> cases h <;> rfl
    | keyword k =>
      rw [ht] at h
      cases k <;> cases h <;> rfl
    | _ =>
      rw [ht] at h
      cases h
      rfl
  length_le := length_skipToSeparator_le _

/-- Over the rest of a statement. -/
def statement : Skipper where
  commas := true
  skip := skipStatementRest
  nil d := by rw [skipStatementRest]
  create d ts h := by
    rw [skipStatementRest.eq_def]
    simp only [h]
  passes {l d d'} ts h := by
    rw [skipStatementRest.eq_def]
    dsimp only
    cases ht : l.token with
    | symbol s =>
      rw [ht] at h
      cases s <;> cases d <;> cases h <;> rfl
    | keyword k =>
      rw [ht] at h
      cases k <;> cases h <;> rfl
    | _ =>
      rw [ht] at h
      cases h
      rfl
  length_le := length_skipStatementRest_le

variable {S : Skipper} {d d' : Nat}

theorem skip_append {p : List Lexeme} (h : skipped? S.commas d (p.map Lexeme.token) = some d')
    (rest : List Lexeme) : S.skip d (p ++ rest) = S.skip d' rest := by
  induction p generalizing d with
  | nil =>
    cases h
    rfl
  | cons l p ih =>
    obtain ⟨e, hl, hp⟩ := Option.bind_eq_some_iff.mp h
    exact (S.passes _ hl).trans (ih hp)

/-- In parentheses a skip gets as far as any skip that starts there. -/
theorem skip_skipToSeparator (S : Skipper) (sep : Symbol) (d k : Nat) (ts : List Lexeme) :
    S.skip (d + 1) (skipToSeparator sep k ts) = S.skip (d + 1 + k) ts := by
  fun_induction skipToSeparator sep k ts with
  | case1 => rw [S.nil, S.nil]
  | case2 k l ts hl => rw [S.create _ _ hl, S.create _ _ hl]
  | case3 l ts k hl ih => exact ih.trans (S.passes ts (by rw [hl]; rfl)).symm
  | case4 => rfl
  | case5 l ts k hl ih => exact ih.trans (S.passes ts (by rw [hl]; exact skipped_rparen)).symm
  | case6 => rfl
  | case7 l ts s hopen hclose hl hs ih =>
    refine ih.trans (S.passes ts ?_).symm
    rw [hl]
    exact skipped_inside (Nat.succ_pos d) (by rintro ⟨⟩) (fun h => hopen (Token.symbol.inj h))
      fun h => hclose (Token.symbol.inj h)
  | case8 l ts k hcreate hopen hzero hclose hother ih =>
    -- a token that is none of these, or a separator inside parentheses of the skipped construct
    refine ih.trans (S.passes ts (skipped_inside (by omega) hcreate hopen fun h => ?_)).symm
    cases k with
    | zero => exact hzero h rfl
    | succ k => exact hclose k h rfl

end Skipper

/-! ### What plain readers take -/

section Readers

variable {α β : Type} {commas : Bool} {d d' d'' : Nat}

/-- Skips go over what the reader takes, from `d` open parentheses to `d'`. -/
def Nests (commas : Bool) (d d' : Nat) (r : Reader α) : Prop :=
  Accepts r fun _ ts => skipped? commas d ts = some d'

namespace Nests

variable {r s : Reader α} {f : α → Reader β} {l : Lexeme} {t : Token}

theorem pure {a : α} : Nests commas d d (Pure.pure a : Reader α) :=
  Accepts.pure rfl

theorem bind (hr : Nests commas d d' r) (hf : ∀ a, Nests commas d' d'' (f a)) :
    Nests commas d d'' (r >>= f) :=
  Accepts.bind hr fun a _ hts => (hf a).imp fun _ _ hus => skipped_append hts hus

theorem map (hr : Nests commas d d' r) (g : α → β) : Nests commas d d' (g <$> r) :=
  Accepts.map hr fun _ _ h => h

theorem ite {b : Prop} [Decidable b] (hr : Nests commas d d' r) (hs : Nests commas d d' s) :
    Nests commas d d' (if b then r else s) := by
  split
  · exact hr
  · exact hs

/-- Both ways go on alike. -/
theorem ite_bind {b : Prop} [Decidable b] (hr : Nests commas d d' r) (hs : Nests commas d d' s)
    (hf : ∀ a, Nests commas d' d'' (f a)) :
    Nests commas d d'' (if b then r >>= f else s >>= f) :=
  .ite (hr.bind hf) (hs.bind hf)

theorem fails (h : ∀ ls, ∃ e, r ls = .error e) : Nests commas d d' r :=
  Accepts.fails h

end Nests

variable {l : Lexeme} {t : Token} {what : String} {sep : Symbol}

/-- The same of a reader that takes at least one token. -/
def Consumes (commas : Bool) (d d' : Nat) (r : Reader α) : Prop :=
  Accepts r fun _ ts => skipped? commas d ts = some d' ∧ ts ≠ []

/-- A reader of something that need not be there takes a token if it is. -/
def Offers (commas : Bool) (d : Nat) (r : Reader (Option α)) : Prop :=
  Accepts r fun o ts => skipped? commas d ts = some d ∧ (o.isSome = true → ts ≠ [])

theorem Consumes.nests {r : Reader α} (h : Consumes commas d d' r) : Nests commas d d' r :=
  Accepts.imp h fun _ _ hts => hts.1

theorem Offers.nests {r : Reader (Option α)} (h : Offers commas d r) : Nests commas d d r :=
  Accepts.imp h fun _ _ hts => hts.1

/-- Past a token that was looked at. -/
theorem Accepts.past {r : Reader α} (h : Nests commas d' d'' r)
    (ht : t.skipped? commas d = some d') :
    Accepts r fun _ us => skipped? commas d (t :: us) = some d'' :=
  h.imp fun _ _ hus => skipped_cons ht hus

theorem nests_refuse {fault : Fault} {place : Span} :
    Nests commas d d' (refuse fault place : Reader α) :=
  .fails fun _ => ⟨_, rfl⟩

theorem nests_refuseHere : Nests commas d d' (refuseHere what : Reader α) :=
  .fails fun ls => by cases ls <;> exact ⟨_, rfl⟩

theorem nests_peek : Nests commas d d peek? := by
  intro ls a rest h
  cases h
  exact ⟨[], rfl, rfl⟩

theorem nests_isAt : Nests commas d d (isAt t) :=
  nests_peek.bind fun _ => .pure

theorem nests_eat (ht : t.skipped? commas d = some d) : Nests commas d d (eat t) := by
  have hall : Nests commas d d (eat t >>= Pure.pure) := Accepts.eat (.past .pure ht) (.pure rfl)
  rw [bind_pure] at hall
  exact hall

theorem nests_expect (ht : t.skipped? commas d = some d') : Nests commas d d' (expect t) := by
  refine Accepts.next fun l => ?_
  split
  · rename_i hl
    exact .past .pure (by rw [hl]; exact ht)
  · exact .refuseLexeme

theorem consumes_expect (ht : t.skipped? commas d = some d') :
    Consumes commas d d' (discard (expect t)) := by
  refine (Accepts.expect t).imp ?_
  rintro _ _ rfl
  exact ⟨skipped_cons ht rfl, List.cons_ne_nil t []⟩

theorem consumes_name : Consumes commas d d (expectName what) := by
  refine Accepts.next fun l => ?_
  split
  · rename_i word hword
    exact .pure ⟨skipped_cons (skipped_name hword) rfl, List.cons_ne_nil _ _⟩
  · exact .refuseLexeme

theorem nests_string : Nests commas d d expectString := by
  refine Accepts.next fun l => ?_
  split
  · rename_i text hl
    exact .past .pure (by rw [hl]; rfl)
  · exact .refuseLexeme

theorem nests_count : Nests commas d d expectCount := by
  refine Accepts.next fun l => ?_
  split
  · rename_i digits hl
    exact .past (.ite .pure nests_refuse) (by rw [hl]; rfl)
  · exact .refuseLexeme

namespace Nests

theorem eat {f : Bool → Reader β} (ht : t.skipped? commas d = some d)
    (hf : ∀ b, Nests commas d d' (f b)) : Nests commas d d' (Reader.eat t >>= f) :=
  (nests_eat ht).bind hf

theorem keyword {k : Keyword} {f : Unit → Reader β}
    (hk : (Token.keyword k).skipped? commas d = some d) (hf : ∀ u, Nests commas d d' (f u)) :
    Nests commas d d' (expectKeyword k >>= f) :=
  (consumes_expect hk).nests.bind hf

theorem symbol {s : Symbol} {f : Unit → Reader β}
    (hs : (Token.symbol s).skipped? commas d = some d) (hf : ∀ u, Nests commas d d' (f u)) :
    Nests commas d d' (expectSymbol s >>= f) :=
  (consumes_expect hs).nests.bind hf

theorem lparen {f : Unit → Reader β} (hf : ∀ u, Nests commas (d + 1) d' (f u)) :
    Nests commas d d' (expectSymbol .lparen >>= f) :=
  (consumes_expect rfl).nests.bind hf

theorem rparen {f : Unit → Reader β} (hf : ∀ u, Nests commas d d' (f u)) :
    Nests commas (d + 1) d' (expectSymbol .rparen >>= f) :=
  (consumes_expect skipped_rparen).nests.bind hf

theorem name {f : String × Span → Reader β} (hf : ∀ p, Nests commas d d' (f p)) :
    Nests commas d d' (expectName what >>= f) :=
  consumes_name.nests.bind hf

end Nests

theorem Consumes.keyword {k : Keyword} {f : Unit → Reader β}
    (hk : (Token.keyword k).skipped? commas d = some d) (hf : ∀ u, Nests commas d d' (f u)) :
    Consumes commas d d' (expectKeyword k >>= f) :=
  Accepts.keyword ((hf ()).imp fun _ _ hts => ⟨skipped_cons hk hts, List.cons_ne_nil _ _⟩)

/-- What begins with a token of its own. -/
theorem Offers.eat {f : Bool → Reader (Option β)} (ht : t.skipped? commas d = some d)
    (h : Nests commas d d (f true)) (hnone : f false = pure none) :
    Offers commas d (Reader.eat t >>= f) := by
  refine Accepts.eat (h.imp fun _ _ hts => ⟨skipped_cons ht hts, fun _ => List.cons_ne_nil _ _⟩) ?_
  rw [hnone]
  exact .pure ⟨rfl, nofun⟩

theorem nests_many {item? : Reader (Option α)} (h : Nests commas d d item?) :
    Nests commas d d (many item?) := by
  intro ls as rest hread
  fun_induction many item? ls generalizing as rest with
  | case1 => cases hread
  | case2 ls left hnone =>
    cases hread
    exact h hnone
  | case3 => cases hread
  | case4 ls a left hsome hlength as last hmore ih =>
    cases hread
    obtain ⟨p, rfl, hp⟩ := h hsome
    obtain ⟨q, rfl, hq⟩ := ih hmore
    refine ⟨p ++ q, (List.append_assoc _ _ _).symm, ?_⟩
    rw [List.map_append]
    exact skipped_append hp hq
  | case5 ls a left hsome hlength =>
    cases hread
    exact h hsome

theorem nests_sepBy1 {item : Reader α} (hsep : (Token.symbol sep).skipped? commas d = some d)
    (h : Nests commas d d item) : Nests commas d d (sepBy1 sep item) := by
  have hmore : Nests commas d d (itemAfter? sep item) :=
    (nests_eat hsep).bind fun _ => .ite (h.map _) .pure
  refine h.bind fun a => ?_
  rw [moreItems_eq_many]
  exact (nests_many hmore).bind fun _ => .pure

theorem nests_columnList : Nests commas d d columnList :=
  .lparen fun _ =>
    (nests_sepBy1 (skipped_comma (.inr (Nat.succ_pos d))) (consumes_name.nests.map _)).bind fun _ =>
      .rparen fun _ => .pure

section Statements

theorem nests_expr : Nests commas d d expr :=
  accepts_expr.imp fun _ _ h => h.skipped commas d

theorem nests_filter : Nests commas d d optionalFilter :=
  .eat rfl fun _ => .ite (nests_expr.map _) .pure

theorem nests_insert : Nests commas d d insertStatement := by
  refine .keyword rfl fun _ => .keyword rfl fun _ => .name fun _ => ?_
  refine nests_columnList.bind fun _ => .keyword rfl fun _ => .lparen fun _ => ?_
  refine (nests_sepBy1 (skipped_comma (.inr (Nat.succ_pos d))) nests_expr).bind fun _ => ?_
  refine (nests_expect skipped_rparen).bind fun _ => ?_
  split
  · exact .pure
  · exact nests_refuse

theorem nests_assignment : Nests commas d d assignment :=
  .name fun _ => .symbol rfl fun _ => nests_expr.bind fun _ => .pure

theorem nests_update (h : commas = true ∨ 0 < d) : Nests commas d d updateStatement := by
  refine .keyword rfl fun _ => .name fun _ => .keyword rfl fun _ => ?_
  refine (nests_sepBy1 (skipped_comma h) nests_assignment).bind fun _ => ?_
  exact nests_filter.bind fun _ => .pure

theorem nests_delete : Nests commas d d deleteStatement :=
  .keyword rfl fun _ => .keyword rfl fun _ => .name fun _ =>
    nests_filter.bind fun _ => .pure

theorem nests_dml (h : commas = true ∨ 0 < d) : Nests commas d d dml := by
  refine nests_peek.bind fun _ => ?_
  split
  · exact nests_insert
  · exact nests_update h
  · exact nests_delete
  · exact nests_refuseHere

theorem nests_template (h : commas = true ∨ 0 < d) : Nests commas d d template :=
  .name fun _ => .keyword rfl fun _ => (nests_dml h).bind fun _ => .pure

theorem nests_tableRef : Nests commas d d tableRef := by
  refine .name fun _ => .eat rfl fun _ => ?_
  refine .ite (.name fun _ => .pure) (nests_peek.bind fun _ => ?_)
  split
  · exact .name fun _ => .pure
  · exact .pure

theorem nests_joinKind : Nests commas d d joinKind? := by
  refine nests_peek.bind fun _ => ?_
  split
  · exact .pure
  · exact .bind (.map (nests_eat rfl) _) fun _ => .pure
  · exact .bind (.map (nests_eat rfl) _) fun _ => .bind (.map (nests_eat rfl) _) fun _ => .pure
  · exact .pure

theorem offers_join : Offers commas d join? := by
  have hkind : Nests commas d d joinKind? := nests_joinKind
  refine Accepts.bind hkind fun kind ts hts => ?_
  split
  · exact .pure ⟨skipped_append hts rfl, nofun⟩
  · have hjoin : ∀ kind, Consumes commas d d (do
        expectKeyword .join
        let table ← tableRef
        expectKeyword .on
        let on ← expr
        return some (Join.mk kind table on)) := fun _ =>
      .keyword rfl fun _ => nests_tableRef.bind fun _ => .keyword rfl fun _ =>
        nests_expr.bind fun _ => .pure
    exact (hjoin _).imp fun _ _ hus =>
      ⟨skipped_append hts hus.1, fun _ => List.append_ne_nil_of_right_ne_nil ts hus.2⟩

theorem nests_select (h : commas = true ∨ 0 < d) : Nests commas d d select := by
  refine .keyword rfl fun _ => (nests_sepBy1 (skipped_comma h) nests_expr).bind fun _ => ?_
  refine .keyword rfl fun _ => nests_tableRef.bind fun _ => ?_
  rw [joins_eq_many]
  exact (nests_many offers_join.nests).bind fun _ => nests_filter.bind fun _ => .pure

theorem offers_union (h : commas = true ∨ 0 < d) : Offers commas d union? :=
  .eat rfl (.ite (.eat rfl fun _ => (nests_select h).bind fun _ => .pure) .pure) rfl

theorem nests_query (h : commas = true ∨ 0 < d) : Nests commas d d query := by
  refine (nests_select h).bind fun _ => ?_
  rw [unions_eq_many]
  exact (nests_many (offers_union h).nests).bind fun _ => .pure

theorem nests_hintScope : Nests commas d d hintScope := by
  refine Accepts.next fun l => ?_
  split
  · rename_i hl
    exact .past .pure (by rw [hl]; rfl)
  · rename_i word hl
    have hlevel : l.token.skipped? commas d = some d := by rw [hl]; rfl
    refine .past ?_ hlevel
    split
    · exact .pure
    · exact nests_refuse
  · exact .refuseLexeme

theorem nests_hintKey (target : HintTarget) : Nests commas d d (hintKey target) := by
  refine Accepts.next fun l => ?_
  split
  · rename_i word hl
    have hlevel : l.token.skipped? commas d = some d := by rw [hl]; rfl
    refine .past ?_ hlevel
    split
    · exact .ite .pure nests_refuse
    · exact nests_refuse
  · exact .refuseLexeme

theorem nests_hint (target : HintTarget) : Nests commas d d (hint target) := by
  refine nests_hintScope.bind fun _ => (nests_hintKey target).bind fun _ => ?_
  refine .eat rfl fun _ => .ite_bind (nests_string.map _) .pure fun _ => ?_
  refine .ite nests_refuse ?_
  split
  · exact .pure
  · exact nests_refuse

end Statements

section Elements

theorem nests_orInvalid {x : Except SchemaError α} {place : Span} :
    Nests commas d d (orInvalid place x) := by
  cases x with
  | ok a => exact .pure
  | error e => exact nests_refuse

theorem nests_precisionAndScale : Nests commas d d precisionAndScale := by
  refine .lparen fun _ => nests_count.bind fun _ => ?_
  refine (nests_eat (skipped_comma (.inr (Nat.succ_pos d)))).bind fun _ => ?_
  refine .ite_bind (nests_count.map _) .pure fun _ => ?_
  exact .rparen fun _ => .pure

theorem nests_length : Nests commas d d lengthInParentheses :=
  .lparen fun _ => nests_count.bind fun _ => .rparen fun _ => .pure

theorem nests_dataType : Nests commas d d dataType := by
  refine Accepts.next fun l => ?_
  split
  case h_10 hl =>
    exact .past (nests_precisionAndScale.bind fun _ => nests_orInvalid) (by rw [hl]; rfl)
  case h_11 hl =>
    refine .past (nests_isAt.bind fun _ => .ite ?_ .pure) (by rw [hl]; rfl)
    refine nests_precisionAndScale.bind fun _ => ?_
    exact (nests_orInvalid.map _).bind fun _ => .pure
  case h_12 hl => exact .past (nests_length.bind fun _ => nests_orInvalid) (by rw [hl]; rfl)
  case h_13 hl => exact .past (nests_length.bind fun _ => nests_orInvalid) (by rw [hl]; rfl)
  case h_14 => exact .refuseLexeme
  all_goals
    rename_i hl
    exact .past .pure (by rw [hl]; rfl)

theorem nests_numberLiteral {negative : Bool} : Nests commas d d (numberLiteral negative l) := by
  unfold numberLiteral
  dsimp only
  split
  · exact .pure
  · exact .ite .pure nests_refuse
  · exact nests_refuse

theorem nests_literal : Nests commas d d literal := by
  refine .eat rfl fun _ => Accepts.next fun l => ?_
  split
  · rename_i hl
    exact .past nests_numberLiteral (by rw [hl]; rfl)
  · rename_i hl
    exact .past nests_numberLiteral (by rw [hl]; rfl)
  · rename_i hl
    exact .past .pure (by rw [hl]; rfl)
  · rename_i hl
    exact .past .pure (by rw [hl]; rfl)
  · exact .refuseLexeme

theorem nests_defaultValue : Nests commas d d defaultValue :=
  .eat rfl fun _ => .ite .pure (nests_literal.map _)

theorem nests_referentialAction : Nests commas d d referentialAction := by
  refine Accepts.next fun l => ?_
  split
  · rename_i hl
    exact .past .pure (by rw [hl]; rfl)
  · rename_i hl
    exact .past .pure (by rw [hl]; rfl)
  · rename_i hl
    exact .past (.keyword rfl fun _ => .pure) (by rw [hl]; rfl)
  · rename_i hl
    exact .past (.keyword rfl fun _ => .pure) (by rw [hl]; rfl)
  · exact .refuseLexeme

theorem offers_actionClause (r : Reference) : Offers commas d (actionClause? r) := by
  refine .eat rfl (.ite (Accepts.next fun l => ?_) .pure) rfl
  split
  · rename_i hl
    exact .past (nests_referentialAction.bind fun _ => .pure) (by rw [hl]; rfl)
  · rename_i hl
    exact .past (nests_referentialAction.bind fun _ => .pure) (by rw [hl]; rfl)
  · exact .refuseLexeme

theorem nests_actionClauses (r : Reference) : Nests commas d d (actionClauses r) := by
  intro ls a rest hread
  fun_induction actionClauses r ls with
  | case1 => cases hread
  | case2 r ls left hnone =>
    cases hread
    exact (offers_actionClause _).nests hnone
  | case3 r ls r' left hsome hlength ih =>
    have hclause : Nests commas d d (actionClause? r) := (offers_actionClause r).nests
    obtain ⟨p, rfl, hp⟩ := hclause hsome
    obtain ⟨q, rfl, hq⟩ := ih hread
    refine ⟨p ++ q, (List.append_assoc _ _ _).symm, ?_⟩
    rw [List.map_append]
    exact skipped_append hp hq
  | case4 r ls r' left hsome hlength =>
    cases hread
    exact (offers_actionClause _).nests hsome

theorem consumes_references : Consumes commas d d references := by
  refine .keyword rfl fun _ => .name fun _ => .lparen fun _ => ?_
  exact .name fun _ => .rparen fun _ => nests_actionClauses _

theorem nests_keyElement (table : TableDraft) (name : Option String) :
    Nests commas d d (keyElement? table name) := by
  refine nests_peek.bind fun _ => ?_
  split
  · refine .keyword rfl fun _ => .keyword rfl fun _ => ?_
    exact nests_columnList.bind fun _ => .pure
  · exact .keyword rfl fun _ => nests_columnList.bind fun _ => .pure
  · refine .keyword rfl fun _ => .keyword rfl fun _ => .lparen fun _ => ?_
    refine .name fun _ => .rparen fun _ => ?_
    exact consumes_references.nests.bind fun _ => .pure
  · exact .pure

end Elements

end Readers

end Schemata
