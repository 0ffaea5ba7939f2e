import Schemata.Proofs.PrintedExpr

/-! Reading a schema back. Each artifact is read from its own tokens, up to the signs in its
expressions, and the statement loop gathers the artifacts in their order. -/
namespace Schemata

open Grammar Reader

theorem reads_columns {β : Type} {k : List String → Reader β} {columns : List String}
    {us follow : List Token} {Q : β → Prop} (hne : columns ≠ [])
    (hk : Reads (k columns) us Q follow) :
    Reads (columnList >>= k)
      (.symbol .lparen :: (nameTokens columns ++ .symbol .rparen :: us)) Q follow := by
  have hread := (reads_columnList hne).bind (List.Subset.refl _) fun _ h => h ▸ hk
  simpa using hread

theorem recovers_columns {β : Type} {k : List String → Recovering β} {columns : List String}
    {us follow : List Token} {Q : β → Prop} (hne : columns ≠ [])
    (hk : Recovers (k columns) us Q follow) :
    Recovers (liftM columnList >>= k)
      (.symbol .lparen :: (nameTokens columns ++ .symbol .rparen :: us)) Q follow := by
  have hread := (Recovers.lift (reads_columnList hne)).bind (List.Subset.refl _) fun _ h => h ▸ hk
  simpa using hread

theorem reads_filter {filter : Option Expr} (h : ∀ e ∈ filter, e.WellFormed)
    {follow : List Token} (hfollow : follow ⊆ exprFollow) (hwhere : .keyword .where ∉ follow) :
    Reads optionalFilter (filterTokens filter) (· = filter.map Expr.foldSigns) follow := by
  cases filter with
  | none =>
    refine .look (looks_eat hwhere) ?_
    rintro _ rfl
    exact .pure rfl
  | some e =>
    refine .step takes_eat ?_
    rintro _ rfl
    exact ((reads_expr (h e rfl)).weaken hfollow).map fun _ h => congrArg some h

theorem reads_assignment {a : String × Expr} (h : a.2.WellFormed) :
    Reads assignment (assignmentTokens a) (· = (a.1, a.2.foldSigns)) exprFollow := by
  refine .step (takes_name _) ?_
  rintro _ ⟨place, rfl⟩
  refine .step takes_symbol fun _ _ => (reads_expr h).last ?_
  rintro _ rfl
  exact .pure rfl

theorem reads_dml {d : Dml} (h : d.WellFormed) :
    Reads dml d.tokens (· = d.mapExpr Expr.foldSigns) [.symbol .semicolon] := by
  have hexprs := h.expressions
  have hshape := h.shape
  cases d with
  | insert table columns values =>
    obtain ⟨hne, hlength⟩ := hshape
    have hvalues : ∀ e ∈ values, Reads expr e.tokens (· = e.foldSigns)
        [.symbol .comma, .symbol .rparen] := fun e he =>
      (reads_expr (hexprs e he)).weaken (by decide)
    have hsome : values ≠ [] := fun hnil => hne (List.eq_nil_of_length_eq_zero (by simp_all))
    refine .look looks_peek ?_
    rintro _ rfl
    refine .step takes_keyword fun _ _ => .step takes_keyword fun _ _ => .step (takes_name _) ?_
    rintro _ ⟨place, rfl⟩
    refine reads_columns hne (.step takes_keyword fun _ _ => .step takes_symbol fun _ _ => ?_)
    refine (reads_sepBy1 hsome (by decide) hvalues).bind (List.Subset.refl _) ?_
    rintro _ rfl
    refine .step takes_expect fun _ _ => ?_
    rw [Dml.insert?, if_pos (by rw [List.length_map, hlength])]
    exact .pure rfl
  | update table assignments filter =>
    have hassign : ∀ a ∈ assignments, Reads assignment (assignmentTokens a)
        (· = (a.1, a.2.foldSigns)) [.symbol .comma, .keyword .where, .symbol .semicolon] :=
      fun a ha => (reads_assignment (hexprs a.2
        (List.mem_append_left _ (List.mem_map.mpr ⟨a, ha, rfl⟩)))).weaken (by decide)
    have hfilter : ∀ e ∈ filter, e.WellFormed := fun e he =>
      hexprs e (List.mem_append_right _ (Option.mem_toList.mpr he))
    refine .look looks_peek ?_
    rintro _ rfl
    refine .step takes_keyword fun _ _ => .step (takes_name _) ?_
    rintro _ ⟨place, rfl⟩
    refine .step takes_keyword fun _ _ =>
      (reads_sepBy1 hshape (by decide) hassign).bind upNext_optional ?_
    rintro _ rfl
    refine (reads_filter hfilter (by decide) (by decide)).last ?_
    rintro _ rfl
    exact .pure rfl
  | delete table filter =>
    have hfilter : ∀ e ∈ filter, e.WellFormed := fun e he =>
      hexprs e (Option.mem_toList.mpr he)
    refine .look looks_peek ?_
    rintro _ rfl
    refine .step takes_keyword fun _ _ => .step takes_keyword fun _ _ => .step (takes_name _) ?_
    rintro _ ⟨place, rfl⟩
    refine (reads_filter hfilter (by decide) (by decide)).last ?_
    rintro _ rfl
    exact .pure rfl

theorem reads_template {d : DmlStatement} (h : d.WellFormed) :
    Reads template ([nameToken d.name] ++ ([Token.keyword .as] ++ d.body.tokens))
      (fun p => p.1 = d.mapExpr Expr.foldSigns) [.symbol .semicolon] := by
  refine .step (takes_name _) ?_
  rintro _ ⟨place, rfl⟩
  refine .step takes_keyword fun _ _ => (reads_dml h.body).last ?_
  rintro _ rfl
  exact .pure rfl

section Selects

/-- Tokens after which the name of a table has no alias. -/
def refFollow : List Token :=
  [.keyword .on, .keyword .join, .keyword .left, .keyword .where, .keyword .union,
   .keyword .comment, .keyword .dbms, .symbol .semicolon]

theorem reads_tableRef (t : TableRef) : Reads tableRef t.tokens (· = t) refFollow := by
  obtain ⟨table, otherName⟩ := t
  cases otherName with
  | none =>
    change Reads tableRef [nameToken table] _ _
    refine .step (takes_name _) ?_
    rintro _ ⟨place, rfl⟩
    refine .look (looks_eat (by decide)) ?_
    rintro _ rfl
    refine .look looks_peek_nil fun o ho => ?_
    have hname : o.bind Token.nameWord? = none := by
      cases o with
      | none => rfl
      | some t =>
        have hall : ∀ t ∈ refFollow, t.nameWord? = none := by decide
        exact hall t (ho t rfl)
    rw [hname]
    exact .pure rfl
  | some other =>
    change Reads tableRef [nameToken table, nameToken other] _ _
    have hname : (nameToken other).nameWord? = some other := nameWord_nameToken other
    have has : .keyword .as ∉ upNext [nameToken other] refFollow := by
      rcases nameToken_cases other with h | h <;> simp [h, upNext]
    refine .step (takes_name _) ?_
    rintro _ ⟨place, rfl⟩
    refine .look (looks_eat has) ?_
    rintro _ rfl
    refine .look looks_peek ?_
    rintro _ rfl
    rw [Option.bind_some, hname]
    refine .step (takes_name _) ?_
    rintro _ ⟨place, rfl⟩
    exact .pure rfl

theorem looks_inner {us follow : List Token} :
    Looks joinKind? (.keyword .join :: us) (· = some .inner) follow := by
  intro ls rest hls _
  obtain ⟨⟨_, span⟩, last, rfl, rfl, -⟩ := List.map_eq_cons_iff.mp hls
  exact ⟨some .inner, rfl, rfl⟩

theorem reads_left : Reads joinKind? [.keyword .left] (· = some .left) [.keyword .join] := by
  refine .look looks_peek ?_
  rintro _ rfl
  exact .step takes_eat.discard fun _ _ => .look (looks_eat (by decide)).discard fun _ _ =>
    .pure rfl

/-- Tokens after which a join is over. -/
def joinFollow : List Token :=
  [.keyword .join, .keyword .left, .keyword .where, .keyword .union, .keyword .comment,
   .keyword .dbms, .symbol .semicolon]

theorem reads_join {j : Join} (h : j.on.WellFormed) :
    Reads join? j.tokens (· = some { j with on := j.on.foldSigns }) joinFollow := by
  obtain ⟨kind, table, on⟩ := j
  have hrest : ∀ kind, Reads (do
      expectKeyword .join
      let table ← tableRef
      expectKeyword .on
      let on ← expr
      return some ⟨kind, table, on⟩ : Reader (Option Join))
      (.keyword .join :: (table.tokens ++ (.keyword .on :: on.tokens)))
      (· = some ⟨kind, table, on.foldSigns⟩) joinFollow := by
    intro kind
    refine .step takes_keyword fun _ _ => (reads_tableRef table).bind (upNext_cons (by decide)) ?_
    rintro _ rfl
    refine .step takes_keyword fun _ _ => ((reads_expr h).weaken (by decide)).last ?_
    rintro _ rfl
    exact .pure rfl
  cases kind with
  | inner =>
    refine .look looks_inner ?_
    rintro _ rfl
    exact hrest .inner
  | left =>
    refine reads_left.bind (upNext_cons (by decide)) ?_
    rintro _ rfl
    exact hrest .left

theorem reads_no_join {follow : List Token} (h : follow ⊆ [.keyword .where, .keyword .union,
    .keyword .comment, .keyword .dbms, .symbol .semicolon]) :
    Reads join? [] (· = none) follow := by
  have hkind : Reads joinKind? [] (· = none) follow := by
    refine .look looks_peek_nil fun o ho => ?_
    cases o with
    | none => exact .pure rfl
    | some t =>
      have ht := h (ho t rfl)
      simp only [List.mem_cons, List.not_mem_nil, or_false] at ht
      rcases ht with rfl | rfl | rfl | rfl | rfl <;> exact .pure rfl
  refine hkind.last ?_
  rintro _ rfl
  exact .pure rfl

/-- Tokens after which a select is over. -/
def selectFollow : List Token :=
  [.keyword .union, .keyword .comment, .keyword .dbms, .symbol .semicolon]

theorem join_starts (joins : List Join) : ∀ j ∈ joins,
    upNext j.tokens [] ⊆ [.keyword .join, .keyword .left] ∧ j.tokens ≠ [] := by
  rintro ⟨kind, table, on⟩ -
  cases kind with
  | inner => exact ⟨upNext_cons (by decide), List.cons_ne_nil _ _⟩
  | left => exact ⟨upNext_cons (by decide), List.cons_ne_nil _ _⟩

theorem reads_select {s : Select} (h : s.WellFormed) :
    Reads select s.tokens (· = s.mapExpr Expr.foldSigns) selectFollow := by
  obtain ⟨hne, htables, hexprs⟩ := h
  have hitems : ∀ e ∈ s.items, Reads expr e.tokens (· = e.foldSigns)
      [.symbol .comma, .keyword .from] := fun e he =>
    (reads_expr (hexprs e (List.mem_append_left _ (List.mem_append_left _ he)))).weaken (by decide)
  have hjoins : ∀ j ∈ s.joins, Reads join? j.tokens (· = some { j with on := j.on.foldSigns })
      ([Token.keyword .join, .keyword .left] ++ (.keyword .where :: selectFollow)) := fun j hj =>
    reads_join (hexprs j.on (List.mem_append_left _ (List.mem_append_right _
      (List.mem_map.mpr ⟨j, hj, rfl⟩))))
  have hjoined : Reads joins (s.joins.flatMap Join.tokens)
      (· = s.joins.map fun j => { j with on := j.on.foldSigns })
      (.keyword .where :: selectFollow) := by
    rw [joins_eq_many]
    exact reads_many (join_starts s.joins) hjoins (reads_no_join (by decide))
  have hfilter : ∀ e ∈ s.filter, e.WellFormed := fun e he =>
    hexprs e (List.mem_append_right _ (Option.mem_toList.mpr he))
  refine .step takes_keyword fun _ _ => (reads_sepBy1 hne (by decide) hitems).bind
    (upNext_cons (by decide)) ?_
  rintro _ rfl
  refine .step takes_keyword fun _ _ => (reads_tableRef s.source).bind ?_ ?_
  · rw [upNext_append]
    refine List.Subset.trans (upNext_flatMap (join_starts s.joins))
      (List.append_subset.mpr ⟨by decide, ?_⟩)
    exact List.Subset.trans upNext_optional (by decide)
  rintro _ rfl
  refine hjoined.bind upNext_optional ?_
  rintro _ rfl
  refine (reads_filter hfilter (by decide) (by decide)).last ?_
  rintro _ rfl
  exact .pure rfl

theorem union_starts (unions : List (UnionKind × Select)) : ∀ u ∈ unions,
    upNext (unionTokens u) [] ⊆ [.keyword .union] ∧ unionTokens u ≠ [] := by
  rintro ⟨kind, s⟩ -
  cases kind with
  | distinct => exact ⟨upNext_cons (by decide), List.cons_ne_nil _ _⟩
  | all => exact ⟨upNext_cons (by decide), List.cons_ne_nil _ _⟩

theorem reads_union {u : UnionKind × Select} (h : u.2.WellFormed) :
    Reads union? (unionTokens u) (· = some (u.1, u.2.mapExpr Expr.foldSigns)) selectFollow := by
  obtain ⟨kind, s⟩ := u
  cases kind with
  | distinct =>
    refine .step takes_eat ?_
    rintro _ rfl
    refine .look (looks_eat (by simp [Select.tokens, upNext])) ?_
    rintro _ rfl
    refine (reads_select h).last ?_
    rintro _ rfl
    exact .pure rfl
  | all =>
    refine .step takes_eat ?_
    rintro _ rfl
    refine .step takes_eat ?_
    rintro _ rfl
    refine (reads_select h).last ?_
    rintro _ rfl
    exact .pure rfl

/-- Tokens that may follow on a query. -/
def clauseFollow : List Token :=
  [.keyword .comment, .keyword .dbms, .symbol .semicolon]

theorem reads_query {q : Query} (h : ∀ s ∈ q.selects, s.WellFormed) :
    Reads query q.tokens (· = q.mapExpr Expr.foldSigns) clauseFollow := by
  have hfirst := reads_select (h q.first List.mem_cons_self)
  have hunions : ∀ u ∈ q.unions, Reads union? (unionTokens u)
      (· = some (u.1, u.2.mapExpr Expr.foldSigns)) ([Token.keyword .union] ++ clauseFollow) :=
    fun u hu => reads_union (h u.2 (List.mem_cons_of_mem _ (List.mem_map.mpr ⟨u, hu, rfl⟩)))
  have hnone : Reads union? [] (· = none) clauseFollow := by
    refine .look (looks_eat (by decide)) ?_
    rintro _ rfl
    exact .pure rfl
  refine hfirst.bind (upNext_flatMap (union_starts q.unions)) ?_
  rintro _ rfl
  rw [unions_eq_many]
  refine (reads_many (union_starts q.unions) hunions hnone).last ?_
  rintro _ rfl
  exact .pure rfl

end Selects

section HintBlocks

theorem takes_scope (scope : HintScope) : Takes hintScope scope.token (· = scope) := by
  intro l rest hl
  refine ⟨scope, (Reads.bind_eq rfl).trans ?_, rfl⟩
  rw [hl]
  cases scope with
  | all => rfl
  | dialect d => cases d <;> rfl

theorem takes_hintKey {key : HintKey} {target : HintTarget} (h : key.allowedOn target = true) :
    Takes (hintKey target) (.name key.keyword) (∃ place, · = (key, place)) := by
  intro l rest hl
  refine ⟨(key, l.span), (Reads.bind_eq rfl).trans ?_, l.span, rfl⟩
  have hkey : HintKey.ofKeyword? key.keyword = some key := by cases key <;> rfl
  rw [hl]
  dsimp only
  rw [hkey]
  dsimp only
  rw [if_pos h]
  rfl

theorem reads_hint {entry : ScopedHint} {target : HintTarget}
    (h : entry.hint.key.allowedOn target = true) {follow : List Token}
    (heq : .symbol .eq ∉ follow) : Reads (hint target) entry.tokens (· = entry) follow := by
  obtain ⟨scope, hint⟩ := entry
  have hvalue : ∀ v ∈ hint.value?, Reads expectString [.string v] (· = v) follow :=
    fun v _ => .of_takes takes_string
  refine .step (takes_scope scope) ?_
  rintro _ rfl
  refine .step (takes_hintKey h) ?_
  rintro _ ⟨place, rfl⟩
  have htokens : optionalTokens [.symbol .eq] (fun v => [.string v]) hint.value? =
      optionalTokens [.symbol .eq] (fun v => [.string v]) hint.value? ++ [] := by simp
  refine htokens ▸ reads_optional hvalue (List.Subset.refl _) heq ?_
  rw [Option.map_id']
  cases hint <;> exact .pure rfl

theorem hintTokens_eq {hints : Hints} (h : hints ≠ []) :
    hintTokens hints = .keyword .dbms :: .keyword .hints :: .symbol .lparen ::
      (commaTokens (hints.map ScopedHint.tokens) ++ [Token.symbol .rparen]) := by
  cases hints with
  | nil => exact absurd rfl h
  | cons entry hints => rfl

theorem hintTokens_ne_nil {hints : Hints} (h : hints ≠ []) : hintTokens hints ≠ [] := by
  rw [hintTokens_eq h]
  exact List.cons_ne_nil _ _

theorem upNext_hints {hints : Hints} {follow : List Token} :
    upNext (hintTokens hints) follow ⊆ .keyword .dbms :: follow := by
  cases hints with
  | nil => exact List.subset_cons_self _ _
  | cons entry hints => exact upNext_cons List.mem_cons_self

theorem recovers_hintBlock {hints : Hints} {target : HintTarget} (hne : hints ≠ [])
    (h : hints.AllowedOn target) {follow : List Token} :
    Recovers (hintBlock target) (hintTokens hints) (· = hints) follow := by
  have hitem : ∀ entry ∈ hints, ∀ read : Hints,
      Recovers (do return read ++ [← hint target]) entry.tokens (· = read ++ [entry])
        [.symbol .comma, .symbol .rparen] := by
    intro entry hentry read
    refine (Recovers.lift (reads_hint (h entry hentry) (by decide))).last ?_
    rintro _ rfl
    exact .pure rfl
  rw [hintTokens_eq hne]
  refine .step takes_keyword fun _ _ => .step takes_keyword fun _ _ => .step takes_symbol
    fun _ _ => (recovers_sepBy1 hne (by decide) hitem []).bind (List.Subset.refl _) ?_
  rintro _ rfl
  exact .step takes_symbol fun _ _ => .pure (foldl_snoc [] hints)

end HintBlocks

section Views

variable {draft : ViewDraft} {follow : List Token}

theorem recovers_viewComment (text : String) :
    Recovers (viewClause? draft) [.keyword .comment, .string text]
      (· = some { draft with comment := some text }) follow := by
  refine .look looks_peek ?_
  rintro _ rfl
  refine .step takes_keyword fun _ _ => .step takes_string ?_
  rintro _ rfl
  exact .pure rfl

theorem recovers_viewHints {hints : Hints} (hne : hints ≠ []) (h : hints.AllowedOn .view) :
    Recovers (viewClause? draft) (hintTokens hints) (· = some { draft with hints }) follow := by
  have hblock : Recovers (hintBlock .view) (hintTokens hints) (· = hints) follow :=
    recovers_hintBlock hne h
  rw [hintTokens_eq hne] at hblock ⊢
  refine .look looks_peek ?_
  rintro _ rfl
  refine hblock.last ?_
  rintro _ rfl
  exact .pure rfl

theorem recovers_no_viewClause :
    Recovers (viewClause? draft) [] (· = none) [.symbol .semicolon] := by
  refine .look looks_peek_nil fun o ho => ?_
  cases o with
  | none => exact .pure rfl
  | some t =>
    cases List.mem_singleton.mp (ho t rfl)
    exact .pure rfl

theorem recovers_viewClauses {v : View} (hv : v.hints.AllowedOn .view) (name : String)
    (columns : List String) (selects : List (Option UnionKind × Select)) :
    Recovers (repeatClauses viewClause? { name, columns, selects })
      (commentTokens v.comment ++ hintTokens v.hints)
      (· = { name, columns, selects, comment := v.comment, hints := v.hints })
      [.symbol .semicolon] := by
  have hhints : upNext (hintTokens v.hints) [.symbol .semicolon] ⊆
      [.keyword .dbms, .symbol .semicolon] := upNext_hints
  refine recovers_clause { name, columns, selects, comment := v.comment } ?_ hhints ?_
  · cases v.comment with
    | none => exact Or.inl ⟨rfl, rfl⟩
    | some text => exact Or.inr ⟨List.cons_ne_nil _ _, recovers_viewComment text⟩
  rw [← List.append_nil (hintTokens v.hints)]
  refine recovers_clause { name, columns, selects, comment := v.comment, hints := v.hints } ?_
    (List.Subset.refl _) (recovers_noClause recovers_no_viewClause rfl)
  by_cases hne : v.hints = []
  · rw [hne]
    exact Or.inl ⟨rfl, rfl⟩
  · exact Or.inr ⟨hintTokens_ne_nil hne, recovers_viewHints hne hv⟩

theorem recovers_builtView {d : ViewDraft} {v : View} (h : d.build = .ok v) (place : Span) :
    Recovers (match d.build with
      | .ok v => return some (v, place)
      | .error e => do
        Recovering.record (.invalidSchema e) place
        return none)
      [] (fun o => ∃ place, o = some (v, place)) follow := by
  rw [h]
  exact .pure ⟨place, rfl⟩

/-- The place of a view's name is of no concern to what is read. -/
theorem recovers_view {v : View} (h : v.WellFormed) :
    Recovers view ([nameToken v.name] ++ ([Token.symbol .lparen] ++ (nameTokens v.columns ++
        ([Token.symbol .rparen, .keyword .as] ++ (v.query.tokens ++ (commentTokens v.comment ++
          hintTokens v.hints))))))
      (fun o => ∃ place, o = some (v.mapExpr Expr.foldSigns, place)) [.symbol .semicolon] := by
  refine .step (takes_name _) ?_
  rintro _ ⟨place, rfl⟩
  refine recovers_columns h.valid.nonempty (.step takes_keyword fun _ _ => ?_)
  refine (Recovers.lift (reads_query h.selects)).bind ?_ ?_
  · rw [upNext_append]
    exact List.Subset.trans upNext_optional (List.cons_subset_cons _ upNext_hints)
  rintro _ rfl
  refine (recovers_viewClauses h.hints _ _ _).noting.last ?_
  rintro ⟨_, _⟩ ⟨rfl, rfl⟩
  exact recovers_builtView (View.build_draft h.valid.mapExpr) place

end Views

section Columns

variable {follow : List Token}

theorem takes_count {n : Nat} (h : n < 0x100000000) :
    Takes expectCount (.integer (toString n)) (· = n) := by
  intro l rest hl
  refine ⟨n, (Reads.bind_eq rfl).trans ?_, rfl⟩
  rw [hl]
  dsimp only
  rw [digitsValue_toString, if_pos h]
  rfl

theorem reads_size {precision : Nat} {scale : Option Nat} (hp : precision < 0x100000000)
    (hs : ∀ s ∈ scale, s < 0x100000000) :
    Reads precisionAndScale (sizeTokens precision scale) (· = (precision, scale)) follow := by
  have hscale : ∀ s ∈ scale, Reads expectCount [.integer (toString s)] (· = s)
      [.symbol .rparen] := fun s h => .of_takes (takes_count (hs s h))
  refine .step takes_symbol fun _ _ => .step (takes_count hp) ?_
  rintro _ rfl
  refine reads_optional hscale (List.Subset.refl _) (by simp [upNext]) ?_
  rw [Option.map_id']
  exact .step takes_symbol fun _ _ => .pure rfl

theorem reads_length {length : Nat} (h : length < 0x100000000) :
    Reads lengthInParentheses (sizeTokens length none) (· = length) follow := by
  refine .step takes_symbol fun _ _ => .step (takes_count h) ?_
  rintro _ rfl
  exact .step takes_symbol fun _ _ => .pure rfl

theorem decimal_ok {precision scale : Nat} (h : scale ≤ precision) :
    DataType.decimal? precision scale = .ok (.decimal precision scale) := by
  rw [DataType.decimal?, if_neg (Nat.not_lt.mpr h)]

theorem reads_dataType {t : DataType} (h : t.WellFormed) (hparen : .symbol .lparen ∉ follow) :
    Reads dataType t.tokens (· = t) follow := by
  cases t with
  | decimal precision scale =>
    obtain ⟨hp, hs⟩ := h
    refine .step (takes_next _) fun l hl => ?_
    rw [hl]
    have hscale : ∀ s ∈ some scale, s < 0x100000000 := fun s hm => by
      cases hm
      exact Nat.lt_of_le_of_lt hs hp
    refine (reads_size hp hscale).last ?_
    rintro _ rfl
    dsimp only [Option.getD_some]
    rw [decimal_ok hs]
    exact .pure rfl
  | number precision scale =>
    cases precision with
    | none =>
      cases h
      refine .step (takes_next _) fun l hl => ?_
      rw [hl]
      refine .look (looks_not_isAt hparen) ?_
      rintro _ rfl
      exact .pure rfl
    | some precision =>
      obtain ⟨hp, hs⟩ := h
      have hscale : ∀ s ∈ scale, s < 0x100000000 := fun s hm => by
        cases hm
        exact Nat.lt_of_le_of_lt hs hp
      refine .step (takes_next _) fun l hl => ?_
      rw [hl]
      refine .look looks_isAt ?_
      rintro _ rfl
      refine (reads_size hp hscale).last ?_
      rintro _ rfl
      dsimp only
      rw [decimal_ok hs]
      exact .pure rfl
  | char length =>
    obtain ⟨hpos, hlength⟩ := h
    refine .step (takes_next _) fun l hl => ?_
    rw [hl]
    refine (reads_length hlength).last ?_
    rintro _ rfl
    rw [DataType.char?, if_neg (Nat.ne_of_gt hpos)]
    exact .pure rfl
  | varchar length =>
    obtain ⟨hpos, hlength⟩ := h
    refine .step (takes_next _) fun l hl => ?_
    rw [hl]
    refine (reads_length hlength).last ?_
    rintro _ rfl
    rw [DataType.varchar?, if_neg (Nat.ne_of_gt hpos)]
    exact .pure rfl
  | _ =>
    refine .step (takes_next _) fun l hl => ?_
    rw [hl]
    exact .pure rfl

theorem reads_constant {value : Literal} (h : value.WellFormed) :
    Reads literal value.tokens (· = value) follow := by
  cases value with
  | null =>
    refine .look (looks_eat (by simp [Literal.tokens, upNext])) ?_
    rintro _ rfl
    refine .step (takes_next _) fun l hl => ?_
    rw [hl]
    exact .pure rfl
  | string text =>
    refine .look (looks_eat (by simp [Literal.tokens, upNext])) ?_
    rintro _ rfl
    refine .step (takes_next _) fun l hl => ?_
    rw [hl]
    exact .pure rfl
  | integer value =>
    rw [Literal.tokens]
    split
    · refine .step takes_eat ?_
      rintro _ rfl
      refine .step (takes_next _) fun l hl => ?_
      have hvalue : Denotes true l.token (.integer value) := by
        rw [hl]
        refine denotes_toString ?_ h
        rw [if_pos rfl]
        omega
      rw [hl]
      exact hvalue.reads
    · refine .look (looks_eat (by simp [upNext])) ?_
      rintro _ rfl
      refine .step (takes_next _) fun l hl => ?_
      have hvalue : Denotes false l.token (.integer value) := by
        rw [hl]
        refine denotes_toString ?_ h
        rw [if_neg Bool.false_ne_true]
        omega
      rw [hl]
      exact hvalue.reads
  | decimal text =>
    obtain ⟨digits, hd, rfl | rfl⟩ := h
    · rw [Literal.tokens_decimal hd]
      refine .look (looks_eat (by simp [upNext])) ?_
      rintro _ rfl
      refine .step (takes_next _) fun l hl => ?_
      have hvalue : Denotes false l.token (.decimal text) := hl ▸ denotes_decimal text
      rw [hl]
      exact hvalue.reads
    · rw [Literal.tokens_signed]
      refine .step takes_eat ?_
      rintro _ rfl
      refine .step (takes_next _) fun l hl => ?_
      have hvalue : Denotes true l.token (.decimal ("-" ++ digits)) := hl ▸ .decimal digits
      rw [hl]
      exact hvalue.reads

theorem reads_default {d : DefaultValue} (h : d.WellFormed) :
    Reads defaultValue d.tokens (· = d) follow := by
  cases d with
  | currentTimestamp =>
    refine .step takes_eat ?_
    rintro _ rfl
    exact .pure rfl
  | literal value =>
    have hhead : .keyword .currentTimestamp ∉ upNext (value.tokens ++ []) follow :=
      (derives_literal h).not_upNext rfl []
    rw [List.append_nil] at hhead
    refine .look (looks_eat hhead) ?_
    rintro _ rfl
    exact (reads_constant h).map fun _ h => congrArg DefaultValue.literal h

theorem reads_action (a : ReferentialAction) :
    Reads referentialAction a.tokens (· = a) follow := by
  cases a with
  | setNull =>
    refine .step (takes_next _) fun l hl => ?_
    rw [hl]
    exact .step takes_keyword fun _ _ => .pure rfl
  | noAction =>
    refine .step (takes_next _) fun l hl => ?_
    rw [hl]
    exact .step takes_keyword fun _ _ => .pure rfl
  | _ =>
    refine .step (takes_next _) fun l hl => ?_
    rw [hl]
    exact .pure rfl

/-- The clauses of a reference, each of which may be missing. -/
theorem reads_actionClause {r : Reference} (r' : Reference) {ts us : List Token}
    {P : Reference → Prop}
    (h : ts = [] ∧ r' = r ∨ ts ≠ [] ∧ ∀ follow, Reads (actionClause? r) ts (· = some r') follow)
    (hmore : Reads (actionClauses r') us P follow) :
    Reads (actionClauses r) (ts ++ us) P follow := by
  obtain ⟨rfl, rfl⟩ | ⟨hne, h⟩ := h
  · exact hmore
  · intro ls rest hls hnext
    obtain ⟨first, last, rfl, rfl, rfl⟩ := List.map_eq_append_iff.mp hls
    obtain ⟨_, ha, rfl⟩ := h _ first (last ++ rest) rfl (.own _)
    obtain ⟨b, hb, hP⟩ := hmore last rest rfl hnext
    have hpos := List.length_pos_of_ne_nil fun h => hne (List.map_eq_nil_iff.mpr h)
    have hlength : (last ++ rest).length < (first ++ (last ++ rest)).length := by
      simp only [List.length_append]
      omega
    refine ⟨b, ?_, hP⟩
    rw [List.append_assoc, actionClauses, ha]
    simp only [if_pos hlength, hb]

theorem reads_onDelete (r : Reference) (a : ReferentialAction) :
    Reads (actionClause? r) ([Token.keyword .on, .keyword .delete] ++ a.tokens)
      (· = some { r with onDelete := some a }) follow := by
  refine .step takes_eat ?_
  rintro _ rfl
  refine .step (takes_next _) fun l hl => ?_
  rw [hl]
  refine (reads_action a).last ?_
  rintro _ rfl
  exact .pure rfl

theorem reads_onUpdate (r : Reference) (a : ReferentialAction) :
    Reads (actionClause? r) ([Token.keyword .on, .keyword .update] ++ a.tokens)
      (· = some { r with onUpdate := some a }) follow := by
  refine .step takes_eat ?_
  rintro _ rfl
  refine .step (takes_next _) fun l hl => ?_
  rw [hl]
  refine (reads_action a).last ?_
  rintro _ rfl
  exact .pure rfl

theorem reads_no_actionClause {r : Reference} (hon : .keyword .on ∉ follow) :
    Reads (actionClauses r) [] (· = r) follow := by
  have hnone : Reads (actionClause? r) [] (· = none) follow := by
    refine .look (looks_eat hon) ?_
    rintro _ rfl
    exact .pure rfl
  intro ls rest hls hnext
  obtain ⟨_, ha, rfl⟩ := hnone ls rest hls hnext
  exact ⟨r, by rw [actionClauses, ha], rfl⟩

theorem reads_actionClauses {table column : String} (onDelete onUpdate : Option ReferentialAction)
    (hon : .keyword .on ∉ follow) :
    Reads (actionClauses { table, column })
      (optionalTokens [.keyword .on, .keyword .delete] ReferentialAction.tokens onDelete ++
        optionalTokens [.keyword .on, .keyword .update] ReferentialAction.tokens onUpdate)
      (· = { table, column, onDelete, onUpdate }) follow := by
  refine reads_actionClause { table, column, onDelete } ?_ ?_
  · cases onDelete with
    | none => exact Or.inl ⟨rfl, rfl⟩
    | some a => exact Or.inr ⟨List.cons_ne_nil _ _, fun _ => reads_onDelete _ a⟩
  · rw [← List.append_nil (optionalTokens [.keyword .on, .keyword .update] _ _)]
    refine reads_actionClause { table, column, onDelete, onUpdate } ?_ (reads_no_actionClause hon)
    cases onUpdate with
    | none => exact Or.inl ⟨rfl, rfl⟩
    | some a => exact Or.inr ⟨List.cons_ne_nil _ _, fun _ => reads_onUpdate _ a⟩

theorem reads_references {r : Reference} (hon : .keyword .on ∉ follow) :
    Reads references r.tokens (· = r) follow := by
  refine .step takes_keyword fun _ _ => .step (takes_name _) ?_
  rintro _ ⟨place, rfl⟩
  refine .step takes_symbol fun _ _ => .step (takes_name _) ?_
  rintro _ ⟨place, rfl⟩
  exact .step takes_symbol fun _ _ => reads_actionClauses r.onDelete r.onUpdate hon

section Options

variable {d : ColumnDraft}

theorem recovers_notNull : Recovers (columnOption? d) [.keyword .not, .keyword .null]
    (· = some { d with column := { d.column with nullable := false } }) follow := by
  refine .look looks_peek ?_
  rintro _ rfl
  exact .step takes_keyword fun _ _ => .step takes_keyword fun _ _ => .pure rfl

theorem recovers_default {value : DefaultValue} (h : value.WellFormed) :
    Recovers (columnOption? d) ([Token.keyword .default] ++ value.tokens)
      (· = some { d with column := { d.column with default := some value } }) follow := by
  refine .look looks_peek ?_
  rintro _ rfl
  refine .step takes_keyword fun _ _ => (Recovers.lift (reads_default h)).last ?_
  rintro _ rfl
  exact .pure rfl

theorem recovers_reference {r : Reference} (hon : .keyword .on ∉ follow) :
    Recovers (columnOption? d) r.tokens
      (· = some { d with column := { d.column with reference := some r } }) follow := by
  refine .look looks_peek ?_
  rintro _ rfl
  refine (Recovers.lift (reads_references hon)).last ?_
  rintro _ rfl
  exact .pure rfl

theorem recovers_columnComment (text : String) :
    Recovers (columnOption? d) [.keyword .comment, .string text]
      (· = some { d with column := { d.column with comment := some text } }) follow := by
  refine .look looks_peek ?_
  rintro _ rfl
  refine .step takes_keyword fun _ _ => .step takes_string ?_
  rintro _ rfl
  exact .pure rfl

theorem recovers_columnHints {hints : Hints} (hne : hints ≠ []) (h : hints.AllowedOn .column) :
    Recovers (columnOption? d) (hintTokens hints)
      (· = some { d with column := { d.column with hints } }) follow := by
  have hblock : Recovers (hintBlock .column) (hintTokens hints) (· = hints) follow :=
    recovers_hintBlock hne h
  rw [hintTokens_eq hne] at hblock ⊢
  refine .look looks_peek ?_
  rintro _ rfl
  refine hblock.last ?_
  rintro _ rfl
  exact .pure rfl

theorem recovers_no_columnOption :
    Recovers (columnOption? d) [] (· = none) [.symbol .comma, .symbol .rparen] := by
  refine .look looks_peek_nil fun o ho => ?_
  cases o with
  | none => exact .pure rfl
  | some t =>
    have ht := ho t rfl
    simp only [List.mem_cons, List.not_mem_nil, or_false] at ht
    rcases ht with rfl | rfl <;> exact .pure rfl

end Options

/-- What may follow on the type of a column. -/
theorem upNext_options (c : Column) : upNext (nullTokens c.nullable ++
      (optionalTokens [.keyword .default] DefaultValue.tokens c.default ++
        (optionalTokens [] Reference.tokens c.reference ++
          (commentTokens c.comment ++ hintTokens c.hints)))) follow ⊆
    [Token.keyword .not, .keyword .default, .keyword .references, .keyword .comment,
      .keyword .dbms] ++ follow := by
  have hnull : ∀ us, upNext (nullTokens c.nullable) us ⊆ .keyword .not :: us := by
    intro us
    cases c.nullable with
    | true => exact List.subset_cons_self _ _
    | false => exact upNext_cons List.mem_cons_self
  have hreference : ∀ us, upNext (optionalTokens [] Reference.tokens c.reference) us ⊆
      .keyword .references :: us := by
    intro us
    cases c.reference with
    | none => exact List.subset_cons_self _ _
    | some r => exact upNext_cons List.mem_cons_self
  simp only [upNext_append]
  refine List.Subset.trans (hnull _) (List.cons_subset_cons _ ?_)
  refine List.Subset.trans upNext_optional (List.cons_subset_cons _ ?_)
  refine List.Subset.trans (hreference _) (List.cons_subset_cons _ ?_)
  exact List.Subset.trans upNext_optional (List.cons_subset_cons _ upNext_hints)

theorem recovers_columnOptions {c : Column} (h : c.WellFormed) (table : TableDraft) :
    Recovers (repeatClauses columnOption? ⟨{ name := c.name, dataType := c.dataType }, table⟩)
      (nullTokens c.nullable ++
        (optionalTokens [.keyword .default] DefaultValue.tokens c.default ++
          (optionalTokens [] Reference.tokens c.reference ++
            (commentTokens c.comment ++ hintTokens c.hints))))
      (· = ⟨c, table⟩) [.symbol .comma, .symbol .rparen] := by
  obtain ⟨name, dataType, nullable, default, reference, comment, hints⟩ := c
  dsimp only
  have htail : upNext (commentTokens comment ++ hintTokens hints)
      [.symbol .comma, .symbol .rparen] ⊆
      [.keyword .comment, .keyword .dbms, .symbol .comma, .symbol .rparen] := by
    rw [upNext_append]
    exact List.Subset.trans upNext_optional (List.cons_subset_cons _ upNext_hints)
  refine recovers_clause ⟨{ name, dataType, nullable }, table⟩ ?_ (List.Subset.refl _) ?_
  · cases nullable with
    | true => exact Or.inl ⟨rfl, rfl⟩
    | false => exact Or.inr ⟨List.cons_ne_nil _ _, recovers_notNull⟩
  refine recovers_clause ⟨{ name, dataType, nullable, default }, table⟩ ?_ (List.Subset.refl _) ?_
  · cases default with
    | none => exact Or.inl ⟨rfl, rfl⟩
    | some value => exact Or.inr ⟨List.cons_ne_nil _ _, recovers_default (h.default value rfl)⟩
  refine recovers_clause ⟨{ name, dataType, nullable, default, reference }, table⟩ ?_ htail ?_
  · cases reference with
    | none => exact Or.inl ⟨rfl, rfl⟩
    | some r => exact Or.inr ⟨List.cons_ne_nil _ _, recovers_reference (by decide)⟩
  refine recovers_clause ⟨{ name, dataType, nullable, default, reference, comment }, table⟩ ?_
    (List.Subset.refl _) ?_
  · cases comment with
    | none => exact Or.inl ⟨rfl, rfl⟩
    | some text => exact Or.inr ⟨List.cons_ne_nil _ _, recovers_columnComment text⟩
  rw [← List.append_nil (hintTokens hints)]
  refine recovers_clause ⟨{ name, dataType, nullable, default, reference, comment, hints }, table⟩
    ?_ (List.Subset.refl _) (recovers_noClause recovers_no_columnOption rfl)
  by_cases hne : hints = []
  · subst hne
    exact Or.inl ⟨rfl, rfl⟩
  · exact Or.inr ⟨hintTokens_ne_nil hne, recovers_columnHints hne h.hints⟩

theorem recovers_column {c : Column} (h : c.WellFormed) (table : TableDraft) :
    Recovers (column table) c.tokens (· = table.addColumn c) [.symbol .comma, .symbol .rparen] := by
  have htype : Reads dataType c.dataType.tokens (· = c.dataType)
      ([Token.keyword .not, .keyword .default, .keyword .references, .keyword .comment,
        .keyword .dbms] ++ [Token.symbol .comma, .symbol .rparen]) :=
    reads_dataType h.dataType (by decide)
  refine .step (takes_name _) ?_
  rintro _ ⟨place, rfl⟩
  refine (Recovers.lift htype).bind (upNext_options c) ?_
  rintro _ rfl
  refine (recovers_columnOptions h table).last ?_
  rintro _ rfl
  dsimp only
  rw [Column.build_ok_iff.mpr ⟨h.name, rfl⟩]
  exact .pure rfl

end Columns

section Elements

namespace TableDraft

/-- The draft with a further element. -/
def addElement (d : TableDraft) : TableElement → TableDraft
  | .column c => d.addColumn c
  | .primaryKey k => d.addPrimaryKey (some k.name) k.columns
  | .unique u => d.addUnique (some u.name) u.columns
  | .foreignKey f => d.addForeignKey (some f.name) f.column f.reference
  | .index i => d.addIndex i

end TableDraft

variable {table : TableDraft}

theorem reads_primaryKey {name : Option String} {columns : List String} {follow : List Token}
    (hne : columns ≠ []) :
    Reads (keyElement? table name) ([Token.keyword .primary, .keyword .key, .symbol .lparen] ++
        (nameTokens columns ++ [Token.symbol .rparen]))
      (· = some (table.addPrimaryKey name columns)) follow := by
  refine .look looks_peek ?_
  rintro _ rfl
  exact .step takes_keyword fun _ _ => .step takes_keyword fun _ _ => reads_columns hne (.pure rfl)

theorem reads_unique {name : Option String} {columns : List String} {follow : List Token}
    (hne : columns ≠ []) :
    Reads (keyElement? table name) ([Token.keyword .unique, .symbol .lparen] ++
        (nameTokens columns ++ [Token.symbol .rparen]))
      (· = some (table.addUnique name columns)) follow := by
  refine .look looks_peek ?_
  rintro _ rfl
  exact .step takes_keyword fun _ _ => reads_columns hne (.pure rfl)

theorem reads_foreignKey {name : Option String} {column : String} {reference : Reference}
    {follow : List Token} (hon : .keyword .on ∉ follow) :
    Reads (keyElement? table name) ([Token.keyword .foreign, .keyword .key, .symbol .lparen] ++
        ([nameToken column] ++ ([Token.symbol .rparen] ++ reference.tokens)))
      (· = some (table.addForeignKey name column reference)) follow := by
  refine .look looks_peek ?_
  rintro _ rfl
  refine .step takes_keyword fun _ _ => .step takes_keyword fun _ _ => .step takes_symbol
    fun _ _ => .step (takes_name _) ?_
  rintro _ ⟨place, rfl⟩
  refine .step takes_symbol fun _ _ => (reads_references hon).last ?_
  rintro _ rfl
  exact .pure rfl

/-- A key with its name. -/
theorem recovers_constraint {name : String} {ts : List Token} {result : TableDraft}
    {follow : List Token}
    (h : Reads (keyElement? table (some name)) ts (· = some result) follow) :
    Recovers (tableElement table) ([Token.keyword .constraint] ++ ([nameToken name] ++ ts))
      (· = result) follow := by
  refine .step takes_eat ?_
  rintro _ rfl
  refine .step (takes_name _) ?_
  rintro _ ⟨place, rfl⟩
  refine (Recovers.lift h).last ?_
  rintro _ rfl
  exact .pure rfl

theorem looks_no_key {t : Token} {us follow : List Token}
    (ht : t = .keyword .index ∨ t.isName = true) :
    Looks (keyElement? table none) (t :: us) (· = none) follow := by
  intro ls rest hls _
  obtain ⟨⟨u, span⟩, last, rfl, rfl, -⟩ := List.map_eq_cons_iff.mp hls
  refine ⟨none, ?_, rfl⟩
  cases u with
  | name word => rfl
  | quotedName word => rfl
  | keyword k =>
    obtain rfl : k = .index := by simpa [Token.isName] using ht
    rfl
  | _ => simp [Token.isName] at ht

theorem recovers_indexElement {i : Index} (hne : i.columns ≠ []) (h : i.hints.AllowedOn .index) :
    Recovers (indexElement table) (TableElement.index i).tokens (· = table.addIndex i)
      [.symbol .comma, .symbol .rparen] := by
  refine .step takes_keyword fun _ _ => .step (takes_name _) ?_
  rintro _ ⟨place, rfl⟩
  refine recovers_columns hne ?_
  by_cases hhints : i.hints = []
  · rw [hhints]
    refine .look (looks_not_isAt (by decide)) ?_
    rintro _ rfl
    refine Recovers.bind (P := (· = [])) (.pure rfl) (List.Subset.refl _) ?_
    rintro _ rfl
    exact .pure (by rw [← hhints])
  · have hblock : Recovers (hintBlock .index) (hintTokens i.hints) (· = i.hints)
        [.symbol .comma, .symbol .rparen] := recovers_hintBlock hhints h
    rw [hintTokens_eq hhints] at hblock ⊢
    refine .look looks_isAt ?_
    rintro _ rfl
    refine hblock.last ?_
    rintro _ rfl
    exact .pure rfl

theorem isName_nameToken (n : String) : (nameToken n).isName = true := by
  rcases nameToken_cases n with h | h <;> rw [h] <;> rfl

theorem recovers_element {x : TableElement} (h : x.WellFormed) :
    Recovers (tableElement table) x.tokens (· = table.addElement x)
      [.symbol .comma, .symbol .rparen] := by
  cases x with
  | column c =>
    have hname : ∀ k, Token.keyword k ∉ upNext c.tokens [.symbol .comma, .symbol .rparen] := by
      intro k
      rcases nameToken_cases c.name with h | h <;> simp [Column.tokens, upNext, h]
    refine .look (looks_eat (hname _)) ?_
    rintro _ rfl
    refine .look (looks_no_key (Or.inr (isName_nameToken c.name))) ?_
    rintro _ rfl
    refine .look (looks_not_isAt (hname _)) ?_
    rintro _ rfl
    exact recovers_column h table
  | primaryKey k => exact recovers_constraint (reads_primaryKey h.2.1)
  | unique u => exact recovers_constraint (reads_unique h.2.1)
  | foreignKey f => exact recovers_constraint (reads_foreignKey (by decide))
  | index i =>
    obtain ⟨-, hne, -, hhints⟩ := h
    refine .look (looks_eat (by simp [TableElement.tokens, upNext])) ?_
    rintro _ rfl
    refine .look (looks_no_key (Or.inl rfl)) ?_
    rintro _ rfl
    refine .look looks_isAt ?_
    rintro _ rfl
    exact recovers_indexElement hne hhints

/-- The draft of a table's elements alone. -/
def Table.elementDraft (t : Table) : TableDraft where
  name := t.name
  columns := t.columns
  primaryKeys := [t.primaryKey]
  uniques := t.uniques
  indexes := t.indexes
  foreignKeys := t.declaredForeignKeys

theorem foldl_addElement (t : Table) :
    t.elements.foldl TableDraft.addElement { name := t.name } = t.elementDraft := by
  have hcolumns : ∀ (cs : List Column) (d : TableDraft),
      (cs.map TableElement.column).foldl TableDraft.addElement d =
        { d with columns := d.columns ++ cs } := by
    intro cs
    induction cs with
    | nil => simp
    | cons c cs ih => simp [ih, TableDraft.addElement, TableDraft.addColumn]
  have huniques : ∀ (us : List UniqueConstraint) (d : TableDraft),
      (us.map TableElement.unique).foldl TableDraft.addElement d =
        { d with uniques := d.uniques ++ us } := by
    intro us
    induction us with
    | nil => simp
    | cons u us ih => simp [ih, TableDraft.addElement, TableDraft.addUnique]
  have hforeign : ∀ (fs : List ForeignKey) (d : TableDraft),
      (fs.map TableElement.foreignKey).foldl TableDraft.addElement d =
        { d with foreignKeys := d.foreignKeys ++ fs } := by
    intro fs
    induction fs with
    | nil => simp
    | cons f fs ih => simp [ih, TableDraft.addElement, TableDraft.addForeignKey]
  have hindexes : ∀ (is : List Index) (d : TableDraft),
      (is.map TableElement.index).foldl TableDraft.addElement d =
        { d with indexes := d.indexes ++ is } := by
    intro is
    induction is with
    | nil => simp
    | cons i is ih => simp [ih, TableDraft.addElement, TableDraft.addIndex]
  simp [Table.elements, hcolumns, huniques, hforeign, hindexes, TableDraft.addElement,
    TableDraft.addPrimaryKey, Table.elementDraft]

end Elements

section Tables

variable {draft : TableDraft} {follow : List Token}

/-- The statements of an action block, each with its semicolon. -/
theorem actionStatements_eq {statements : List Dml} (h : ∀ d ∈ statements, d.WellFormed)
    (read : List Dml) {ls rest : List Lexeme}
    (hls : ls.map Lexeme.token = statements.flatMap fun d => d.tokens ++ [Token.symbol .semicolon])
    (hnext : Next [.symbol .rparen] rest) :
    actionStatements read (ls ++ rest) =
      ([], read ++ statements.map (Dml.mapExpr Expr.foldSigns), rest) := by
  induction statements generalizing read ls with
  | nil =>
    cases List.map_eq_nil_iff.mp hls
    cases rest with
    | nil => simp [actionStatements]
    | cons l rest =>
      have hl : l.token = .symbol .rparen := List.mem_singleton.mp (hnext l rfl)
      rw [List.nil_append, actionStatements, if_pos hl]
      simp
  | cons d statements ih =>
    rw [List.forall_mem_cons] at h
    rw [List.flatMap_cons, List.append_assoc] at hls
    obtain ⟨first, following, rfl, hfirst, hls⟩ := List.map_eq_append_iff.mp hls
    obtain ⟨semicolon, last, rfl, hsemicolon, hlast⟩ := List.map_eq_cons_iff.mp hls
    have hitem : Recovers (do return read ++ [← dml]) d.tokens
        (· = read ++ [d.mapExpr Expr.foldSigns]) [.symbol .semicolon] := by
      refine (Recovers.lift (reads_dml h.1)).last ?_
      rintro _ rfl
      exact .pure rfl
    obtain ⟨_, ha, rfl⟩ := hitem first (semicolon :: (last ++ rest)) hfirst
      fun l hl => by cases hl; exact List.mem_singleton.mpr hsemicolon
    have hmore := ih h.2 (read ++ [d.mapExpr Expr.foldSigns]) hlast
    obtain ⟨k, us, htokens⟩ : ∃ k us, d.tokens = .keyword k :: us := by
      cases d <;> exact ⟨_, _, rfl⟩
    rw [htokens] at hfirst
    obtain ⟨l, first, rfl, hl, -⟩ := List.map_eq_cons_iff.mp hfirst
    have hclose : l.token ≠ .symbol .rparen := by simp [hl]
    have hlength : (last ++ rest).length ≤ (first ++ semicolon :: (last ++ rest)).length := by
      simp only [List.length_append, List.length_cons]
      omega
    rw [List.append_assoc, List.cons_append, List.cons_append] at *
    rw [actionStatements, if_neg hclose, Recovering.itemOrSkip, ha]
    simp only [if_pos (And.intro hsemicolon hlength), hmore]
    simp

theorem recovers_actionBlock {statements : List Dml} (h : ∀ d ∈ statements, d.WellFormed) :
    Recovers actionBlock ([Token.symbol .lparen] ++
        (statements.flatMap (fun d => d.tokens ++ [Token.symbol .semicolon]) ++
          [Token.symbol .rparen]))
      (· = statements.map (Dml.mapExpr Expr.foldSigns)) follow := by
  have hread : Recovers (fun ts =>
      ⟨(actionStatements [] ts).1, .ok (actionStatements [] ts).2⟩ : Recovering (List Dml))
      (statements.flatMap fun d => d.tokens ++ [Token.symbol .semicolon])
      (· = statements.map (Dml.mapExpr Expr.foldSigns)) [.symbol .rparen] := by
    intro ls rest hls hnext
    refine ⟨_, ?_, rfl⟩
    dsimp only
    rw [actionStatements_eq h [] hls hnext, List.nil_append]
  refine .step takes_symbol fun _ _ => hread.bind (List.Subset.refl _) ?_
  rintro _ rfl
  exact .step takes_symbol fun _ _ => .pure rfl

theorem recovers_trigger {statements : List Dml} (h : ∀ d ∈ statements, d.WellFormed) :
    Recovers (tableClause? draft) ([Token.keyword .on, .keyword .delete, .symbol .lparen] ++
        (statements.flatMap (fun d => d.tokens ++ [Token.symbol .semicolon]) ++
          [Token.symbol .rparen]))
      (· = some { draft with onDelete := some (statements.map (Dml.mapExpr Expr.foldSigns)) })
      follow := by
  refine .look looks_peek ?_
  rintro _ rfl
  refine .step takes_keyword fun _ _ => .step takes_keyword fun _ _ =>
    (recovers_actionBlock h).last ?_
  rintro _ rfl
  exact .pure rfl

theorem recovers_tableComment (text : String) :
    Recovers (tableClause? draft) [.keyword .comment, .string text]
      (· = some { draft with comment := some text }) follow := by
  refine .look looks_peek ?_
  rintro _ rfl
  refine .step takes_keyword fun _ _ => .step takes_string ?_
  rintro _ rfl
  exact .pure rfl

theorem recovers_tableHints {hints : Hints} (hne : hints ≠ []) (h : hints.AllowedOn .table) :
    Recovers (tableClause? draft) (hintTokens hints) (· = some { draft with hints }) follow := by
  have hblock : Recovers (hintBlock .table) (hintTokens hints) (· = hints) follow :=
    recovers_hintBlock hne h
  rw [hintTokens_eq hne] at hblock ⊢
  refine .look looks_peek ?_
  rintro _ rfl
  refine hblock.last ?_
  rintro _ rfl
  exact .pure rfl

theorem recovers_no_tableClause :
    Recovers (tableClause? draft) [] (· = none) [.symbol .semicolon] := by
  refine .look looks_peek_nil fun o ho => ?_
  cases o with
  | none => exact .pure rfl
  | some t =>
    cases List.mem_singleton.mp (ho t rfl)
    exact .pure rfl

theorem triggerTokens_eq {t : Table} (h : t.onDelete ≠ []) :
    t.triggerTokens = [Token.keyword .on, .keyword .delete, .symbol .lparen] ++
      (t.onDelete.flatMap (fun d => d.tokens ++ [Token.symbol .semicolon]) ++
        [Token.symbol .rparen]) := by
  rw [Table.triggerTokens, if_neg (by simpa using h)]

theorem recovers_tableClauses {t : Table} (h : t.WellFormed) :
    Recovers
      (repeatClauses tableClause? (t.elements.foldl TableDraft.addElement { name := t.name }))
      (commentTokens t.comment ++ (t.triggerTokens ++ hintTokens t.hints))
      (· = (t.mapExpr Expr.foldSigns).draft) [.symbol .semicolon] := by
  rw [foldl_addElement]
  refine recovers_clause { t.elementDraft with comment := t.comment } ?_ (List.Subset.refl _) ?_
  · cases t.comment with
    | none => exact Or.inl ⟨rfl, rfl⟩
    | some text => exact Or.inr ⟨List.cons_ne_nil _ _, recovers_tableComment text⟩
  refine recovers_clause { (t.mapExpr Expr.foldSigns).draft with hints := [] } ?_
    (List.Subset.refl _) ?_
  · by_cases hne : t.onDelete = []
    · have htokens : t.triggerTokens = [] := by rw [Table.triggerTokens, hne]; rfl
      refine Or.inl ⟨htokens, ?_⟩
      simp [Table.draft, Table.mapExpr, Table.elementDraft, hne]
    · have hdraft : { (t.mapExpr Expr.foldSigns).draft with hints := [] } =
          { t.elementDraft with
            comment := t.comment
            onDelete := some (t.onDelete.map (Dml.mapExpr Expr.foldSigns)) } := by
        simp [Table.draft, Table.mapExpr, Table.elementDraft, hne]
      rw [triggerTokens_eq hne, hdraft]
      exact Or.inr ⟨List.cons_ne_nil _ _, recovers_trigger h.onDelete⟩
  rw [← List.append_nil (hintTokens t.hints)]
  refine recovers_clause (t.mapExpr Expr.foldSigns).draft ?_ (List.Subset.refl _)
    (recovers_noClause recovers_no_tableClause rfl)
  by_cases hne : t.hints = []
  · refine Or.inl ⟨by rw [hne]; rfl, ?_⟩
    simp [Table.draft, Table.mapExpr, hne]
  · exact Or.inr ⟨hintTokens_ne_nil hne, recovers_tableHints hne h.hints⟩

theorem recovers_table {t : Table} (h : t.WellFormed) :
    Recovers table ([nameToken t.name] ++ ([Token.symbol .lparen] ++
        (commaTokens (t.elements.map TableElement.tokens) ++ ([Token.symbol .rparen] ++
          (commentTokens t.comment ++ (t.triggerTokens ++ hintTokens t.hints))))))
      (fun o => ∃ place, o = some (t.mapExpr Expr.foldSigns, place)) [.symbol .semicolon] := by
  have hne : t.elements ≠ [] := by simp [Table.elements]
  have helements : Recovers (Recovering.sepBy1 tableElement { name := t.name })
      (commaTokens (t.elements.map TableElement.tokens))
      (· = t.elements.foldl TableDraft.addElement { name := t.name }) [.symbol .rparen] :=
    recovers_sepBy1 hne (by decide) (fun x hx _ => recovers_element (h.elements x hx)) _
  refine .step (takes_name _) ?_
  rintro _ ⟨place, rfl⟩
  refine .step takes_symbol fun _ _ => helements.noting.bind (List.Subset.refl _) ?_
  rintro ⟨_, _⟩ ⟨rfl, rfl⟩
  refine .look (looks_not_isAt (by simp [upNext])) ?_
  rintro _ rfl
  refine .step takes_symbol fun _ _ => (recovers_tableClauses h).noting.last ?_
  rintro ⟨_, _⟩ ⟨rfl, rfl⟩
  dsimp only
  rw [Table.build_draft h.valid.mapExpr]
  exact .pure ⟨place, rfl⟩

end Tables

section Statements

def Artifact.mapExpr (f : Expr → Expr) : Artifact → Artifact
  | table t => .table (t.mapExpr f)
  | view v => .view (v.mapExpr f)
  | statement d => .statement (d.mapExpr f)

/-- The name that no other artifact of the kind may have. -/
def Artifact.key : Artifact → ArtifactKind × String
  | table t => (.table, t.name)
  | view v => (.view, v.name)
  | statement d => (.statement, d.name)

namespace Schema

def add (s : Schema) : Artifact → Schema
  | .table t => s.addTable t
  | .view v => s.addView v
  | .statement d => s.addStatement d

def keys (s : Schema) : List (ArtifactKind × String) :=
  s.artifacts.map Artifact.key

theorem findTable_isSome {s : Schema} {name : String} :
    (s.findTable? name).isSome ↔ (.table, name) ∈ s.keys := by
  simp [findTable?, keys, artifacts, Artifact.key]

theorem findView_isSome {s : Schema} {name : String} :
    (s.findView? name).isSome ↔ (.view, name) ∈ s.keys := by
  simp [findView?, keys, artifacts, Artifact.key]

theorem findStatement_isSome {s : Schema} {name : String} :
    (s.findStatement? name).isSome ↔ (.statement, name) ∈ s.keys := by
  simp [findStatement?, keys, artifacts, Artifact.key]

theorem mem_keys_add {s : Schema} {a : Artifact} {key : ArtifactKind × String} :
    key ∈ (s.add a).keys ↔ key ∈ s.keys ∨ key = a.key := by
  cases a <;>
    simp only [keys, artifacts, add, addTable, addView, addStatement, List.map_append,
      List.mem_append, List.map_cons, List.map_nil, List.mem_singleton, or_assoc, or_comm,
      or_left_comm]

/-- The names of a built schema are apart, for kinds of artifacts are told apart. -/
theorem keys_nodup {s : Schema} (h : s.build = .ok s) : s.keys.Nodup := by
  obtain ⟨ht, hv, hd⟩ := build_ok_iff.mp h
  have hpair : ∀ kind : ArtifactKind, (Prod.mk kind : String → _).Injective :=
    fun _ _ _ heq => (Prod.mk.inj heq).2
  have hkeys : s.keys = (s.tables.map (·.name)).map (Prod.mk ArtifactKind.table) ++
      (s.views.map (·.name)).map (Prod.mk ArtifactKind.view) ++
      (s.statements.map (·.name)).map (Prod.mk ArtifactKind.statement) := by
    simp [keys, artifacts, Artifact.key, Function.comp_def]
  rw [hkeys, List.nodup_append', List.nodup_append']
  refine ⟨⟨ht.map (hpair _), hv.map (hpair _), ?_⟩, hd.map (hpair _), ?_⟩ <;>
    · intro key
      simp only [List.mem_append, List.mem_map]
      grind

theorem foldl_add (s : Schema) (tables : List Table) (views : List View)
    (statements : List DmlStatement) :
    (tables.map Artifact.table ++ views.map Artifact.view ++
        statements.map Artifact.statement).foldl add s =
      ⟨s.tables ++ tables, s.views ++ views, s.statements ++ statements⟩ := by
  have htables : ∀ s : Schema, (tables.map Artifact.table).foldl add s =
      { s with tables := s.tables ++ tables } := by
    intro s
    induction tables generalizing s with
    | nil => simp
    | cons t tables ih => simp [ih, add, addTable]
  have hviews : ∀ s : Schema, (views.map Artifact.view).foldl add s =
      { s with views := s.views ++ views } := by
    intro s
    induction views generalizing s with
    | nil => simp
    | cons v views ih => simp [ih, add, addView]
  have hstatements : ∀ s : Schema, (statements.map Artifact.statement).foldl add s =
      { s with statements := s.statements ++ statements } := by
    intro s
    induction statements generalizing s with
    | nil => simp
    | cons d statements ih => simp [ih, add, addStatement]
  rw [List.foldl_append, List.foldl_append, htables, hviews, hstatements]

end Schema

theorem recovers_added {α : Type} {kind : ArtifactKind} {name : String} {place : Span}
    {known : Bool} {add : α → Schema} {s : Schema} {a : α} (h : ¬ known)
    {follow : List Token} :
    Recovers (addOrDuplicate kind name place known add s a) [] (· = add a) follow := by
  rw [addOrDuplicate, if_neg h]
  exact .pure rfl

theorem recovers_statement {s : Schema} {a : Artifact} (h : a.WellFormed) (hnew : a.key ∉ s.keys)
    {follow : List Token} :
    Recovers (statement s) a.tokens (· = s.add (a.mapExpr Expr.foldSigns)) follow := by
  cases a with
  | table t =>
    have htokens : t.tokens = .keyword .create :: .keyword .table :: (([nameToken t.name] ++
        ([Token.symbol .lparen] ++ (commaTokens (t.elements.map TableElement.tokens) ++
          ([Token.symbol .rparen] ++ (commentTokens t.comment ++ (t.triggerTokens ++
            hintTokens t.hints)))))) ++ [Token.symbol .semicolon]) := by
      simp [Table.tokens]
    rw [Artifact.tokens, htokens]
    refine .step takes_keyword fun _ _ => .step (takes_next _) fun l hl => ?_
    rw [hl]
    refine (recovers_table h).bind (List.Subset.refl _) ?_
    rintro _ ⟨place, rfl⟩
    exact .step takes_symbol fun _ _ => recovers_added (mt Schema.findTable_isSome.mp hnew)
  | view v =>
    have htokens : v.tokens = .keyword .create :: .keyword .view :: (([nameToken v.name] ++
        ([Token.symbol .lparen] ++ (nameTokens v.columns ++ ([Token.symbol .rparen, .keyword .as] ++
          (v.query.tokens ++ (commentTokens v.comment ++ hintTokens v.hints)))))) ++
            [Token.symbol .semicolon]) := by
      simp [View.tokens]
    rw [Artifact.tokens, htokens]
    refine .step takes_keyword fun _ _ => .step (takes_next _) fun l hl => ?_
    rw [hl]
    refine (recovers_view h).bind (List.Subset.refl _) ?_
    rintro _ ⟨place, rfl⟩
    exact .step takes_symbol fun _ _ => recovers_added (mt Schema.findView_isSome.mp hnew)
  | statement d =>
    have htokens : d.tokens = .keyword .create :: .keyword .statement ::
        (([nameToken d.name] ++ ([Token.keyword .as] ++ d.body.tokens)) ++
          [Token.symbol .semicolon]) := by
      simp [DmlStatement.tokens]
    rw [Artifact.tokens, htokens]
    refine .step takes_keyword fun _ _ => .step (takes_next _) fun l hl => ?_
    rw [hl]
    refine (Recovers.lift (reads_template h)).bind (List.Subset.refl _) ?_
    rintro ⟨_, place⟩ rfl
    exact .step takes_symbol fun _ _ => recovers_added (mt Schema.findStatement_isSome.mp hnew)

theorem Artifact.key_mapExpr (f : Expr → Expr) (a : Artifact) : (a.mapExpr f).key = a.key := by
  cases a <;> rfl

theorem Artifact.tokens_ne_nil (a : Artifact) : a.tokens ≠ [] := by
  cases a <;> exact List.cons_ne_nil _ _

/-- The statements of artifacts with new names are read one after the other, and each one is
added. -/
theorem statements_eq {as : List Artifact} (h : ∀ a ∈ as, a.WellFormed) (s : Schema)
    (hnames : (as.map Artifact.key).Nodup) (hnew : ∀ a ∈ as, a.key ∉ s.keys) {ls : List Lexeme}
    (hls : ls.map Lexeme.token = as.flatMap Artifact.tokens) :
    statements s ls = ([], (as.map (Artifact.mapExpr Expr.foldSigns)).foldl Schema.add s) := by
  induction as generalizing s ls with
  | nil =>
    rw [List.map_eq_nil_iff.mp hls, statements]
    rfl
  | cons a as ih =>
    rw [List.forall_mem_cons] at h hnew
    rw [List.map_cons, List.nodup_cons] at hnames
    rw [List.flatMap_cons] at hls
    obtain ⟨first, last, rfl, hfirst, hlast⟩ := List.map_eq_append_iff.mp hls
    obtain ⟨s', hread, rfl⟩ :=
      recovers_statement h.1 hnew.1 first last hfirst (Next.own last)
    have hne : first ≠ [] := by
      rintro rfl
      exact a.tokens_ne_nil hfirst.symm
    obtain ⟨l, ls, rfl⟩ := List.exists_cons_of_ne_nil hne
    have hshorter : last.length ≤ (ls ++ last).length := by
      rw [List.length_append]
      omega
    rw [List.cons_append] at hread
    rw [List.cons_append, statements, hread]
    simp only [if_pos hshorter]
    rw [ih h.2 _ hnames.2 ?_ hlast]
    · rfl
    · intro b hb
      rw [Schema.mem_keys_add, Artifact.key_mapExpr]
      rintro (hk | hk)
      · exact hnew.2 b hb hk
      · exact hnames.1 (List.mem_map.mpr ⟨b, hb, hk⟩)

theorem Schema.artifacts_mapExpr (f : Expr → Expr) (s : Schema) :
    s.artifacts.map (Artifact.mapExpr f) = (s.mapExpr f).artifacts := by
  simp [Schema.artifacts, Schema.mapExpr, Function.comp_def, Artifact.mapExpr]

theorem Schema.foldl_artifacts (s : Schema) : s.artifacts.foldl Schema.add .empty = s :=
  Schema.foldl_add .empty s.tables s.views s.statements

theorem Schema.build_mapExpr {f : Expr → Expr} {s : Schema} (h : s.build = .ok s) :
    (s.mapExpr f).build = .ok (s.mapExpr f) := by
  rw [Schema.build_ok_iff] at h ⊢
  simp only [Schema.mapExpr, List.map_map]
  exact h

theorem schemaOfLexemes_eq {s : Schema} (h : s.WellFormed) {ls : List Lexeme}
    (hls : ls.map Lexeme.token = s.tokens) : schemaOfLexemes ls = .ok s.foldSigns := by
  have hread := statements_eq h.artifacts .empty (Schema.keys_nodup h.build)
    (fun _ _ hk => nomatch hk) hls
  rw [Schema.artifacts_mapExpr, Schema.foldl_artifacts] at hread
  rw [schemaOfLexemes, hread]
  simp only [Schema.build_mapExpr h.build]
  rfl

/-- All that was scanned is tokens. -/
theorem lexemes_of_tokens {scanned : List Scanned} {ts : List Token}
    (h : scanned.map Scanned.token? = ts.map some) :
    (scanned.filterMap Scanned.lexeme?).map Lexeme.token = ts ∧ strayMistakes scanned = [] := by
  induction scanned generalizing ts with
  | nil =>
    rw [List.map_nil, eq_comm, List.map_eq_nil_iff] at h
    subst h
    exact ⟨rfl, rfl⟩
  | cons x scanned ih =>
    cases ts with
    | nil => exact nomatch h
    | cons t ts =>
      obtain ⟨hx, hrest⟩ := List.cons.inj h
      cases x with
      | stray text span => exact nomatch hx
      | lexeme l =>
        obtain ⟨hl, hs⟩ := ih hrest
        exact ⟨congrArg₂ List.cons (Option.some.inj hx) hl, hs⟩

/-- What is printed of a well-formed schema is read back as the schema with its signs folded. -/
theorem parse_print_wellFormed {s : Schema} (h : s.WellFormed) :
    Schema.parse s.print = .ok s.foldSigns := by
  obtain ⟨hls, hstray⟩ := lexemes_of_tokens (lexes_schema h).tokensOf_eq
  rw [Schema.parse, scan, schemaOfLexemes_eq h hls]
  simp only [hstray]
  rfl

end Statements

end Schemata
