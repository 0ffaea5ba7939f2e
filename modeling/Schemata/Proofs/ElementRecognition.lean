import Schemata.Proofs.Built
import Schemata.Proofs.ElementReading
import Schemata.Proofs.Recognition

/-!
The reader of table elements takes an element of the grammar, and the longest one that stands there.
-/

namespace Schemata

open Grammar Reader

/-! ### Types and defaults -/

variable {known : List Span} {depth : Nat}

theorem parses_precisionAndScale : Parses known depth depth precisionAndScale
    fun p ts _ => IsSize p.1 (p.2.getD 0) ts := by
  apply Parses.step (one_symbol rfl)
  intro _ l hl
  apply Parses.step one_count
  rintro _ l₁ ⟨p, hp, rfl, hlt⟩
  apply Parses.eat rfl
  · intro place
    apply Parses.step one_count.map
    rintro _ l₂ ⟨_, rfl, s, hs, rfl, hlt'⟩
    apply Parses.step (one_symbol rfl)
    intro _ l₃ hl₃
    apply Parses.pure
    intro _
    rw [hl, hp, hs, hl₃]
    exact .scaled hlt hlt'
  · apply Parses.pure_bind
    apply Parses.step (one_symbol rfl)
    intro _ l₃ hl₃
    apply Parses.pure
    intro _ _
    rw [hl, hp, hl₃]
    exact .precision hlt

theorem parses_length : Parses known depth depth lengthInParentheses fun n ts _ =>
    ∃ digits, ts = [.symbol .lparen, .integer digits, .symbol .rparen] ∧
      n = digitsValue digits ∧ n < 0x100000000 := by
  apply Parses.step (one_symbol rfl)
  intro _ l hl
  apply Parses.step one_count
  rintro _ l₁ ⟨digits, hdigits, rfl, hlt⟩
  apply Parses.step (one_symbol rfl)
  intro _ l₂ hl₂
  apply Parses.pure
  intro _
  exact ⟨digits, by rw [hl, hdigits, hl₂], rfl, hlt⟩

theorem parses_orInvalid {α : Type} {place : Span} {x : Except SchemaError α}
    (h : place ∈ known) :
    Parses known depth depth (orInvalid place x) fun a ts _ => ts = [] ∧ x = .ok a := by
  cases x with
  | ok a => exact .pure fun _ => ⟨rfl, rfl⟩
  | error e => exact .refuse h

theorem scale_le_of_decimal {precision scale : Nat} {t : DataType}
    (h : DataType.decimal? precision scale = .ok t) : scale ≤ precision := by
  by_cases hlt : precision < scale
  · rw [DataType.decimal?, if_pos hlt] at h
    cases h
  · exact Nat.not_lt.mp hlt

theorem not_mem_of_next_ne {t : Token} {next : Option Token} (h : next ≠ some t) :
    ∀ u ∈ next, u ∉ [t] := by
  intro u hu hmem
  rw [List.mem_singleton] at hmem
  exact h (hmem ▸ hu)

/-- A length in parentheses that must be positive. -/
theorem parses_bounded {make : Nat → Except SchemaError DataType} {l : Lexeme} {k : Keyword}
    (hk : k = .char ∨ k = .varchar) (hmake : ∀ t, make 0 ≠ .ok t) (hl : l.span ∈ known) :
    Parses known depth depth (lengthInParentheses >>= fun n => orInvalid l.span (make n))
      fun _ ts next => ∃ more, IsType more (.keyword k :: ts) ∧ ∀ t ∈ next, t ∉ more := by
  apply Parses.bind parses_length
  intro n p
  apply (parses_orInvalid (List.mem_append_left _ hl)).imp
  rintro t ts next ⟨rfl, hok⟩ ⟨digits, hp, rfl, hlt⟩
  rw [hp]
  refine ⟨[], .bounded hk ?_ hlt, fun _ _ => List.not_mem_nil⟩
  apply Nat.pos_of_ne_zero
  intro hzero
  rw [hzero] at hok
  exact hmake t hok

theorem parses_dataType : Parses known depth depth dataType fun _ ts next =>
    ∃ more, IsType more ts ∧ ∀ t ∈ next, t ∉ more := by
  have hplain : ∀ {k : Keyword} {t : DataType} {known : List Span} (_ : k ∈ plainTypes),
      Parses known depth depth (pure t) fun _ ts next =>
        ∃ more, IsType more (.keyword k :: ts) ∧ ∀ t ∈ next, t ∉ more :=
    fun hk => .pure fun _ => ⟨[], .plain hk, fun _ _ => List.not_mem_nil⟩
  apply Parses.next
  · intro l
    have hspan : l.span ∈ known ++ [l.span] := by simp
    cases hl : l.token with
    | keyword k =>
      cases k with
      | bit | integer | bigInt | float | clob | date | time | dateTime | blob =>
        exact hplain (by decide)
      | decimal =>
        apply Parses.bind parses_precisionAndScale
        rintro ⟨precision, scale⟩ p
        apply (parses_orInvalid (List.mem_append_left _ hspan)).imp
        rintro t ts next ⟨rfl, hok⟩ hsize
        rw [List.append_nil]
        exact ⟨[], .sized (.inl rfl) hsize (scale_le_of_decimal hok), fun _ _ => List.not_mem_nil⟩
      | number =>
        apply Parses.isAt
        · apply Parses.bind parses_precisionAndScale
          rintro ⟨precision, scale⟩ p
          have hchecked : Parses (known ++ [l.span] ++ p.map Lexeme.span) depth depth
              (discard (orInvalid l.span (DataType.decimal? precision (scale.getD 0))))
              fun _ ts _ => ts = [] ∧ scale.getD 0 ≤ precision :=
            (parses_orInvalid (List.mem_append_left _ hspan)).map fun _ _ _ h =>
              ⟨h.1, scale_le_of_decimal h.2⟩
          apply hchecked.bind
          intro _ q
          apply Parses.pure
          rintro next ⟨hq, hle⟩ hsize -
          rw [hq, List.append_nil, List.append_nil]
          exact ⟨[], .sized (.inr rfl) hsize hle, fun _ _ => List.not_mem_nil⟩
        · apply Parses.pure
          intro next hnext
          exact ⟨_, .number, not_mem_of_next_ne hnext⟩
      | char => exact parses_bounded (.inl rfl) (fun _ => nofun) hspan
      | varchar => exact parses_bounded (.inr rfl) (fun _ => nofun) hspan
      | _ => exact .refuseLexeme hspan
    | _ => exact .refuseLexeme hspan
  · intro l s hs
    rw [hs]
    exact ⟨_, fun _ => rfl, rfl⟩

theorem parses_numberLiteral {negative : Bool} {l : Lexeme} (hspan : l.span ∈ known) :
    Parses known depth depth (numberLiteral negative l) fun _ ts _ => ts = [] ∧
      IsConstant ((if negative then [.symbol .minus] else []) ++ [l.token]) := by
  rw [numberLiteral]
  cases hl : l.token with
  | decimal digits =>
    apply Parses.pure
    intro _
    cases negative with
    | true => exact ⟨rfl, .negativeDecimal digits⟩
    | false => exact ⟨rfl, .decimal digits⟩
  | integer digits =>
    apply Parses.ite
    · intro hbounds
      apply Parses.pure
      intro _
      cases negative with
      | true =>
        simp only [if_true] at hbounds
        exact ⟨rfl, .negative (by omega)⟩
      | false =>
        simp only [Bool.false_eq_true, if_false] at hbounds
        exact ⟨rfl, .integer (by omega)⟩
    · intro _
      exact .refuse hspan
  | _ => exact .refuseLexeme hspan

theorem parses_afterSign (negative : Bool) :
    Parses known depth depth (next "literal" >>= fun l => match l.token, negative with
      | .integer _, _ | .decimal _, _ => numberLiteral negative l
      | .keyword .null, false => return .null
      | .string value, false => return .string value
      | _, _ => refuseLexeme "literal" l)
      fun _ ts _ => IsConstant ((if negative then [.symbol .minus] else []) ++ ts) := by
  apply Parses.next
  · intro l
    have hspan : l.span ∈ known ++ [l.span] := by simp
    have hnumber : Parses (known ++ [l.span]) depth depth (numberLiteral negative l)
        fun _ ts _ =>
          IsConstant ((if negative then [.symbol .minus] else []) ++ l.token :: ts) := by
      apply (parses_numberLiteral hspan).imp
      rintro _ ts _ ⟨rfl, h⟩
      exact h
    cases hl : l.token with
    | integer digits | decimal digits =>
      rw [hl] at hnumber
      exact hnumber
    | string text =>
      cases negative with
      | true => exact .refuseLexeme hspan
      | false => exact .pure fun _ => .string text
    | keyword k =>
      cases negative with
      | true => cases k <;> exact .refuseLexeme hspan
      | false =>
        cases k with
        | null => exact .pure fun _ => .null
        | _ => exact .refuseLexeme hspan
    | _ => cases negative <;> exact .refuseLexeme hspan
  · intro l s hs
    rw [hs]
    exact ⟨_, fun _ => rfl, rfl⟩

theorem parses_literal : Parses known depth depth literal fun _ ts _ => IsConstant ts := by
  apply Parses.eat rfl
  · intro place
    exact parses_afterSign true
  · exact (parses_afterSign false).imp fun _ _ _ h _ => h

theorem parses_defaultValue :
    Parses known depth depth defaultValue fun _ ts _ => IsDefault ts := by
  apply Parses.eat rfl
  · intro place
    exact .pure fun _ => .currentTimestamp
  · exact parses_literal.map fun _ _ _ h _ => .constant h

/-! ### References -/

theorem parses_referentialAction :
    Parses known depth depth referentialAction fun a ts _ => ts = a.tokens := by
  apply Parses.next
  · intro l
    have hspan : l.span ∈ known ++ [l.span] := by simp
    cases hl : l.token with
    | keyword k =>
      cases k with
      | cascade | restrict => exact .pure fun _ => rfl
      | set | no =>
        apply Parses.step one_keyword
        intro _ l₁ hl₁
        apply Parses.pure
        intro _
        rw [hl₁]
        rfl
      | _ => exact .refuseLexeme hspan
    | _ => exact .refuseLexeme hspan
  · intro l s hs
    rw [hs]
    exact ⟨_, fun _ => rfl, rfl⟩

/-- One clause, or none. -/
theorem parses_actionClause (r : Reference) : Parses known depth depth (actionClause? r)
    fun o ts next => o = none ∧ ts = [] ∧ next ≠ some (.keyword .on) ∨
      ∃ r' event action, o = some r' ∧ (event = .delete ∨ event = .update) ∧
        ts = .keyword .on :: .keyword event :: ReferentialAction.tokens action := by
  apply Parses.eat rfl
  · intro place
    apply Parses.next
    · intro l
      have hspan : l.span ∈ known ++ [place] ++ [l.span] := by simp
      cases hl : l.token with
      | keyword k =>
        cases k with
        | delete =>
          apply Parses.bind parses_referentialAction
          intro action p
          apply Parses.pure
          intro _ hp
          rw [hp, List.append_nil]
          exact .inr ⟨_, .delete, action, rfl, .inl rfl, rfl⟩
        | update =>
          apply Parses.bind parses_referentialAction
          intro action p
          apply Parses.pure
          intro _ hp
          rw [hp, List.append_nil]
          exact .inr ⟨_, .update, action, rfl, .inr rfl, rfl⟩
        | _ => exact .refuseLexeme hspan
      | _ => exact .refuseLexeme hspan
    · intro l s hs
      rw [hs]
      exact ⟨_, fun _ => rfl, rfl⟩
  · apply Parses.pure
    intro next hnext
    exact .inl ⟨rfl, rfl, hnext⟩

theorem parses_actionClauses (r : Reference) : Parses known depth depth (actionClauses r)
    fun _ ts next => IsActions ts ∧ next ≠ some (.keyword .on) := by
  intro ls
  induction hn : ls.length using Nat.strongRecOn generalizing ls r known with
  | ind n ih =>
    rw [actionClauses]
    have hfirst : Parsed known depth depth _ ls (actionClause? r ls) := parses_actionClause r ls
    generalize actionClause? r ls = x at hfirst
    cases hfirst with
    | refused hls hdepth hplace => exact .refused hls hdepth hplace
    | @read p rest o hls hdepth h =>
      rcases h with ⟨rfl, hp, hnext⟩ | ⟨r', event, action, rfl, hevent, hp⟩
      · exact .read hls hdepth ⟨hp ▸ .nil, hnext⟩
      · have hlength : rest.length < ls.length := by
          have hpos := congrArg List.length hp
          simp only [List.length_map, List.length_cons] at hpos
          rw [hls, List.length_append]
          omega
        simp only [if_pos hlength]
        apply (ih rest.length (hn ▸ hlength) r' rest rfl).after hls hdepth
        rintro _ q last - ⟨hq, hnext⟩
        rw [List.map_append, hp]
        exact ⟨.cons hevent action hq, hnext⟩

theorem parses_references : Parses known depth depth references
    fun _ ts next => IsReferences ts ∧ next ≠ some (.keyword .on) := by
  apply Parses.step one_keyword
  intro _ l hl
  apply Parses.step one_name
  rintro ⟨table, place⟩ l₁ ⟨htable, -⟩
  apply Parses.step (one_symbol rfl)
  intro _ l₂ hl₂
  apply Parses.step one_name
  rintro ⟨column, place'⟩ l₃ ⟨hcolumn, -⟩
  apply Parses.step (one_symbol rfl)
  intro _ l₄ hl₄
  apply (parses_actionClauses _).imp
  rintro _ ts next ⟨hts, hnext⟩
  rw [hl, hl₂, hl₄]
  exact ⟨.mk (Option.isSome_of_mem htable) (Option.isSome_of_mem hcolumn) hts, hnext⟩

/-! ### Column lists and keys -/

theorem parses_moreNames {what : String} : Parses known (depth + 1) (depth + 1)
    (moreItems .comma (Prod.fst <$> expectName what))
    fun _ ts _ => ∀ t, IsName t → IsNames (t :: ts) := by
  intro ls
  induction hn : ls.length using Nat.strongRecOn generalizing ls known with
  | ind n ih =>
    rw [moreItems.eq_def]
    cases ls with
    | nil => exact .read (p := []) rfl rfl fun _ ht => .one ht
    | cons l rest =>
      by_cases hl : l.token = .symbol .comma
      · have hcomma : openAfter? (depth + 1) [l.token] = some (depth + 1) := by
          rw [hl]
          rfl
        have hitem : TakesOne (depth + 1) (depth + 1) (Prod.fst <$> expectName what) _ :=
          one_name.map
        simp only [if_pos hl]
        rcases hitem rest with ⟨l₁, rest, a, rfl, hdepth, hread, p, -, hname, -⟩ | ⟨e, hread, he⟩
        · have hlength : rest.length ≤ (l₁ :: rest).length := Nat.le_succ _
          have hsmaller : rest.length < n := by
            rw [← hn, List.length_cons, List.length_cons]
            omega
          have hboth : openAfter? (depth + 1) [l.token, l₁.token] = some (depth + 1) := by
            rw [← List.singleton_append, openAfter_append, hcomma, Option.bind_some, openAfter?,
              hdepth]
            rfl
          have hnames : Parsed known (depth + 1) (depth + 1)
              (fun _ ts _ => ∀ t, IsName t → IsNames (t :: ts)) (l :: l₁ :: rest)
              (moreItems .comma (Prod.fst <$> expectName what) rest) := by
            apply (ih rest.length hsmaller rest rfl).after (p := [l, l₁]) rfl hboth
            intro _ q last _ hq t ht
            rw [List.map_append, List.map_cons, hl]
            exact .cons ht (hq _ (Option.isSome_of_mem hname))
          simp only [hread, if_pos hlength]
          generalize moreItems .comma (Prod.fst <$> expectName what) rest = x at hnames ⊢
          cases hnames with
          | read hls hdepth h => exact .read hls hdepth h
          | refused hls hdepth hplace => exact .refused hls hdepth hplace
        · simp only [hread]
          exact (TakesOne.parsed_error (N := fun _ _ _ => False) he).after (p := [l]) rfl hcomma
            fun _ _ _ _ h => h.elim
      · simp only [if_neg hl]
        exact .read (p := []) rfl rfl fun _ ht => .one ht

theorem parses_columnList : Parses known depth depth columnList fun _ ts _ => IsColumnList ts := by
  apply Parses.step (one_symbol rfl)
  intro _ l hl
  have hnames : Parses (known ++ [l.span]) (depth + 1) (depth + 1)
      (Reader.sepBy1 .comma (Prod.fst <$> expectName "column name")) fun _ ts _ => IsNames ts := by
    apply Parses.step one_name.map
    rintro _ l₁ ⟨_, -, hname, -⟩
    apply Parses.bind parses_moreNames
    intro _ p
    apply Parses.pure
    intro _ hp
    rw [List.append_nil]
    exact hp _ (Option.isSome_of_mem hname)
  apply hnames.bind
  intro _ p
  apply Parses.step (one_symbol rfl)
  intro _ l₁ hl₁
  apply Parses.pure
  intro _ hp
  rw [hl, hl₁]
  exact .mk hp

theorem parses_keyElement (table : TableDraft) (name : Option String) :
    Parses known depth depth (keyElement? table name) fun o ts next =>
      o = none ∧ ts = [] ∨ o.isSome = true ∧ ∃ more, IsKey more ts ∧ ∀ t ∈ next, t ∉ more := by
  have hnone : ∀ {known : List Span} {o : Option Token}, Parses known depth depth
      (pure (none : Option TableDraft)) fun o' ts next => ahead ts next = o →
        o' = none ∧ ts = [] ∨
          o'.isSome = true ∧ ∃ more, IsKey more ts ∧ ∀ t ∈ next, t ∉ more :=
    .pure fun _ _ => .inl ⟨rfl, rfl⟩
  apply Parses.peek
  intro o
  cases o with
  | none => exact hnone
  | some t =>
    cases t with
    | keyword k =>
      cases k with
      | primary =>
        apply Parses.step one_keyword
        intro _ l hl
        apply Parses.step one_keyword
        intro _ l₁ hl₁
        apply Parses.bind parses_columnList
        intro _ p
        apply Parses.pure
        intro _ hp _
        rw [hl, hl₁, List.append_nil]
        exact .inr ⟨rfl, [], .primary hp, fun _ _ => List.not_mem_nil⟩
      | unique =>
        apply Parses.step one_keyword
        intro _ l hl
        apply Parses.bind parses_columnList
        intro _ p
        apply Parses.pure
        intro _ hp _
        rw [hl, List.append_nil]
        exact .inr ⟨rfl, [], .unique hp, fun _ _ => List.not_mem_nil⟩
      | foreign =>
        apply Parses.step one_keyword
        intro _ l hl
        apply Parses.step one_keyword
        intro _ l₁ hl₁
        apply Parses.step (one_symbol rfl)
        intro _ l₂ hl₂
        apply Parses.step one_name
        rintro _ l₃ ⟨hcolumn, -⟩
        apply Parses.step (one_symbol rfl)
        intro _ l₄ hl₄
        apply Parses.bind parses_references
        intro _ p
        apply Parses.pure
        rintro _ ⟨hp, hnext⟩ _
        rw [hl, hl₁, hl₂, hl₄, List.append_nil]
        exact .inr ⟨rfl, _, .foreign (Option.isSome_of_mem hcolumn) hp, not_mem_of_next_ne hnext⟩
      | _ => exact hnone
    | _ => exact hnone

/-! ### Elements -/

theorem Grammar.IsOption.ne_nil {more ts : List Token} (h : IsOption more ts) : ts ≠ [] := by
  cases h with
  | references h =>
    cases h with
    | mk => nofun
  | notNull | null | default | primaryKey | unique | comment => nofun

/-- One option, or none. -/
theorem parses_columnOption (d : ColumnDraft) :
    Recovering.Parses known depth depth (columnOption? d) fun o ts next =>
      o = none ∧ ts = [] ∧ (∀ t ∈ next, t ∉ optionStarts) ∨
        ∃ d' more, o = some d' ∧ d'.column.name = d.column.name ∧ IsOption more ts ∧
          ∀ t ∈ next, t ∉ more := by
  have hnone : ∀ {known : List Span} {o : Option Token}, (∀ t ∈ o, t ∉ optionStarts) →
      Recovering.Parses known depth depth (pure (none : Option ColumnDraft)) fun o' ts next =>
        ahead ts next = o → o' = none ∧ ts = [] ∧ (∀ t ∈ next, t ∉ optionStarts) ∨
          ∃ d' more, o' = some d' ∧ d'.column.name = d.column.name ∧ IsOption more ts ∧
            ∀ t ∈ next, t ∉ more := by
    intro known o ho
    apply Recovering.Parses.pure
    rintro next rfl
    exact .inl ⟨rfl, rfl, ho⟩
  apply Recovering.Parses.peek
  intro o ho
  cases o with
  | none => exact hnone nofun
  | some t =>
    cases t with
    | keyword k =>
      cases k with
      | not =>
        apply Recovering.Parses.step one_keyword
        intro _ l hl
        apply Recovering.Parses.step one_keyword
        intro _ l₁ hl₁
        apply Recovering.Parses.pure
        intro _ _
        rw [hl, hl₁]
        exact .inr ⟨_, [], rfl, rfl, .notNull, fun _ _ => List.not_mem_nil⟩
      | null =>
        apply Recovering.Parses.step one_keyword
        intro _ l hl
        apply Recovering.Parses.pure
        intro _ _
        rw [hl]
        exact .inr ⟨_, [], rfl, rfl, .null, fun _ _ => List.not_mem_nil⟩
      | default =>
        apply Recovering.Parses.step one_keyword
        intro _ l hl
        apply Recovering.Parses.bind (.lift parses_defaultValue)
        intro _ p
        apply Recovering.Parses.pure
        intro _ hp _
        rw [hl, List.append_nil]
        exact .inr ⟨_, [], rfl, rfl, .default hp, fun _ _ => List.not_mem_nil⟩
      | primary =>
        apply Recovering.Parses.step one_keyword
        intro _ l hl
        apply Recovering.Parses.step one_keyword
        intro _ l₁ hl₁
        apply Recovering.Parses.pure
        intro _ _
        rw [hl, hl₁]
        exact .inr ⟨_, [], rfl, rfl, .primaryKey, fun _ _ => List.not_mem_nil⟩
      | unique =>
        apply Recovering.Parses.step one_keyword
        intro _ l hl
        apply Recovering.Parses.pure
        intro _ _
        rw [hl]
        exact .inr ⟨_, [], rfl, rfl, .unique, fun _ _ => List.not_mem_nil⟩
      | references =>
        apply Recovering.Parses.bind (.lift parses_references)
        intro _ p
        apply Recovering.Parses.pure
        rintro _ ⟨hp, hnext⟩ _
        rw [List.append_nil]
        exact .inr ⟨_, _, rfl, rfl, .references hp, not_mem_of_next_ne hnext⟩
      | comment =>
        apply Recovering.Parses.step one_keyword
        intro _ l hl
        apply Recovering.Parses.step one_string
        intro text l₁ hl₁
        apply Recovering.Parses.pure
        intro _ _
        rw [hl, hl₁]
        exact .inr ⟨_, [], rfl, rfl, .comment text, fun _ _ => List.not_mem_nil⟩
      | dbms => exact absurd rfl ho
      | _ => exact hnone (by simp [optionStarts])
    | _ => exact hnone (by simp [optionStarts])

theorem parses_options (d : ColumnDraft) :
    Recovering.Parses known depth depth (repeatClauses columnOption? d) fun d' ts next =>
      d'.column.name = d.column.name ∧ ∀ more, (∀ t ∈ ahead ts next, t ∉ more) →
        ∃ last, IsOptions more last ts ∧ ∀ t ∈ next, t ∉ optionStarts ++ last := by
  intro ls hls
  rw [repeatClauses]
  -- Every option takes a token. What it would go on with is what the options behind it start from.
  induction hn : ls.length using Nat.strongRecOn generalizing ls d known with
  | ind n ih =>
    rw [repeatClauses.go]
    have hfirst : (columnOption? d ls).recorded = [] ∧
        Parsed known depth depth _ ls (columnOption? d ls).result :=
      parses_columnOption d ls hls
    generalize columnOption? d ls = o at hfirst
    obtain ⟨recorded, x⟩ := o
    obtain ⟨hrecorded, hfirst⟩ := hfirst
    dsimp only at hrecorded hfirst
    subst hrecorded
    cases hfirst with
    | refused hsplit hdepth hplace => exact ⟨rfl, .refused hsplit hdepth hplace⟩
    | @read p rest o hsplit hdepth h =>
      rcases h with ⟨rfl, hp, hnext⟩ | ⟨d', more', rfl, hname, hp, hnext⟩
      · refine ⟨rfl, .read hsplit hdepth ⟨rfl, fun more hmore => ?_⟩⟩
        rw [hp] at hmore ⊢
        refine ⟨more, .nil more, fun t ht hmem => ?_⟩
        rcases List.mem_append.mp hmem with hmem | hmem
        · exact hnext t ht hmem
        · exact hmore t ht hmem
      · have hlength : rest.length < ls.length := by
          have hne : p ≠ [] := by
            rintro rfl
            exact hp.ne_nil rfl
          rw [hsplit, List.length_append]
          have := List.length_pos_of_ne_nil hne
          omega
        have hrest : ∀ l ∈ rest, l.token ≠ .keyword .dbms := by
          intro l hl
          apply hls
          rw [hsplit]
          exact List.mem_append_right _ hl
        have hrun : (repeatClauses.go columnOption? d' rest).recorded = [] ∧
            Parsed (known ++ p.map Lexeme.span) depth depth _ rest
              (repeatClauses.go columnOption? d' rest).result :=
          ih rest.length (hn ▸ hlength) d' rest hrest rfl
        obtain ⟨hlater, hparsed⟩ := hrun
        simp only [if_pos hlength, hlater]
        refine ⟨rfl, hparsed.after hsplit hdepth ?_⟩
        rintro d'' q last hsplit' ⟨hname', hq⟩
        refine ⟨hname'.trans hname, fun more _ => ?_⟩
        rw [hsplit', nextToken_append] at hnext
        obtain ⟨final, hoptions, hfinal⟩ := hq more' hnext
        rw [List.map_append]
        exact ⟨final, .cons hp hoptions, hfinal⟩

theorem parses_column (table : TableDraft) :
    Recovering.Parses known depth depth (column table) fun _ ts next =>
      ∃ more, ElementBefore more ts ∧ ∀ t ∈ next, t ∉ more := by
  apply Recovering.Parses.step one_name
  rintro ⟨name, place⟩ l ⟨hname, rfl⟩
  apply Recovering.Parses.bind (.lift parses_dataType)
  intro type p
  apply Recovering.Parses.bind (parses_options _)
  intro d q
  apply Recovering.Parses.bind (.lift (parses_orInvalid (by simp)))
  intro c r
  apply Recovering.Parses.pure
  rintro next ⟨hr, hbuild⟩ ⟨hd, hoptions⟩ ⟨more, htype, hmore⟩
  rw [hr] at hoptions hmore ⊢
  obtain ⟨_, hcheck, -⟩ := bind_ok_iff.mp hbuild
  rw [hd] at hcheck
  obtain ⟨last, hlast, hnext⟩ := hoptions more (by simpa [ahead] using hmore)
  refine ⟨_, .column hname (checkIdentifier_ok_iff.mp hcheck) htype ?_, hnext⟩
  simpa using hlast

theorem parses_indexElement (table : TableDraft) :
    Recovering.Parses known depth depth (indexElement table) fun _ ts next =>
      ∃ more, ElementBefore more ts ∧ ∀ t ∈ next, t ∉ more := by
  apply Recovering.Parses.step one_keyword
  intro _ l hl
  apply Recovering.Parses.step one_name
  rintro _ l₁ ⟨hname, -⟩
  apply Recovering.Parses.bind (.lift parses_columnList)
  intro columns p
  apply Recovering.Parses.noHints
  apply Recovering.Parses.pure
  intro _ hp
  rw [hl, List.append_nil]
  exact ⟨[], .index (Option.isSome_of_mem hname) hp, fun _ _ => List.not_mem_nil⟩

/-- What is read is an element, and the next token is none with which it would go on. -/
theorem parses_tableElement (table : TableDraft) :
    Recovering.Parses known depth depth (tableElement table) fun _ ts next =>
      ∃ more, ElementBefore more ts ∧ ∀ t ∈ next, t ∉ more := by
  apply Recovering.Parses.bind (.lift (parses_eat rfl))
  intro named p
  cases named with
  | true =>
    apply Recovering.Parses.step one_name
    rintro ⟨name, place⟩ l ⟨hname, -⟩
    apply Recovering.Parses.bind (.lift (parses_keyElement table (some name)))
    intro o q
    cases o with
    | none => exact .lift parses_refuseHere
    | some table' =>
      apply Recovering.Parses.pure
      rintro next hkey hp
      obtain ⟨-, more, hkey, hnext⟩ := hkey.resolve_left nofun
      obtain ⟨-, hp⟩ := hp.resolve_right nofun
      rw [hp, List.append_nil]
      exact ⟨more, .constraint (Option.isSome_of_mem hname) hkey, hnext⟩
  | false =>
    apply Recovering.Parses.bind (.lift (parses_keyElement table none))
    intro o q
    cases o with
    | some table' =>
      apply Recovering.Parses.pure
      rintro next hkey hp
      obtain ⟨-, more, hkey, hnext⟩ := hkey.resolve_left nofun
      obtain ⟨-, hp, -⟩ := hp.resolve_left nofun
      rw [hp, List.append_nil]
      exact ⟨more, .key hkey, hnext⟩
    | none =>
      apply Recovering.Parses.bind (.lift parses_isAt)
      intro indexed r
      have hrest : ∀ {known : List Span}, Recovering.Parses known depth depth
          (if indexed = true then indexElement table else column table) fun _ ts next =>
            ∃ more, ElementBefore more ts ∧ ∀ t ∈ next, t ∉ more := by
        intro known
        cases indexed with
        | true => exact parses_indexElement table
        | false => exact parses_column table
      apply hrest.imp
      intro _ ts next h hr hq hp
      obtain ⟨-, hq⟩ := hq.resolve_right nofun
      obtain ⟨-, hp, -⟩ := hp.resolve_left nofun
      rw [hp, hq, hr]
      exact h

/-! ### Which tokens are an element -/

section Decision

variable {t : Token} {more ts : List Token}

/-- Tokens at no place in particular. -/
def placeless (ts : List Token) : List Lexeme :=
  ts.map fun t => ⟨t, ⟨0, 0⟩⟩

theorem map_token_placeless (ts : List Token) : (placeless ts).map Lexeme.token = ts := by
  rw [placeless, List.map_map]
  exact List.map_id ts

/-- How many tokens are left behind the element that is read, if one is. -/
def unread? (ts : List Token) : Option Nat :=
  match (tableElement { name := "" } (placeless ts)).result with
  | .ok (_, rest) => some rest.length
  | .error _ => none

theorem Grammar.ElementBefore.unread (h : ElementBefore more ts) {us : List Token}
    (hus : ∀ t ∈ us.head?, t ∉ more ∧ t ≠ .keyword .dbms) :
    unread? (ts ++ us) = some us.length := by
  have hnext : Next us.head?.toList (placeless us) := by
    intro l hl
    cases us with
    | nil => cases hl
    | cons t us =>
      cases hl
      exact List.mem_singleton.mpr rfl
  have hf : ∀ t ∈ us.head?.toList, t ∉ more ∧ t ≠ .keyword .dbms :=
    fun t ht => hus t (Option.mem_toList.mp ht)
  obtain ⟨_, hread, -⟩ :=
    h.recovers hf { name := "" } (placeless ts) (placeless us) (map_token_placeless ts) hnext
  rw [placeless, placeless, ← List.map_append] at hread
  rw [unread?, placeless, hread]
  simp

/-- No element is longer, but for the tokens with which it is said to go on. -/
theorem Grammar.ElementBefore.not_isElement (h : ElementBefore more ts) (ht : t ∉ more)
    (later : List Token) : ¬ IsElement (ts ++ t :: later) := by
  rintro ⟨more', hlonger⟩
  have hne : t ≠ .keyword .dbms := by
    rintro rfl
    exact hlonger.free (by simp)
  -- The reader has one result only: it cannot stop before `t` and also at the end.
  have hwhole : unread? (ts ++ t :: later ++ []) = some 0 := hlonger.unread nofun
  have hfirst : unread? (ts ++ t :: later) = some (later.length + 1) := by
    apply h.unread
    rintro _ ⟨⟩
    exact ⟨ht, hne⟩
  rw [List.append_nil, hfirst] at hwhole
  cases hwhole

theorem elementBefore_of_unread {n : Nat} (hfree : .keyword .dbms ∉ ts) (h : unread? ts = some n) :
    ∃ more first last, ts = first ++ last ∧ last.length = n ∧ ElementBefore more first ∧
      ∀ t ∈ last.head?, t ∉ more := by
  have hls : ∀ l ∈ placeless ts, l.token ≠ .keyword .dbms := by
    intro l hl heq
    apply hfree
    rw [← map_token_placeless ts, ← heq]
    exact List.mem_map_of_mem hl
  obtain ⟨-, hparsed⟩ : _ ∧ Parsed [] 0 0 _ (placeless ts) _ :=
    parses_tableElement { name := "" } (placeless ts) hls
  rw [unread?] at h
  generalize (tableElement { name := "" } (placeless ts)).result = x at hparsed h
  cases hparsed with
  | refused => cases h
  | @read p rest _ hsplit _ hread =>
    obtain ⟨more, helement, hnext⟩ := hread
    cases h
    refine ⟨more, p.map Lexeme.token, rest.map Lexeme.token, ?_, List.length_map _, helement, ?_⟩
    · rw [← List.map_append, ← hsplit, map_token_placeless]
    · rw [List.head?_map]
      exact hnext

theorem isElement_iff : IsElement ts ↔ .keyword .dbms ∉ ts ∧ unread? ts = some 0 := by
  constructor
  · rintro ⟨more, h⟩
    have hread : unread? (ts ++ []) = some 0 := h.unread nofun
    rw [List.append_nil] at hread
    exact ⟨h.free, hread⟩
  · rintro ⟨hfree, hread⟩
    obtain ⟨more, first, last, rfl, hlast, h, -⟩ := elementBefore_of_unread hfree hread
    cases List.eq_nil_of_length_eq_zero hlast
    rw [List.append_nil]
    exact ⟨more, h⟩

instance : DecidablePred IsElement := fun _ => decidable_of_iff _ isElement_iff.symm

/-- Whether an element goes on is seen when one more token is read. -/
theorem not_goesOn_iff (h : IsElement ts) : (∀ later, ¬ IsElement (ts ++ t :: later)) ↔
    t = .keyword .dbms ∨ unread? (ts ++ [t]) = some 1 := by
  obtain ⟨more, h⟩ := h
  constructor
  · intro hnone
    by_cases hdbms : t = .keyword .dbms
    · exact .inl hdbms
    · right
      apply h.unread
      rintro _ ⟨⟩
      refine ⟨fun hmem => ?_, hdbms⟩
      obtain ⟨later, hlater⟩ := h.goesOn hmem
      exact hnone later hlater
  · intro hstops later hlater
    have hdbms : t ≠ .keyword .dbms := by
      rintro rfl
      exact hlater.choose_spec.free (by simp)
    have hfree : .keyword .dbms ∉ ts ++ [t] := by
      rw [List.mem_append, not_or, List.mem_singleton]
      exact ⟨h.free, hdbms.symm⟩
    obtain ⟨more', first, last, hsplit, hlast, hfirst, hnext⟩ :=
      elementBefore_of_unread hfree (hstops.resolve_left hdbms)
    obtain ⟨rfl, rfl⟩ := List.append_inj' hsplit hlast.symm
    exact hfirst.not_isElement (hnext t rfl) later hlater

theorem isOverlong_iff : IsOverlong ts ↔ ∃ i, ∃ h : i < ts.length, IsElement (ts.take i) ∧
    (ts[i] = .keyword .dbms ∨ unread? (ts.take i ++ [ts[i]]) = some 1) := by
  constructor
  · rintro ⟨first, t, rest, rfl, hfirst, hnone⟩
    refine ⟨first.length, by simp, ?_, ?_⟩
    · rw [List.take_left]
      exact hfirst
    · simp only [List.take_left, List.getElem_append_right (Nat.le_refl _), Nat.sub_self,
        List.getElem_cons_zero]
      exact (not_goesOn_iff hfirst).mp hnone
  · rintro ⟨i, hi, hfirst, hstops⟩
    refine ⟨ts.take i, ts[i], ts.drop (i + 1), ?_, hfirst, (not_goesOn_iff hfirst).mpr hstops⟩
    rw [List.getElem_cons_drop, List.take_append_drop]

instance : DecidablePred IsOverlong := fun _ => decidable_of_iff _ isOverlong_iff.symm

end Decision

end Schemata
