import Schemata.Proofs.ElementGrammar
import Schemata.Proofs.SchemaReading

/-!
The reader of table elements and the grammar agree. Whatever is an element is read to its end unless
the next token lets it go on; whatever is read is an element, and a mistake is found before the
tokens of the element are left.
-/

namespace Schemata

open Grammar Reader

/-! ### Every element is read -/

section Completeness

variable {follow more last ts us : List Token}

theorem takes_anyName {t : Token} {word : String} (what : String) (h : t.nameWord? = some word) :
    Takes (expectName what) t fun p => p.1 = word := by
  intro l rest hl
  refine ⟨(word, l.span), (Reads.bind_eq rfl).trans ?_, rfl⟩
  rw [hl, h]
  rfl

theorem takes_isName {t : Token} (what : String) (h : IsName t) :
    Takes (expectName what) t fun _ => True := by
  obtain ⟨word, hword⟩ := Option.isSome_iff_exists.mp h
  intro l rest hl
  obtain ⟨p, hp, -⟩ := takes_anyName what hword l rest hl
  exact ⟨p, hp, trivial⟩

theorem takes_digits {n : String} (h : digitsValue n < 0x100000000) :
    Takes expectCount (.integer n) (· = digitsValue n) := by
  intro l rest hl
  refine ⟨digitsValue n, (Reads.bind_eq rfl).trans ?_, rfl⟩
  rw [hl]
  dsimp only
  rw [if_pos h]
  rfl

theorem Grammar.IsSize.reads {precision scale : Nat} (h : IsSize precision scale ts) :
    Reads precisionAndScale ts (fun p => p.1 = precision ∧ p.2.getD 0 = scale) follow := by
  cases h with
  | precision hp =>
    apply Reads.step takes_symbol
    intro _ _
    apply Reads.step (takes_digits hp)
    rintro _ rfl
    apply Reads.look (looks_eat (by simp [upNext]))
    rintro _ rfl
    apply Reads.pure_bind
    apply Reads.step takes_symbol
    intro _ _
    exact .pure ⟨rfl, rfl⟩
  | @scaled p s hp hs =>
    apply Reads.step takes_symbol
    intro _ _
    apply Reads.step (takes_digits hp)
    rintro _ rfl
    apply Reads.step takes_eat
    rintro _ rfl
    have hscale : Reads (some <$> expectCount) [.integer s] (· = some (digitsValue s))
        (upNext [.symbol .rparen] follow) :=
      (Reads.of_takes (takes_digits hs)).map fun _ h => congrArg some h
    apply hscale.bind (List.Subset.refl _)
    rintro _ rfl
    apply Reads.step takes_symbol
    intro _ _
    exact .pure ⟨rfl, rfl⟩

theorem Grammar.IsSize.starts {precision scale : Nat} (h : IsSize precision scale ts) :
    ∃ later, ts = .symbol .lparen :: later := by
  cases h with
  | precision | scaled => exact ⟨_, rfl⟩

theorem Grammar.IsType.reads (h : IsType more ts) (hf : ∀ t ∈ follow, t ∉ more) :
    Reads dataType ts (fun _ => True) follow := by
  cases h with
  | @plain k hk =>
    apply Reads.step (takes_next _)
    intro l hl
    rw [hl]
    simp only [plainTypes, List.mem_cons, List.not_mem_nil, or_false] at hk
    rcases hk with rfl | rfl | rfl | rfl | rfl | rfl | rfl | rfl | rfl <;> exact .pure trivial
  | number =>
    apply Reads.step (takes_next _)
    intro l hl
    rw [hl]
    have hparen : .symbol .lparen ∉ upNext [] follow := fun h =>
      hf _ h (List.mem_singleton.mpr rfl)
    apply Reads.look (looks_not_isAt hparen)
    rintro _ rfl
    exact .pure trivial
  | @sized k precision scale size hk hsize hle =>
    apply Reads.step (takes_next _)
    intro l hl
    rw [hl]
    rcases hk with rfl | rfl
    · apply hsize.reads.last
      rintro ⟨p, s⟩ ⟨rfl, rfl⟩
      dsimp only
      rw [decimal_ok hle]
      exact .pure trivial
    · have hsize' : Reads precisionAndScale size _ follow := hsize.reads
      obtain ⟨later, rfl⟩ := hsize.starts
      apply Reads.look looks_isAt
      rintro _ rfl
      apply hsize'.last
      rintro ⟨p, s⟩ ⟨rfl, rfl⟩
      dsimp only
      rw [decimal_ok hle]
      exact .pure trivial
  | @bounded k n hk hpos hn =>
    apply Reads.step (takes_next _)
    intro l hl
    rw [hl]
    have hlength : Reads lengthInParentheses [.symbol .lparen, .integer n, .symbol .rparen]
        (· = digitsValue n) follow := by
      apply Reads.step takes_symbol
      intro _ _
      apply Reads.step (takes_digits hn)
      rintro _ rfl
      apply Reads.step takes_symbol
      intro _ _
      exact .pure rfl
    rcases hk with rfl | rfl
    · apply hlength.last
      rintro _ rfl
      rw [DataType.char?, if_neg (Nat.ne_of_gt hpos)]
      exact .pure trivial
    · apply hlength.last
      rintro _ rfl
      rw [DataType.varchar?, if_neg (Nat.ne_of_gt hpos)]
      exact .pure trivial

theorem Reads.imp {α : Type} {r : Reader α} {P Q : α → Prop} (h : Reads r ts P follow)
    (hPQ : ∀ a, P a → Q a) : Reads r ts Q follow := by
  intro ls rest hls hnext
  obtain ⟨a, ha, hP⟩ := h ls rest hls hnext
  exact ⟨a, ha, hPQ a hP⟩

theorem reads_wholeNumber {l : Lexeme} {digits : String} {negative : Bool}
    (hl : l.token = .integer digits)
    (h : digitsValue digits < 0x8000000000000000 + if negative then 1 else 0) :
    Reads (numberLiteral negative l) [] (fun _ => True) follow := by
  intro ls rest hls _
  cases List.map_eq_nil_iff.mp hls
  rw [numberLiteral, hl]
  dsimp only
  rw [if_pos]
  · exact ⟨_, rfl, trivial⟩
  · cases negative with
    | true =>
      simp only [if_true] at h ⊢
      omega
    | false =>
      simp only [Bool.false_eq_true, if_false] at h ⊢
      omega

theorem reads_decimalNumber {l : Lexeme} {digits : String} (negative : Bool)
    (hl : l.token = .decimal digits) :
    Reads (numberLiteral negative l) [] (fun _ => True) follow := by
  have hvalue := @Denotes.decimal negative digits
  rw [← hl] at hvalue
  exact hvalue.reads.imp fun _ _ => trivial

theorem Grammar.IsConstant.reads (h : IsConstant ts) :
    Reads literal ts (fun _ => True) follow := by
  cases h with
  | null =>
    apply Reads.look (looks_eat (by simp [upNext]))
    rintro _ rfl
    apply Reads.step (takes_next _)
    intro l hl
    rw [hl]
    exact .pure trivial
  | string text =>
    apply Reads.look (looks_eat (by simp [upNext]))
    rintro _ rfl
    apply Reads.step (takes_next _)
    intro l hl
    rw [hl]
    exact .pure trivial
  | integer h =>
    apply Reads.look (looks_eat (by simp [upNext]))
    rintro _ rfl
    apply Reads.step (takes_next _)
    intro l hl
    rw [hl]
    exact reads_wholeNumber hl h
  | negative h =>
    apply Reads.step takes_eat
    rintro _ rfl
    apply Reads.step (takes_next _)
    intro l hl
    rw [hl]
    exact reads_wholeNumber hl (Nat.lt_succ_of_le h)
  | decimal digits =>
    apply Reads.look (looks_eat (by simp [upNext]))
    rintro _ rfl
    apply Reads.step (takes_next _)
    intro l hl
    rw [hl]
    exact reads_decimalNumber false hl
  | negativeDecimal digits =>
    apply Reads.step takes_eat
    rintro _ rfl
    apply Reads.step (takes_next _)
    intro l hl
    rw [hl]
    exact reads_decimalNumber true hl

theorem Grammar.IsConstant.starts (h : IsConstant ts) :
    ∃ t later, ts = t :: later ∧ t ≠ .keyword .currentTimestamp := by
  cases h with
  | null | string | integer | negative | decimal | negativeDecimal =>
    exact ⟨_, _, rfl, nofun⟩

theorem Grammar.IsDefault.reads (h : IsDefault ts) :
    Reads defaultValue ts (fun _ => True) follow := by
  cases h with
  | currentTimestamp =>
    apply Reads.step takes_eat
    rintro _ rfl
    exact .pure trivial
  | constant h =>
    have hconstant : Reads literal ts _ follow := h.reads
    obtain ⟨t, later, rfl, ht⟩ := h.starts
    apply Reads.look (looks_eat (by simpa [upNext, eq_comm] using ht))
    rintro _ rfl
    exact hconstant.map fun _ _ => trivial

theorem Grammar.IsActions.reads (h : IsActions ts) (hon : .keyword .on ∉ follow)
    (r : Reference) : Reads (actionClauses r) ts (fun _ => True) follow := by
  induction h generalizing r with
  | nil => exact (reads_no_actionClause hon).imp fun _ _ => trivial
  | @cons event ts hevent action _ ih =>
    rw [← List.cons_append, ← List.cons_append]
    rcases hevent with rfl | rfl
    · exact reads_actionClause { r with onDelete := some action }
        (.inr ⟨List.cons_ne_nil _ _, fun _ => reads_onDelete r action⟩) (ih _)
    · exact reads_actionClause { r with onUpdate := some action }
        (.inr ⟨List.cons_ne_nil _ _, fun _ => reads_onUpdate r action⟩) (ih _)

theorem Grammar.IsReferences.reads (h : IsReferences ts) (hon : .keyword .on ∉ follow) :
    Reads references ts (fun _ => True) follow := by
  cases h with
  | mk htable hcolumn hactions =>
    apply Reads.step takes_keyword
    intro _ _
    apply Reads.step (takes_isName _ htable)
    rintro ⟨table, _⟩ -
    apply Reads.step takes_symbol
    intro _ _
    apply Reads.step (takes_isName _ hcolumn)
    rintro ⟨column, _⟩ -
    apply Reads.step takes_symbol
    intro _ _
    exact hactions.reads hon _

/-- An option is read without a change to the name of its column. -/
theorem Grammar.IsOption.recovers (h : IsOption more ts) (hf : ∀ t ∈ follow, t ∉ more)
    (d : ColumnDraft) : Recovers (columnOption? d) ts
      (fun o => ∃ d', o = some d' ∧ d'.column.name = d.column.name) follow := by
  cases h with
  | notNull =>
    apply Recovers.look looks_peek
    rintro _ rfl
    apply Recovers.step takes_keyword
    intro _ _
    apply Recovers.step takes_keyword
    intro _ _
    exact .pure ⟨_, rfl, rfl⟩
  | null =>
    apply Recovers.look looks_peek
    rintro _ rfl
    apply Recovers.step takes_keyword
    intro _ _
    exact .pure ⟨_, rfl, rfl⟩
  | default h =>
    apply Recovers.look looks_peek
    rintro _ rfl
    apply Recovers.step takes_keyword
    intro _ _
    apply (Recovers.lift h.reads).last
    intro _ _
    exact .pure ⟨_, rfl, rfl⟩
  | primaryKey =>
    apply Recovers.look looks_peek
    rintro _ rfl
    apply Recovers.step takes_keyword
    intro _ _
    apply Recovers.step takes_keyword
    intro _ _
    exact .pure ⟨_, rfl, rfl⟩
  | unique =>
    apply Recovers.look looks_peek
    rintro _ rfl
    apply Recovers.step takes_keyword
    intro _ _
    exact .pure ⟨_, rfl, rfl⟩
  | references h =>
    have hon : .keyword .on ∉ follow := fun h => hf _ h (List.mem_singleton.mpr rfl)
    have hreads := h.reads hon
    cases h
    apply Recovers.look looks_peek
    rintro _ rfl
    apply (Recovers.lift hreads).last
    intro _ _
    exact .pure ⟨_, rfl, rfl⟩
  | comment text =>
    apply Recovers.look looks_peek
    rintro _ rfl
    apply Recovers.step takes_keyword
    intro _ _
    apply Recovers.step takes_string
    intro _ _
    exact .pure ⟨_, rfl, rfl⟩

theorem Grammar.IsOption.starts (h : IsOption more ts) :
    ∃ t later, ts = t :: later ∧ t ∈ optionStarts := by
  cases h with
  | references h =>
    cases h
    exact ⟨_, _, rfl, by decide⟩
  | notNull | null | default | primaryKey | unique | comment => exact ⟨_, _, rfl, by decide⟩

/-- What may stand behind the last option, or in its place. -/
def EndsOptions (last follow : List Token) : Prop :=
  ∀ t ∈ follow, t ∉ optionStarts ∧ t ≠ .keyword .dbms ∧ t ∉ last

/-- No option begins with a token with which something before it would go on. -/
theorem Grammar.IsOptions.ahead (h : IsOptions more last us) (hend : EndsOptions last follow)
    (hmore : ∀ t ∈ more, t ∉ optionStarts) : ∀ t ∈ upNext us follow, t ∉ more := by
  intro t ht
  cases h with
  | nil => exact (hend t ht).2.2
  | cons hts _ =>
    obtain ⟨start, later, rfl, hstart⟩ := hts.starts
    cases List.mem_singleton.mp ht
    exact fun hm => hmore _ hm hstart

theorem Grammar.IsType.more_cases (h : IsType more ts) : ∀ t ∈ more, t ∉ optionStarts := by
  cases h with
  | number => decide
  | plain | sized | bounded => exact List.forall_mem_nil _

theorem Grammar.IsOption.more_cases (h : IsOption more ts) : ∀ t ∈ more, t ∉ optionStarts := by
  cases h with
  | references => decide
  | notNull | null | default | primaryKey | unique | comment => exact List.forall_mem_nil _

theorem recovers_noOption {d : ColumnDraft} (hend : EndsOptions last follow) :
    Recovers (columnOption? d) [] (· = none) follow := by
  apply Recovers.look looks_peek_nil
  intro o ho
  cases o with
  | none => exact .pure rfl
  | some t =>
    obtain ⟨hstart, hdbms, -⟩ := hend t (ho t rfl)
    simp only [optionStarts, List.mem_cons, List.not_mem_nil, or_false, not_or] at hstart
    split
    case h_9 => exact .pure rfl
    all_goals simp_all

/-- A clause that is there, whatever it adds. -/
theorem recovers_someClause {σ : Type} {clause? : σ → Recovering (Option σ)} {acc : σ}
    {P Q : σ → Prop} {before : List Token} (hne : ts ≠ [])
    (h : Recovers (clause? acc) ts (fun o => ∃ acc', o = some acc' ∧ Q acc') before)
    (hs : upNext us follow ⊆ before)
    (hmore : ∀ acc', Q acc' → Recovers (repeatClauses clause? acc') us P follow) :
    Recovers (repeatClauses clause? acc) (ts ++ us) P follow := by
  intro ls rest hls hnext
  obtain ⟨front, back, rfl, hfront, hback⟩ := List.map_eq_append_iff.mp hls
  have hahead : Next before (back ++ rest) := fun l hl => hs (hback ▸ hnext.upNext l hl)
  obtain ⟨_, ha, acc', rfl, hacc⟩ := h front (back ++ rest) hfront hahead
  obtain ⟨b, hb, hP⟩ := hmore acc' hacc back rest hback hnext
  refine ⟨b, ?_, hP⟩
  have hpos : 0 < front.length := by
    apply List.length_pos_of_ne_nil
    rintro rfl
    exact hne hfront.symm
  have hlength : (back ++ rest).length < (front ++ (back ++ rest)).length := by
    simp only [List.length_append]
    omega
  rw [repeatClauses] at hb ⊢
  rw [List.append_assoc, repeatClauses.go, ha]
  simp only [if_pos hlength, hb, List.nil_append]

theorem Grammar.IsOptions.recovers (h : IsOptions more last us) (hend : EndsOptions last follow)
    (d : ColumnDraft) : Recovers (repeatClauses columnOption? d) us
      (fun d' => d'.column.name = d.column.name) follow := by
  induction h generalizing d with
  | nil more => exact recovers_noClause (recovers_noOption hend) rfl
  | cons hts hus ih =>
    obtain ⟨t, later, hstart, -⟩ := hts.starts
    have hne := hstart ▸ List.cons_ne_nil t later
    apply recovers_someClause hne (hts.recovers (hus.ahead hend hts.more_cases) d)
      (List.Subset.refl _)
    intro d' hname
    rw [← hname]
    exact ih hend d'

theorem Grammar.IsNames.separated (h : IsNames ts) : ∃ names : List Token, names ≠ [] ∧
    (∀ t ∈ names, IsName t) ∧
      ts = Schemata.separated [.symbol .comma] (names.map fun t => [t]) := by
  induction h with
  | @one t h => exact ⟨[t], List.cons_ne_nil _ _, by simpa using h, by simp [Schemata.separated]⟩
  | @cons t ts h _ ih =>
    obtain ⟨names, hne, hall, rfl⟩ := ih
    cases names with
    | nil => exact absurd rfl hne
    | cons first names =>
      refine ⟨t :: first :: names, List.cons_ne_nil _ _, ?_, ?_⟩
      · rw [List.forall_mem_cons]
        exact ⟨h, hall⟩
      · exact (separated_cons_cons [.symbol .comma] [t] [first] (names.map fun t => [t])).symm

theorem Grammar.IsColumnList.reads (h : IsColumnList ts) :
    Reads columnList ts (fun _ => True) follow := by
  cases h with
  | mk h =>
    obtain ⟨names, hne, hall, rfl⟩ := h.separated
    have hname : ∀ t ∈ names, Reads (Prod.fst <$> expectName "column name") [t]
        (· = t.nameWord?.getD "") [.symbol .comma, .symbol .rparen] := by
      intro t ht
      obtain ⟨word, hword⟩ := Option.isSome_iff_exists.mp (hall t ht)
      apply (Reads.of_takes (takes_anyName "column name" hword)).map
      intro p hp
      rw [hp, hword]
      rfl
    apply Reads.step takes_symbol
    intro _ _
    apply (reads_sepBy1 hne (by decide) hname).bind (List.Subset.refl _)
    intro _ _
    apply Reads.step takes_symbol
    intro _ _
    exact .pure trivial

theorem Grammar.IsKey.reads (h : IsKey more ts) (hf : ∀ t ∈ follow, t ∉ more)
    (table : TableDraft) (name : Option String) :
    Reads (keyElement? table name) ts (fun o => o.isSome = true) follow := by
  cases h with
  | primary h =>
    apply Reads.look looks_peek
    rintro _ rfl
    apply Reads.step takes_keyword
    intro _ _
    apply Reads.step takes_keyword
    intro _ _
    apply h.reads.last
    intro _ _
    exact .pure rfl
  | unique h =>
    apply Reads.look looks_peek
    rintro _ rfl
    apply Reads.step takes_keyword
    intro _ _
    apply h.reads.last
    intro _ _
    exact .pure rfl
  | foreign hcolumn h =>
    have hon : .keyword .on ∉ follow := fun h => hf _ h (List.mem_singleton.mpr rfl)
    apply Reads.look looks_peek
    rintro _ rfl
    apply Reads.step takes_keyword
    intro _ _
    apply Reads.step takes_keyword
    intro _ _
    apply Reads.step takes_symbol
    intro _ _
    apply Reads.step (takes_isName _ hcolumn)
    rintro ⟨column, _⟩ -
    apply Reads.step takes_symbol
    intro _ _
    apply (h.reads hon).last
    intro _ _
    exact .pure rfl

theorem Grammar.IsKey.starts (h : IsKey more ts) :
    ∃ k later, ts = .keyword k :: later ∧ k ≠ .constraint := by
  cases h with
  | primary | unique | foreign => exact ⟨_, _, rfl, nofun⟩

theorem recovers_columnDefinition {t : Token} {name : String} (hname : t.nameWord? = some name)
    (hvalid : isIdentifier name = true) (hts : IsType more ts) (hus : IsOptions more last us)
    (hend : EndsOptions last follow) (table : TableDraft) :
    Recovers (column table) (t :: (ts ++ us)) (fun _ => True) follow := by
  apply Recovers.step (takes_anyName _ hname)
  rintro ⟨word, place⟩ rfl
  apply (Recovers.lift (hts.reads (hus.ahead hend hts.more_cases))).bind (List.Subset.refl _)
  intro type _
  apply (hus.recovers hend _).last
  intro d hd
  have hbuild : d.column.build = .ok d.column := by
    apply bind_ok_iff.mpr
    refine ⟨(), checkIdentifier_ok_iff.mpr ?_, rfl⟩
    rw [hd]
    exact hvalid
  rw [hbuild]
  exact .pure trivial

theorem isName_of_nameWord {t : Token} {name : String} (h : t.nameWord? = some name) :
    t.isName = true := by
  cases t with
  | name _ | quotedName _ => rfl
  | _ => cases h

/-- An element is read to its end, unless it goes on or hints follow. -/
theorem Grammar.ElementBefore.recovers (h : ElementBefore more ts)
    (hf : ∀ t ∈ follow, t ∉ more ∧ t ≠ .keyword .dbms) (table : TableDraft) :
    Recovers (tableElement table) ts (fun _ => True) follow := by
  have hfollow : ∀ t ∈ follow, t ∉ more := fun t ht => (hf t ht).1
  cases h with
  | @column t name more last ts us hname hvalid hts hus =>
    have hend : EndsOptions last follow := by
      intro u hu
      have hu := hf u hu
      rw [List.mem_append, not_or] at hu
      exact ⟨hu.1.1, hu.2, hu.1.2⟩
    have hne : ∀ k, .keyword k ∉ upNext (t :: (ts ++ us)) follow := by
      intro k hk
      have hisName : IsName t := Option.isSome_of_mem hname
      exact hisName.ne_keyword k (List.mem_singleton.mp hk).symm
    apply Recovers.look (looks_eat (hne .constraint))
    rintro _ rfl
    apply Recovers.look (looks_no_key (.inr (isName_of_nameWord hname)))
    rintro _ rfl
    apply Recovers.look (looks_not_isAt (hne .index))
    rintro _ rfl
    exact recovers_columnDefinition hname hvalid hts hus hend table
  | key h =>
    have hreads := h.reads hfollow table none
    obtain ⟨k, later, rfl, hk⟩ := h.starts
    apply Recovers.look (looks_eat (by simpa [upNext, eq_comm] using hk))
    rintro _ rfl
    apply (Recovers.lift hreads).last
    intro o ho
    obtain ⟨table', rfl⟩ := Option.isSome_iff_exists.mp ho
    exact .pure trivial
  | constraint hname h =>
    apply Recovers.step takes_eat
    rintro _ rfl
    apply Recovers.step (takes_isName _ hname)
    rintro ⟨name, _⟩ -
    apply (Recovers.lift (h.reads hfollow table (some name))).last
    intro o ho
    obtain ⟨table', rfl⟩ := Option.isSome_iff_exists.mp ho
    exact .pure trivial
  | index hname h =>
    apply Recovers.look (looks_eat (by simp [upNext]))
    rintro _ rfl
    apply Recovers.look (looks_no_key (.inl rfl))
    rintro _ rfl
    apply Recovers.look looks_isAt
    rintro _ rfl
    apply Recovers.step takes_keyword
    intro _ _
    apply Recovers.step (takes_isName _ hname)
    rintro ⟨name, _⟩ -
    apply (Recovers.lift h.reads).last
    intro columns _
    apply Recovers.look (looks_not_isAt fun hm => (hf _ hm).2 rfl)
    rintro _ rfl
    exact .pure trivial

end Completeness

end Schemata
