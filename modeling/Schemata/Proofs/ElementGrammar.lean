import Schemata.Grammar.Table
import Schemata.Proofs.TokenForm

/-!
The grammar of the elements of a table, but for hints, as rules on token lists. Where a construct
that is complete may still go on, its rule names the tokens with which it would.
-/

namespace Schemata

open Reader (digitsValue)

namespace Grammar

/-- A name, quoted or not. -/
def IsName (t : Token) : Prop :=
  t.nameWord?.isSome = true

/-- A precision and maybe a scale in parentheses, each below two to the thirty-second. -/
inductive IsSize : Nat → Nat → List Token → Prop
  | precision {p : String} (hp : digitsValue p < 0x100000000) :
    IsSize (digitsValue p) 0 [.symbol .lparen, .integer p, .symbol .rparen]
  | scaled {p s : String} (hp : digitsValue p < 0x100000000) (hs : digitsValue s < 0x100000000) :
    IsSize (digitsValue p) (digitsValue s)
      [.symbol .lparen, .integer p, .symbol .comma, .integer s, .symbol .rparen]

/-- The types that are one word. -/
def plainTypes : List Keyword :=
  [.bit, .integer, .bigInt, .float, .clob, .date, .time, .dateTime, .blob]

/-- A type that is accepted: scales do not exceed precisions, and lengths are positive. -/
inductive IsType : List Token → List Token → Prop
  | plain {k : Keyword} (h : k ∈ plainTypes) : IsType [] [.keyword k]
  | number : IsType [.symbol .lparen] [.keyword .number]
  | sized {k : Keyword} {precision scale : Nat} {ts : List Token}
    (hk : k = .decimal ∨ k = .number) (hsize : IsSize precision scale ts)
    (h : scale ≤ precision) : IsType [] (.keyword k :: ts)
  | bounded {k : Keyword} {n : String} (hk : k = .char ∨ k = .varchar) (h : 0 < digitsValue n)
    (hn : digitsValue n < 0x100000000) :
    IsType [] [.keyword k, .symbol .lparen, .integer n, .symbol .rparen]

/-- A constant; only a number may have a sign, and whole numbers fit into 64 bits. -/
inductive IsConstant : List Token → Prop
  | null : IsConstant [.keyword .null]
  | string (text : String) : IsConstant [.string text]
  | integer {digits : String} (h : digitsValue digits < 0x8000000000000000) :
      IsConstant [.integer digits]
  | negative {digits : String} (h : digitsValue digits ≤ 0x8000000000000000) :
    IsConstant [.symbol .minus, .integer digits]
  | decimal (digits : String) : IsConstant [.decimal digits]
  | negativeDecimal (digits : String) : IsConstant [.symbol .minus, .decimal digits]

inductive IsDefault : List Token → Prop
  | currentTimestamp : IsDefault [.keyword .currentTimestamp]
  | constant {ts : List Token} (h : IsConstant ts) : IsDefault ts

/-- Any number of `ON DELETE` and `ON UPDATE` clauses. -/
inductive IsActions : List Token → Prop
  | nil : IsActions []
  | cons {event : Keyword} {ts : List Token} (hevent : event = .delete ∨ event = .update)
    (action : ReferentialAction) (hts : IsActions ts) :
    IsActions (.keyword .on :: .keyword event :: (action.tokens ++ ts))

inductive IsReferences : List Token → Prop
  | mk {table column : Token} {actions : List Token} (htable : IsName table)
    (hcolumn : IsName column) (hactions : IsActions actions) :
    IsReferences (.keyword .references :: table :: .symbol .lparen :: column :: .symbol .rparen ::
      actions)

inductive IsOption : List Token → List Token → Prop
  | notNull : IsOption [] [.keyword .not, .keyword .null]
  | null : IsOption [] [.keyword .null]
  | default {ts : List Token} (h : IsDefault ts) : IsOption [] (.keyword .default :: ts)
  | primaryKey : IsOption [] [.keyword .primary, .keyword .key]
  | unique : IsOption [] [.keyword .unique]
  | references {ts : List Token} (h : IsReferences ts) : IsOption [.keyword .on] ts
  | comment (text : String) : IsOption [] [.keyword .comment, .string text]

/-- The tokens with which an option of a column begins. -/
def optionStarts : List Token :=
  [.keyword .not, .keyword .null, .keyword .default, .keyword .primary, .keyword .unique,
   .keyword .references, .keyword .comment]

/-- Options behind something that would go on with one of the first tokens; together with it they
would go on with one of the second ones. -/
inductive IsOptions : List Token → List Token → List Token → Prop
  | nil (more : List Token) : IsOptions more more []
  | cons {more first last ts us : List Token} (hts : IsOption first ts)
    (hus : IsOptions first last us) : IsOptions more last (ts ++ us)

/-- Names with a comma between any two. -/
inductive IsNames : List Token → Prop
  | one {t : Token} (h : IsName t) : IsNames [t]
  | cons {t : Token} {ts : List Token} (h : IsName t) (hts : IsNames ts) :
    IsNames (t :: .symbol .comma :: ts)

/-- Names in parentheses. -/
inductive IsColumnList : List Token → Prop
  | mk {ts : List Token} (h : IsNames ts) :
    IsColumnList (.symbol .lparen :: (ts ++ [Token.symbol .rparen]))

/-- A key or foreign key but for its name. -/
inductive IsKey : List Token → List Token → Prop
  | primary {ts : List Token} (h : IsColumnList ts) :
    IsKey [] (.keyword .primary :: .keyword .key :: ts)
  | unique {ts : List Token} (h : IsColumnList ts) : IsKey [] (.keyword .unique :: ts)
  | foreign {column : Token} {ts : List Token} (hcolumn : IsName column) (h : IsReferences ts) :
    IsKey [.keyword .on] (.keyword .foreign :: .keyword .key :: .symbol .lparen :: column ::
      .symbol .rparen :: ts)

/-- An element of a table, and the tokens with which it would go on. -/
inductive ElementBefore : List Token → List Token → Prop
  | column {t : Token} {name : String} {more last ts us : List Token}
    (hname : t.nameWord? = some name) (hvalid : isIdentifier name = true) (hts : IsType more ts)
    (hus : IsOptions more last us) : ElementBefore (optionStarts ++ last) (t :: (ts ++ us))
  | key {more ts : List Token} (h : IsKey more ts) : ElementBefore more ts
  | constraint {t : Token} {more ts : List Token} (hname : IsName t) (h : IsKey more ts) :
    ElementBefore more (.keyword .constraint :: t :: ts)
  | index {t : Token} {ts : List Token} (hname : IsName t) (h : IsColumnList ts) :
    ElementBefore [] (.keyword .index :: t :: ts)

/-- A whole element of a table. -/
def IsElement (ts : List Token) : Prop :=
  ∃ more, ElementBefore more ts

/-- A whole element, and then a token with which no element goes on. -/
def IsOverlong (ts : List Token) : Prop :=
  ∃ first t rest, ts = first ++ t :: rest ∧ IsElement first ∧
    ∀ more, ¬ IsElement (first ++ t :: more)

/-! ### Elements that go on -/

variable {t : Token} {more last ts us : List Token}

theorem IsActions.append (hts : IsActions ts) (hus : IsActions us) : IsActions (ts ++ us) := by
  induction hts with
  | nil => exact hus
  | cons hevent action _ ih =>
    rw [List.cons_append, List.cons_append, List.append_assoc]
    exact .cons hevent action ih

theorem IsReferences.goesOn (h : IsReferences ts) :
    ∃ later, IsReferences (ts ++ .keyword .on :: later) := by
  cases h with
  | mk htable hcolumn hactions =>
    have hlater : IsActions [.keyword .on, .keyword .delete, .keyword .cascade] :=
      .cons (.inl rfl) .cascade .nil
    exact ⟨_, .mk htable hcolumn (hactions.append hlater)⟩

theorem IsType.goesOn (h : IsType more ts) (ht : t ∈ more) :
    ∃ later, IsType [] (ts ++ t :: later) := by
  cases h with
  | number =>
    rw [List.mem_singleton] at ht
    subst ht
    have hsize : IsSize 0 0 [.symbol .lparen, .integer "", .symbol .rparen] :=
      .precision (p := "") (by decide)
    exact ⟨_, .sized (.inr rfl) hsize (Nat.le_refl 0)⟩
  | plain | sized | bounded => cases ht

theorem IsOption.goesOn (h : IsOption more ts) (ht : t ∈ more) :
    ∃ later, IsOption more (ts ++ t :: later) := by
  cases h with
  | references h =>
    rw [List.mem_singleton] at ht
    subst ht
    obtain ⟨later, hlater⟩ := h.goesOn
    exact ⟨later, .references hlater⟩
  | notNull | null | default | primaryKey | unique | comment => cases ht

theorem IsOptions.goesOn (h : IsOptions more last us) (ht : t ∈ last) :
    us = [] ∧ t ∈ more ∨ ∃ later, IsOptions more last (us ++ t :: later) := by
  induction h with
  | nil more => exact .inl ⟨rfl, ht⟩
  | @cons more first last ts us hts hus ih =>
    right
    rcases ih ht with ⟨rfl, hfirst⟩ | ⟨later, hlater⟩
    · obtain ⟨later, hlater⟩ := hts.goesOn hfirst
      refine ⟨later, ?_⟩
      rw [List.append_nil, ← List.append_nil (ts ++ t :: later)]
      exact .cons hlater hus
    · refine ⟨later, ?_⟩
      rw [List.append_assoc]
      exact .cons hts hlater

theorem IsOptions.append {final : List Token} (h : IsOptions more last ts)
    (hus : IsOptions last final us) : IsOptions more final (ts ++ us) := by
  induction h with
  | nil more => exact hus
  | cons hts _ ih =>
    rw [List.append_assoc]
    exact .cons hts (ih hus)

theorem exists_option (ht : t ∈ optionStarts) : ∃ more later, IsOption more (t :: later) := by
  simp only [optionStarts, List.mem_cons, List.not_mem_nil, or_false] at ht
  rcases ht with rfl | rfl | rfl | rfl | rfl | rfl | rfl
  · exact ⟨_, _, .notNull⟩
  · exact ⟨_, _, .null⟩
  · exact ⟨_, _, .default .currentTimestamp⟩
  · exact ⟨_, _, .primaryKey⟩
  · exact ⟨_, _, .unique⟩
  · have hname : IsName (.name "") := rfl
    exact ⟨_, _, .references (.mk hname hname .nil)⟩
  · exact ⟨_, _, .comment ""⟩

theorem IsOptions.another (h : IsOptions more last us) (ht : t ∈ optionStarts) :
    ∃ final later, IsOptions more final (us ++ t :: later) := by
  obtain ⟨final, later, hoption⟩ := exists_option ht
  refine ⟨final, later, h.append ?_⟩
  rw [← List.append_nil (t :: later)]
  exact .cons hoption (.nil final)

theorem IsKey.goesOn (h : IsKey more ts) (ht : t ∈ more) :
    ∃ later, IsKey more (ts ++ t :: later) := by
  cases h with
  | foreign hcolumn h =>
    rw [List.mem_singleton] at ht
    subst ht
    obtain ⟨later, hlater⟩ := h.goesOn
    exact ⟨later, .foreign hcolumn hlater⟩
  | primary | unique => cases ht

/-- With each of the tokens that are named for it, an element goes on to another one. -/
theorem ElementBefore.goesOn (h : ElementBefore more ts) (ht : t ∈ more) :
    ∃ later, IsElement (ts ++ t :: later) := by
  cases h with
  | @column _ _ more last _ _ hname hvalid hts hus =>
    rcases List.mem_append.mp ht with ht | ht
    · obtain ⟨final, later, hlater⟩ := hus.another ht
      refine ⟨later, optionStarts ++ final, ?_⟩
      rw [List.cons_append, List.append_assoc]
      exact .column hname hvalid hts hlater
    · rcases hus.goesOn ht with ⟨rfl, ht⟩ | ⟨later, hlater⟩
      · obtain ⟨later, hlater⟩ := hts.goesOn ht
        have hall := ElementBefore.column hname hvalid hlater (.nil [])
        refine ⟨later, optionStarts, ?_⟩
        simpa only [List.append_nil, List.cons_append] using hall
      · refine ⟨later, optionStarts ++ last, ?_⟩
        rw [List.cons_append, List.append_assoc]
        exact .column hname hvalid hts hlater
  | key h =>
    obtain ⟨later, hlater⟩ := h.goesOn ht
    exact ⟨later, _, .key hlater⟩
  | constraint hname h =>
    obtain ⟨later, hlater⟩ := h.goesOn ht
    exact ⟨later, _, .constraint hname hlater⟩
  | index => cases ht

/-! ### The tokens of elements -/

theorem IsName.ne_keyword (h : IsName t) (k : Keyword) : t ≠ .keyword k := by
  rintro rfl
  cases h

theorem IsSize.free {precision scale : Nat} (h : IsSize precision scale ts) :
    .keyword .dbms ∉ ts := by
  cases h <;> simp

theorem IsType.free (h : IsType more ts) : .keyword .dbms ∉ ts := by
  cases h with
  | plain hk =>
    rw [List.mem_singleton]
    rintro ⟨⟩
    exact absurd hk (by decide)
  | number => simp
  | sized hk hsize => rcases hk with rfl | rfl <;> simp [hsize.free]
  | bounded hk => rcases hk with rfl | rfl <;> simp

theorem IsDefault.free (h : IsDefault ts) : .keyword .dbms ∉ ts := by
  cases h with
  | currentTimestamp => simp
  | constant h => cases h <;> simp

theorem IsActions.free (h : IsActions ts) : .keyword .dbms ∉ ts := by
  induction h with
  | nil => exact List.not_mem_nil
  | cons hevent action _ ih =>
    have haction : .keyword .dbms ∉ action.tokens := by
      cases action <;> simp [ReferentialAction.tokens]
    rcases hevent with rfl | rfl <;> simp [haction, ih]

theorem IsReferences.free (h : IsReferences ts) : .keyword .dbms ∉ ts := by
  cases h with
  | mk htable hcolumn hactions =>
    simp [(htable.ne_keyword _).symm, (hcolumn.ne_keyword _).symm, hactions.free]

theorem IsOption.free (h : IsOption more ts) : .keyword .dbms ∉ ts := by
  cases h with
  | default h => simp [h.free]
  | references h => exact h.free
  | notNull | null | primaryKey | unique | comment => simp

theorem IsOptions.free (h : IsOptions more last ts) : .keyword .dbms ∉ ts := by
  induction h with
  | nil => exact List.not_mem_nil
  | cons hts _ ih =>
    rw [List.mem_append, not_or]
    exact ⟨hts.free, ih⟩

theorem IsNames.free (h : IsNames ts) : .keyword .dbms ∉ ts := by
  induction h with
  | one h => simp [(h.ne_keyword _).symm]
  | cons h _ ih => simp [(h.ne_keyword _).symm, ih]

theorem IsColumnList.free (h : IsColumnList ts) : .keyword .dbms ∉ ts := by
  cases h with
  | mk h => simp [h.free]

theorem IsKey.free (h : IsKey more ts) : .keyword .dbms ∉ ts := by
  cases h with
  | primary h | unique h => simp [h.free]
  | foreign hcolumn h => simp [(hcolumn.ne_keyword _).symm, h.free]

/-- Hints are no part of this grammar. -/
theorem ElementBefore.free (h : ElementBefore more ts) : .keyword .dbms ∉ ts := by
  cases h with
  | column hname _ hts hus =>
    have hname : IsName _ := Option.isSome_of_mem hname
    simp [(hname.ne_keyword _).symm, hts.free, hus.free]
  | key h => exact h.free
  | constraint hname h => simp [(hname.ne_keyword _).symm, h.free]
  | index hname h => simp [(hname.ne_keyword _).symm, h.free]

/-- The tokens with which some element goes on. -/
def continuations : List Token :=
  .symbol .lparen :: .keyword .on :: optionStarts

theorem IsType.more_subset (h : IsType more ts) : more ⊆ continuations := by
  cases h <;> simp [continuations]

theorem IsOption.more_subset (h : IsOption more ts) : more ⊆ continuations := by
  cases h <;> simp [continuations]

theorem IsKey.more_subset (h : IsKey more ts) : more ⊆ continuations := by
  cases h <;> simp [continuations]

theorem IsOptions.more_subset (h : IsOptions more last ts) (hmore : more ⊆ continuations) :
    last ⊆ continuations := by
  induction h with
  | nil => exact hmore
  | cons hts _ ih => exact ih hts.more_subset

theorem ElementBefore.more_subset (h : ElementBefore more ts) : more ⊆ continuations := by
  cases h with
  | column _ _ hts hus =>
    have hstarts : optionStarts ⊆ continuations := by decide
    exact List.append_subset.mpr ⟨hstarts, hus.more_subset hts.more_subset⟩
  | key h | constraint _ h => exact h.more_subset
  | index => exact List.nil_subset _

end Grammar

end Schemata
