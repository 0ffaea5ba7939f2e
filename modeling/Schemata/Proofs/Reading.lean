import Schemata.Proofs.Repetition
import Schemata.Proofs.TokenForm

/-! What a reader does with the tokens of a construct. A rule for each step of a reader says which
tokens it takes; what may follow them is kept as a list, since a reader may look one token ahead. -/
namespace Schemata

open Grammar Reader

variable {α β : Type}

/-- Those one of which comes next, where `ts` stands before one of `follow`. -/
def upNext (ts follow : List Token) : List Token :=
  match ts with
  | [] => follow
  | t :: _ => [t]

theorem upNext_cons {t : Token} {us follow before : List Token} (h : t ∈ before) :
    upNext (t :: us) follow ⊆ before :=
  List.cons_subset.mpr ⟨h, List.nil_subset _⟩

theorem upNext_append (ts us follow : List Token) :
    upNext (ts ++ us) follow = upNext ts (upNext us follow) := by
  cases ts <;> rfl

theorem upNext_optional {t : Token} {lead follow : List Token} {tokens : α → List Token}
    {o : Option α} : upNext (optionalTokens (t :: lead) tokens o) follow ⊆ t :: follow := by
  cases o with
  | none => exact List.subset_cons_self _ _
  | some a => exact upNext_cons List.mem_cons_self

/-- The input goes on with one of `follow`, if it goes on at all. -/
def Next (follow : List Token) (rest : List Lexeme) : Prop :=
  ∀ l ∈ rest.head?, l.token ∈ follow

theorem Next.upNext {ls rest : List Lexeme} {follow : List Token} (h : Next follow rest) :
    Next (upNext (ls.map Lexeme.token) follow) (ls ++ rest) := by
  cases ls with
  | nil => exact h
  | cons l ls =>
    intro m hm
    cases hm
    exact List.mem_singleton.mpr rfl

theorem Next.own (rest : List Lexeme) : Next (rest.head?.map Lexeme.token).toList rest :=
  fun l hl => Option.mem_toList.mpr (Option.map_eq_some_iff.mpr ⟨l, hl, rfl⟩)

/-- Before one of `follow`, the reader takes exactly `ts` and gives a result with `P`. -/
def Reads (r : Reader α) (ts : List Token) (P : α → Prop) (follow : List Token) : Prop :=
  ∀ ls rest, ls.map Lexeme.token = ts → Next follow rest →
    ∃ a, r (ls ++ rest) = .ok (a, rest) ∧ P a

/-- Likewise, without a mistake on record. -/
def Recovers (r : Recovering α) (ts : List Token) (P : α → Prop) (follow : List Token) : Prop :=
  ∀ ls rest, ls.map Lexeme.token = ts → Next follow rest →
    ∃ a, r (ls ++ rest) = ⟨[], .ok (a, rest)⟩ ∧ P a

/-- The reader takes one token, whatever follows. -/
def Takes (r : Reader α) (t : Token) (P : α → Prop) : Prop :=
  ∀ l rest, l.token = t → ∃ a, r (l :: rest) = .ok (a, rest) ∧ P a

/-- The reader only looks at what stands there. -/
def Looks (r : Reader α) (ts : List Token) (P : α → Prop) (follow : List Token) : Prop :=
  ∀ ls rest, ls.map Lexeme.token = ts → Next follow rest →
    ∃ a, r (ls ++ rest) = .ok (a, ls ++ rest) ∧ P a

namespace Reads

variable {r : Reader α} {f : α → Reader β} {ts us follow before : List Token} {P : α → Prop}
  {Q : β → Prop} {t : Token}

theorem weaken (h : Reads r ts P before) (hf : follow ⊆ before) : Reads r ts P follow :=
  fun ls rest hls hnext => h ls rest hls fun l hl => hf (hnext l hl)

theorem pure {a : α} (h : P a) : Reads (Pure.pure a) [] P follow := by
  intro ls rest hls _
  cases List.map_eq_nil_iff.mp hls
  exact ⟨a, rfl, h⟩

theorem bind_eq {ls rest : List Lexeme} {a : α} (h : r ls = .ok (a, rest)) :
    (r >>= f) ls = f a rest := by
  change (r ls >>= fun p => f p.1 p.2) = _
  rw [h]
  rfl

theorem bind (hr : Reads r ts P before) (hs : upNext us follow ⊆ before)
    (hf : ∀ a, P a → Reads (f a) us Q follow) : Reads (r >>= f) (ts ++ us) Q follow := by
  intro ls rest hls hnext
  obtain ⟨first, last, rfl, rfl, rfl⟩ := List.map_eq_append_iff.mp hls
  obtain ⟨a, ha, hP⟩ := hr first (last ++ rest) rfl fun l hl => hs (hnext.upNext l hl)
  obtain ⟨b, hb, hQ⟩ := hf a hP last rest rfl hnext
  exact ⟨b, by rw [List.append_assoc, bind_eq ha, hb], hQ⟩

/-- A step after which nothing more is taken. -/
theorem last (hr : Reads r ts P follow) (hf : ∀ a, P a → Reads (f a) [] Q follow) :
    Reads (r >>= f) ts Q follow :=
  List.append_nil ts ▸ hr.bind (List.Subset.refl _) hf

theorem pure_bind {a : α} (hf : Reads (f a) us Q follow) :
    Reads (Pure.pure a >>= f) us Q follow :=
  hf

theorem map {g : α → β} (hr : Reads r ts P follow) (hg : ∀ a, P a → Q (g a)) :
    Reads (g <$> r) ts Q follow := by
  intro ls rest hls hnext
  obtain ⟨a, ha, hP⟩ := hr ls rest hls hnext
  refine ⟨g a, ?_, hg a hP⟩
  change (r (ls ++ rest) >>= fun p => Except.ok (g p.1, p.2)) = _
  rw [ha]
  rfl

theorem of_takes (h : Takes r t P) : Reads r [t] P follow := by
  intro ls rest hls _
  obtain ⟨l, _, rfl, hl, hnil⟩ := List.map_eq_cons_iff.mp hls
  cases List.map_eq_nil_iff.mp hnil
  exact h l rest hl

theorem step (h : Takes r t P) (hf : ∀ a, P a → Reads (f a) us Q follow) :
    Reads (r >>= f) (t :: us) Q follow :=
  (of_takes h).bind (List.Subset.refl _) hf

theorem look (h : Looks r us P follow) (hf : ∀ a, P a → Reads (f a) us Q follow) :
    Reads (r >>= f) us Q follow := by
  intro ls rest hls hnext
  obtain ⟨a, ha, hP⟩ := h ls rest hls hnext
  obtain ⟨b, hb, hQ⟩ := hf a hP ls rest hls hnext
  exact ⟨b, by rw [bind_eq ha, hb], hQ⟩

end Reads

namespace Recovers

variable {r : Recovering α} {f : α → Recovering β} {ts us follow before : List Token}
  {P : α → Prop} {Q : β → Prop} {t : Token}

theorem pure {a : α} (h : P a) : Recovers (Pure.pure a) [] P follow := by
  intro ls rest hls _
  cases List.map_eq_nil_iff.mp hls
  exact ⟨a, rfl, h⟩

theorem bind_eq {ls rest : List Lexeme} {a : α} (h : r ls = ⟨[], .ok (a, rest)⟩) :
    (r >>= f) ls = f a rest := by
  simp only [Bind.bind, h, List.nil_append]

theorem bind (hr : Recovers r ts P before) (hs : upNext us follow ⊆ before)
    (hf : ∀ a, P a → Recovers (f a) us Q follow) : Recovers (r >>= f) (ts ++ us) Q follow := by
  intro ls rest hls hnext
  obtain ⟨first, last, rfl, rfl, rfl⟩ := List.map_eq_append_iff.mp hls
  obtain ⟨a, ha, hP⟩ := hr first (last ++ rest) rfl fun l hl => hs (hnext.upNext l hl)
  obtain ⟨b, hb, hQ⟩ := hf a hP last rest rfl hnext
  exact ⟨b, by rw [List.append_assoc, bind_eq ha, hb], hQ⟩

theorem last (hr : Recovers r ts P follow) (hf : ∀ a, P a → Recovers (f a) [] Q follow) :
    Recovers (r >>= f) ts Q follow :=
  List.append_nil ts ▸ hr.bind (List.Subset.refl _) hf

theorem noting (hr : Recovers r ts P follow) :
    Recovers r.noting ts (fun p => P p.1 ∧ p.2 = true) follow := by
  intro ls rest hls hnext
  obtain ⟨a, ha, hP⟩ := hr ls rest hls hnext
  exact ⟨(a, true), by rw [Recovering.noting, ha]; rfl, hP, rfl⟩

section Lifted

variable {r : Reader α}

theorem lift (h : Reads r ts P follow) : Recovers (liftM r) ts P follow := by
  intro ls rest hls hnext
  obtain ⟨a, ha, hP⟩ := h ls rest hls hnext
  exact ⟨a, congrArg (Outcome.mk []) ha, hP⟩

theorem step (h : Takes r t P) (hf : ∀ a, P a → Recovers (f a) us Q follow) :
    Recovers (liftM r >>= f) (t :: us) Q follow :=
  (lift (.of_takes h)).bind (List.Subset.refl _) hf

theorem look (h : Looks r us P follow) (hf : ∀ a, P a → Recovers (f a) us Q follow) :
    Recovers (liftM r >>= f) us Q follow := by
  intro ls rest hls hnext
  obtain ⟨a, ha, hP⟩ := h ls rest hls hnext
  obtain ⟨b, hb, hQ⟩ := hf a hP ls rest hls hnext
  exact ⟨b, by rw [bind_eq (congrArg (Outcome.mk []) ha), hb], hQ⟩

end Lifted

end Recovers

section Primitives

variable {t : Token} {ts follow : List Token}

theorem takes_next (what : String) : Takes (next what) t (·.token = t) :=
  fun l _ hl => ⟨l, rfl, hl⟩

theorem takes_expect : Takes (expect t) t fun _ => True := by
  intro l rest hl
  refine ⟨l, (Reads.bind_eq rfl).trans ?_, trivial⟩
  rw [if_pos hl]
  rfl

theorem Takes.discard {r : Reader α} {P : α → Prop} (h : Takes r t P) :
    Takes (Functor.discard r) t fun _ => True := by
  intro l rest hl
  obtain ⟨a, ha, -⟩ := h l rest hl
  refine ⟨(), ?_, trivial⟩
  change (r (l :: rest) >>= fun p => Except.ok ((), p.2)) = _
  rw [ha]
  rfl

theorem Looks.discard {r : Reader α} {P : α → Prop} (h : Looks r ts P follow) :
    Looks (Functor.discard r) ts (fun _ => True) follow := by
  intro ls rest hls hnext
  obtain ⟨a, ha, -⟩ := h ls rest hls hnext
  refine ⟨(), ?_, trivial⟩
  change (r (ls ++ rest) >>= fun p => Except.ok ((), p.2)) = _
  rw [ha]
  rfl

theorem takes_keyword {k : Keyword} : Takes (expectKeyword k) (.keyword k) fun _ => True :=
  takes_expect.discard

theorem takes_symbol {s : Symbol} : Takes (expectSymbol s) (.symbol s) fun _ => True :=
  takes_expect.discard

theorem takes_nameWord {n : String} (ht : t.nameWord? = some n) (what : String) :
    Takes (expectName what) t (∃ place, · = (n, place)) := by
  intro l rest hl
  refine ⟨(n, l.span), (Reads.bind_eq rfl).trans ?_, l.span, rfl⟩
  rw [hl, ht]
  rfl

theorem nameWord_nameToken (n : String) : (nameToken n).nameWord? = some n := by
  unfold nameToken
  split <;> rfl

theorem takes_name {n : String} (what : String) :
    Takes (expectName what) (nameToken n) (∃ place, · = (n, place)) :=
  takes_nameWord (nameWord_nameToken n) what

theorem takes_string {v : String} : Takes expectString (.string v) (· = v) := by
  intro l rest hl
  refine ⟨v, (Reads.bind_eq rfl).trans ?_, rfl⟩
  rw [hl]
  rfl

theorem takes_eat : Takes (eat t) t (· = true) := by
  intro l rest hl
  exact ⟨true, by rw [eat, if_pos hl], rfl⟩

theorem looks_eat (h : t ∉ upNext ts follow) : Looks (eat t) ts (· = false) follow := by
  intro ls rest hls hnext
  refine ⟨false, ?_, rfl⟩
  have hahead : Next (upNext (ls.map Lexeme.token) follow) (ls ++ rest) := hnext.upNext
  rw [hls] at hahead
  cases hl : ls ++ rest with
  | nil => rfl
  | cons l _ =>
    rw [hl] at hahead
    have hne : l.token ≠ t := fun heq => h (heq ▸ hahead l rfl)
    rw [eat, if_neg hne]

theorem looks_peek : Looks peek? (t :: ts) (· = some t) follow := by
  intro ls rest hls _
  obtain ⟨l, last, rfl, rfl, -⟩ := List.map_eq_cons_iff.mp hls
  exact ⟨some l.token, rfl, rfl⟩

/-- Where nothing is to be taken, only what follows is seen. -/
theorem looks_peek_nil : Looks peek? [] (fun o => ∀ t ∈ o, t ∈ follow) follow := by
  intro ls rest hls hnext
  cases List.map_eq_nil_iff.mp hls
  refine ⟨rest.head?.map Lexeme.token, rfl, fun t ht => ?_⟩
  obtain ⟨l, hl, rfl⟩ := Option.map_eq_some_iff.mp ht
  exact hnext l hl

theorem isAt_eq (ls : List Lexeme) :
    isAt t ls = .ok (decide (ls.head?.map Lexeme.token = some t), ls) := rfl

theorem looks_isAt : Looks (isAt t) (t :: ts) (· = true) follow := by
  intro ls rest hls _
  obtain ⟨l, last, rfl, rfl, -⟩ := List.map_eq_cons_iff.mp hls
  exact ⟨_, isAt_eq _, by simp⟩

theorem looks_not_isAt (h : t ∉ upNext ts follow) : Looks (isAt t) ts (· = false) follow := by
  intro ls rest hls hnext
  refine ⟨_, isAt_eq _, decide_eq_false fun heq => h ?_⟩
  obtain ⟨l, hl, rfl⟩ := Option.map_eq_some_iff.mp heq
  subst hls
  exact hnext.upNext l hl

/-- A part that is there if its first token is. -/
theorem reads_optional {γ : Type} {r : Reader α} {k : Option α → Reader β} {us before : List Token}
    {Q : β → Prop} {tokens : γ → List Token} {value : γ → α} {o : Option γ}
    (h : ∀ x ∈ o, Reads r (tokens x) (· = value x) before) (hs : upNext us follow ⊆ before)
    (ht : t ∉ upNext us follow) (hk : Reads (k (o.map value)) us Q follow) :
    Reads (eat t >>= fun b => if b = true then (some <$> r) >>= k else pure none >>= k)
      (optionalTokens [t] tokens o ++ us) Q follow := by
  cases o with
  | none =>
    refine .look (looks_eat ht) ?_
    rintro _ rfl
    exact .pure_bind hk
  | some x =>
    have hr : Reads (some <$> r) (tokens x) (· = some (value x)) before :=
      (h x rfl).map fun _ h => congrArg some h
    rw [optionalTokens, List.append_assoc]
    refine .step takes_eat ?_
    rintro _ rfl
    refine hr.bind hs ?_
    rintro _ rfl
    exact hk

end Primitives

section Lists

variable {γ : Type} {xs : List γ} {tokens : γ → List Token} {value : γ → α}
  {starts follow : List Token}

/-- What comes next where each item starts with one of `starts`. -/
theorem upNext_flatMap (h : ∀ x ∈ xs, upNext (tokens x) [] ⊆ starts ∧ tokens x ≠ []) :
    upNext (xs.flatMap tokens) follow ⊆ starts ++ follow := by
  cases xs with
  | nil => exact List.subset_append_right _ _
  | cons x xs =>
    obtain ⟨hx, hne⟩ := h x List.mem_cons_self
    rw [List.flatMap_cons]
    cases hl : tokens x with
    | nil => exact absurd hl hne
    | cons t ts =>
      rw [hl] at hx
      exact fun u hu => List.mem_append_left _ (hx hu)

theorem upNext_separated {sep : Symbol} :
    upNext (xs.flatMap ([Token.symbol sep] ++ tokens ·)) follow ⊆ .symbol sep :: follow := by
  have hstart : ∀ x ∈ xs, upNext ([Token.symbol sep] ++ tokens x) [] ⊆ [.symbol sep] ∧
      [Token.symbol sep] ++ tokens x ≠ [] :=
    fun _ _ => ⟨List.Subset.refl _, List.cons_ne_nil _ _⟩
  exact upNext_flatMap hstart

theorem reads_many {item? : Reader (Option α)}
    (hstart : ∀ x ∈ xs, upNext (tokens x) [] ⊆ starts ∧ tokens x ≠ [])
    (hitem : ∀ x ∈ xs, Reads item? (tokens x) (· = some (value x)) (starts ++ follow))
    (hnone : Reads item? [] (· = none) follow) :
    Reads (many item?) (xs.flatMap tokens) (· = xs.map value) follow := by
  induction xs with
  | nil =>
    intro ls rest hls hnext
    obtain ⟨_, ha, rfl⟩ := hnone ls rest hls hnext
    refine ⟨[], ?_, rfl⟩
    rw [many, ha]
  | cons x xs ih =>
    intro ls rest hls hnext
    rw [List.flatMap_cons] at hls
    obtain ⟨first, last, rfl, hfirst, hlast⟩ := List.map_eq_append_iff.mp hls
    rw [List.forall_mem_cons] at hstart hitem
    have hahead : Next (starts ++ follow) (last ++ rest) := by
      intro m hm
      have hm := hnext.upNext m hm
      rw [hlast] at hm
      exact upNext_flatMap hstart.2 hm
    obtain ⟨_, ha, rfl⟩ := hitem.1 first (last ++ rest) hfirst hahead
    obtain ⟨_, has, rfl⟩ := ih hstart.2 hitem.2 last rest hlast hnext
    have hne : first ≠ [] := fun h => hstart.1.2 (by rw [← hfirst, h]; rfl)
    have hlength : (last ++ rest).length < (first ++ (last ++ rest)).length := by
      have hpos := List.length_pos_of_ne_nil hne
      simp only [List.length_append]
      omega
    refine ⟨_, ?_, rfl⟩
    rw [List.append_assoc, many, ha]
    simp only [if_pos hlength, has, List.map_cons]

theorem reads_moreItems {sep : Symbol} {item : Reader α} (hsep : .symbol sep ∉ follow)
    (h : ∀ x ∈ xs, Reads item (tokens x) (· = value x) (.symbol sep :: follow)) :
    Reads (moreItems sep item) (xs.flatMap ([Token.symbol sep] ++ tokens ·)) (· = xs.map value)
      follow := by
  rw [moreItems_eq_many]
  have hstart : ∀ x ∈ xs, upNext ([Token.symbol sep] ++ tokens x) [] ⊆ [.symbol sep] ∧
      [Token.symbol sep] ++ tokens x ≠ [] :=
    fun _ _ => ⟨List.Subset.refl _, List.cons_ne_nil _ _⟩
  refine reads_many hstart (fun x hx => ?_) ?_
  · refine .step takes_eat ?_
    rintro _ rfl
    exact (h x hx).map fun _ ha => congrArg some ha
  · refine .look (looks_eat hsep) ?_
    rintro _ rfl
    exact .pure rfl

theorem reads_sepBy1 {sep : Symbol} {item : Reader α} (hne : xs ≠ [])
    (hsep : .symbol sep ∉ follow)
    (h : ∀ x ∈ xs, Reads item (tokens x) (· = value x) (.symbol sep :: follow)) :
    Reads (sepBy1 sep item) (separated [.symbol sep] (xs.map tokens)) (· = xs.map value)
      follow := by
  cases xs with
  | nil => exact absurd rfl hne
  | cons x xs =>
    rw [List.forall_mem_cons] at h
    rw [List.map_cons, separated, List.flatMap_map]
    refine h.1.bind upNext_separated ?_
    rintro _ rfl
    refine (reads_moreItems hsep h.2).last ?_
    rintro _ rfl
    exact .pure rfl

theorem reads_columnList {columns : List String} (h : columns ≠ []) :
    Reads columnList ([Token.symbol .lparen] ++ (nameTokens columns ++ [Token.symbol .rparen]))
      (· = columns) follow := by
  have hname : ∀ n ∈ columns, Reads (Prod.fst <$> expectName "column name") [nameToken n] (· = n)
      [.symbol .comma, .symbol .rparen] := by
    intro n _
    refine (Reads.of_takes (takes_name "column name")).map ?_
    rintro _ ⟨place, rfl⟩
    rfl
  have hall := reads_sepBy1 h (by decide) hname
  rw [List.map_id'] at hall
  refine .step takes_symbol fun _ _ => hall.bind (List.Subset.refl _) ?_
  rintro _ rfl
  exact .step takes_symbol fun _ _ => .pure rfl

theorem foldl_snoc (acc l : List α) : l.foldl (fun acc x => acc ++ [x]) acc = acc ++ l := by
  induction l generalizing acc with
  | nil => simp
  | cons x l ih => simp [ih]

theorem separated_cons_cons (sep x y : List Token) (items : List (List Token)) :
    separated sep (x :: y :: items) = x ++ (sep ++ separated sep (y :: items)) := by
  simp [separated]

/-- Items that each add to what was gathered before. -/
theorem recovers_sepBy1 {σ : Type} {item : σ → Recovering σ} {add : σ → γ → σ} (hne : xs ≠ [])
    (hsep : .symbol .comma ∉ follow)
    (h : ∀ x ∈ xs, ∀ acc, Recovers (item acc) (tokens x) (· = add acc x)
      (.symbol .comma :: follow)) (acc : σ) :
    Recovers (Recovering.sepBy1 item acc) (commaTokens (xs.map tokens)) (· = xs.foldl add acc)
      follow := by
  have hgather : ∀ x xs, (∀ y ∈ x :: xs, ∀ acc, Recovers (item acc) (tokens y) (· = add acc y)
      (.symbol .comma :: follow)) → ∀ acc ls rest,
      ls.map Lexeme.token = commaTokens ((x :: xs).map tokens) → Next follow rest →
      Recovering.gather .comma item acc (ls ++ rest) = ([], (x :: xs).foldl add acc, rest) := by
    intro x xs
    induction xs generalizing x with
    | nil =>
      intro h acc ls rest hls hnext
      have hls : ls.map Lexeme.token = tokens x := by
        simpa [commaTokens, separated] using hls
      obtain ⟨_, ha, rfl⟩ := h x List.mem_cons_self acc ls rest hls
        fun l hl => List.mem_cons_of_mem _ (hnext l hl)
      rw [Recovering.gather, Recovering.itemOrSkip, ha]
      cases rest with
      | nil => rfl
      | cons l rest =>
        have hl : l.token ≠ .symbol .comma := fun hl => hsep (hl ▸ hnext l rfl)
        simp only [if_neg hl]
        rfl
    | cons y xs ih =>
      intro h acc ls rest hls hnext
      rw [commaTokens, List.map_cons, List.map_cons, separated_cons_cons] at hls
      obtain ⟨first, following, rfl, hfirst, hls⟩ := List.map_eq_append_iff.mp hls
      obtain ⟨comma, last, rfl, hcomma, hlast⟩ := List.map_eq_cons_iff.mp hls
      obtain ⟨_, ha, rfl⟩ := h x List.mem_cons_self acc first (comma :: (last ++ rest)) hfirst
        fun l hl => by cases hl; rw [hcomma]; exact List.mem_cons_self
      have hmore := ih y (fun z hz => h z (List.mem_cons_of_mem _ hz)) (add acc x) last rest hlast
        hnext
      have hlength : (last ++ rest).length < (first ++ comma :: (last ++ rest)).length := by
        simp only [List.length_append, List.length_cons]
        omega
      rw [List.append_assoc, List.cons_append, Recovering.gather, Recovering.itemOrSkip, ha]
      simp only [if_pos hcomma, if_pos hlength, hmore]
      rfl
  cases xs with
  | nil => exact absurd rfl hne
  | cons x xs =>
    intro ls rest hls hnext
    refine ⟨_, ?_, rfl⟩
    rw [Recovering.sepBy1, hgather x xs h acc ls rest hls hnext]

end Lists

section Clauses

variable {σ : Type} {clause? : σ → Recovering (Option σ)} {acc : σ}
  {ts us follow before : List Token} {P : σ → Prop}

open Grammar

/-- Tokens that are a clause, or none at all. -/
theorem recovers_clause (acc' : σ)
    (h : ts = [] ∧ acc' = acc ∨ ts ≠ [] ∧ Recovers (clause? acc) ts (· = some acc') before)
    (hs : upNext us follow ⊆ before) (hmore : Recovers (repeatClauses clause? acc') us P follow) :
    Recovers (repeatClauses clause? acc) (ts ++ us) P follow := by
  obtain ⟨rfl, rfl⟩ | ⟨hne, h⟩ := h
  · exact hmore
  · intro ls rest hls hnext
    obtain ⟨first, last, rfl, rfl, rfl⟩ := List.map_eq_append_iff.mp hls
    obtain ⟨_, ha, rfl⟩ := h first (last ++ rest) rfl fun l hl => hs (hnext.upNext l hl)
    obtain ⟨b, hb, hP⟩ := hmore last rest rfl hnext
    refine ⟨b, ?_, hP⟩
    have hpos := List.length_pos_of_ne_nil fun h => hne (List.map_eq_nil_iff.mpr h)
    have hlength : (last ++ rest).length < (first ++ (last ++ rest)).length := by
      simp only [List.length_append]
      omega
    rw [repeatClauses] at hb ⊢
    rw [List.append_assoc, repeatClauses.go, ha]
    simp only [if_pos hlength, hb, List.nil_append]

theorem recovers_noClause (h : Recovers (clause? acc) [] (· = none) follow) (hP : P acc) :
    Recovers (repeatClauses clause? acc) [] P follow := by
  intro ls rest hls hnext
  obtain ⟨_, ha, rfl⟩ := h ls rest hls hnext
  exact ⟨acc, by rw [repeatClauses, repeatClauses.go, ha], hP⟩

end Clauses

end Schemata
