import Schemata.Proofs.Reading

/-!
What can be said of every result of a reader, also of a mistake. Readers are followed through the
tokens they take: how many parentheses are open, which token is next, and that a mistake is at one
of the tokens taken or at the next one.
-/

namespace Schemata

open Reader

/-! ### Parentheses -/

/-- How many parentheses are open after a token; `none` if it closes one that was not opened, or is
a comma outside of all. -/
def Token.openAfter? (depth : Nat) : Token → Option Nat
  | .symbol .lparen => some (depth + 1)
  | .symbol .rparen => if depth = 0 then none else some (depth - 1)
  | .symbol .comma => if depth = 0 then none else some depth
  | _ => some depth

/-- How many parentheses are open after some tokens. -/
def openAfter? : Nat → List Token → Option Nat
  | depth, [] => some depth
  | depth, t :: ts => (t.openAfter? depth).bind fun d => openAfter? d ts

/-- Neither a parenthesis nor a comma. -/
def Token.isInner : Token → Bool
  | .symbol .lparen | .symbol .rparen | .symbol .comma => false
  | _ => true

theorem openAfter_append (depth : Nat) (ts us : List Token) :
    openAfter? depth (ts ++ us) = (openAfter? depth ts).bind fun d => openAfter? d us := by
  induction ts generalizing depth with
  | nil => rfl
  | cons t ts ih =>
    rw [List.cons_append, openAfter?, openAfter?, Option.bind_assoc]
    congr 1
    funext d
    exact ih d

theorem Token.openAfter_inner {t : Token} (h : t.isInner = true) (depth : Nat) :
    t.openAfter? depth = some depth := by
  cases t with
  | symbol s =>
    cases s with
    | lparen | rparen | comma => cases h
    | _ => rfl
  | _ => rfl

/-! ### Results of a reader -/

section Results

variable {α β : Type} {known : List Span} {depth depth' depth'' : Nat}

/-- The token in front, if there is one. -/
def nextToken (ls : List Lexeme) : Option Token :=
  ls.head?.map Lexeme.token

theorem nextToken_ne {t : Token} {ls : List Lexeme} (h : ∀ l ∈ ls, l.token ≠ t) :
    nextToken ls ≠ some t := by
  cases ls with
  | nil => nofun
  | cons l rest => exact fun heq => h l List.mem_cons_self (Option.some.inj heq)

/-- A result on `ls`, with `depth` parentheses open before it and `depth'` after it. What is read
has `N`, which may depend on the next token. A mistake is at a place that was known before, at a
token that is read until it is met, or at the one after them. -/
inductive Parsed (known : List Span) (depth depth' : Nat)
    (N : α → List Token → Option Token → Prop) (ls : List Lexeme) :
    Except Refusal (α × List Lexeme) → Prop
  | read {p rest : List Lexeme} {a : α} (hls : ls = p ++ rest)
    (hdepth : openAfter? depth (p.map Lexeme.token) = some depth')
    (h : N a (p.map Lexeme.token) (nextToken rest)) : Parsed known depth depth' N ls (.ok (a, rest))
  | refused {q rest : List Lexeme} {e : Refusal} (hls : ls = q ++ rest)
    (hdepth : (openAfter? depth (q.map Lexeme.token)).isSome = true)
    (hplace : (∃ place ∈ known ++ (q ++ rest.take 1).map Lexeme.span, e.place = some place) ∨
      rest = []) : Parsed known depth depth' N ls (.error e)

/-- Every result of the reader is one. -/
def Parses (known : List Span) (depth depth' : Nat) (r : Reader α)
    (N : α → List Token → Option Token → Prop) : Prop :=
  ∀ ls, Parsed known depth depth' N ls (r ls)

/-- The token in front of `next` and of what is read before it. -/
def ahead (ts : List Token) (next : Option Token) : Option Token :=
  ts.head?.or next

theorem nextToken_append (p rest : List Lexeme) :
    nextToken (p ++ rest) = ahead (p.map Lexeme.token) (nextToken rest) := by
  cases p <;> rfl

variable {N : β → List Token → Option Token → Prop} {L : α → List Token → Option Token → Prop}

/-- What is read after `p` has been read. -/
theorem Parsed.after {ls p rest : List Lexeme} {x : Except Refusal (β × List Lexeme)}
    {M : β → List Token → Option Token → Prop} (hls : ls = p ++ rest)
    (hdepth : openAfter? depth (p.map Lexeme.token) = some depth')
    (h : Parsed (known ++ p.map Lexeme.span) depth' depth'' M rest x)
    (hN : ∀ b (q : List Lexeme) (last : List Lexeme), rest = q ++ last →
      M b (q.map Lexeme.token) (nextToken last) →
      N b ((p ++ q).map Lexeme.token) (nextToken last)) :
    Parsed known depth depth'' N ls x := by
  cases h with
  | @read q last b hrest hq hM =>
    apply Parsed.read (p := p ++ q)
    · rw [hls, hrest, List.append_assoc]
    · rw [List.map_append, openAfter_append, hdepth]
      exact hq
    · exact hN b q last hrest hM
  | @refused q last e hrest hq hplace =>
    apply Parsed.refused (q := p ++ q)
    · rw [hls, hrest, List.append_assoc]
    · rw [List.map_append, openAfter_append, hdepth]
      exact hq
    · simpa only [List.append_assoc, List.map_append] using hplace

theorem Parsed.imp {ls : List Lexeme} {x : Except Refusal (β × List Lexeme)}
    {M : β → List Token → Option Token → Prop} (h : Parsed known depth depth' M ls x)
    (hN : ∀ b (q last : List Lexeme), ls = q ++ last → M b (q.map Lexeme.token) (nextToken last) →
      N b (q.map Lexeme.token) (nextToken last)) : Parsed known depth depth' N ls x := by
  cases h with
  | read hls hdepth h => exact .read hls hdepth (hN _ _ _ hls h)
  | refused hls hdepth hplace => exact .refused hls hdepth hplace

namespace Parses

variable {r : Reader α} {f : α → Reader β}

theorem pure {a : α} (h : ∀ next, L a [] next) : Parses known depth depth (Pure.pure a) L :=
  fun ls => .read (p := []) rfl rfl (h (nextToken ls))

theorem bind (hr : Parses known depth depth' r L)
    (hf : ∀ a (p : List Lexeme), Parses (known ++ p.map Lexeme.span) depth' depth'' (f a)
      fun b q next =>
        L a (p.map Lexeme.token) (ahead q next) → N b (p.map Lexeme.token ++ q) next) :
    Parses known depth depth'' (r >>= f) N := by
  intro ls
  change Parsed known depth depth'' N ls (r ls >>= fun p => f p.1 p.2)
  have hfirst := hr ls
  generalize r ls = x at hfirst
  cases hfirst with
  | @read p rest a hls hdepth hL =>
    apply (hf a p rest).after hls hdepth
    intro b q last hrest hN
    rw [List.map_append]
    apply hN
    rw [← nextToken_append, ← hrest]
    exact hL
  | refused hls hdepth hplace => exact .refused hls hdepth hplace

theorem pure_bind {a : α} (h : Parses known depth depth' (f a) N) :
    Parses known depth depth' (Pure.pure a >>= f) N :=
  h

theorem imp {M : α → List Token → Option Token → Prop} (h : Parses known depth depth' r L)
    (hLM : ∀ a ts next, L a ts next → M a ts next) : Parses known depth depth' r M :=
  fun ls => (h ls).imp fun a _ _ _ hL => hLM a _ _ hL

theorem ite {c : Prop} [Decidable c] {s : Reader α} (hr : c → Parses known depth depth' r L)
    (hs : ¬ c → Parses known depth depth' s L) :
    Parses known depth depth' (if c then r else s) L := by
  by_cases hc : c
  · rw [if_pos hc]
    exact hr hc
  · rw [if_neg hc]
    exact hs hc

theorem refuse {fault : Fault} {place : Span} (h : place ∈ known) :
    Parses known depth depth' (Reader.refuse fault place) L := by
  intro ls
  apply Parsed.refused (q := []) rfl rfl
  exact .inl ⟨place, List.mem_append_left _ h, rfl⟩

theorem refuseLexeme {what : String} {l : Lexeme} (h : l.span ∈ known) :
    Parses known depth depth' (Reader.refuseLexeme what l) L :=
  refuse h

theorem map {g : α → β} (h : Parses known depth depth' r L)
    (hN : ∀ a ts next, L a ts next → N (g a) ts next) :
    Parses known depth depth' (g <$> r) N := by
  intro ls
  change Parsed known depth depth' N ls (r ls >>= fun p => Except.ok (g p.1, p.2))
  have hread := h ls
  generalize r ls = x at hread
  cases hread with
  | read hls hdepth hL => exact .read hls hdepth (hN _ _ _ hL)
  | refused hls hdepth hplace => exact .refused hls hdepth hplace

end Parses

/-- The reader takes one token, which has `T` with the result, or finds a mistake there. -/
def TakesOne (depth depth' : Nat) (r : Reader α) (T : α → Lexeme → Prop) : Prop :=
  ∀ ls, (∃ l rest a, ls = l :: rest ∧ l.token.openAfter? depth = some depth' ∧
      r ls = .ok (a, rest) ∧ T a l) ∨
    ∃ e, r ls = .error e ∧ (ls = [] ∨ ∃ l rest, ls = l :: rest ∧ e.place = some l.span)

variable {r : Reader α} {f : α → Reader β} {T : α → Lexeme → Prop}

theorem TakesOne.parsed_error {ls : List Lexeme} {e : Refusal}
    (h : ls = [] ∨ ∃ l rest, ls = l :: rest ∧ e.place = some l.span) :
    Parsed known depth depth' N ls (.error e) := by
  apply Parsed.refused (q := []) rfl rfl
  rcases h with rfl | ⟨l, rest, rfl, he⟩
  · exact .inr rfl
  · exact .inl ⟨l.span, by simp, he⟩

theorem Parses.step (h : TakesOne depth depth' r T)
    (hf : ∀ a l, T a l → Parses (known ++ [l.span]) depth' depth'' (f a)
      fun b q next => N b (l.token :: q) next) : Parses known depth depth'' (r >>= f) N := by
  intro ls
  change Parsed known depth depth'' N ls (r ls >>= fun p => f p.1 p.2)
  rcases h ls with ⟨l, rest, a, rfl, hdepth, hr, hT⟩ | ⟨e, hr, he⟩
  · rw [hr]
    apply (hf a l hT rest).after (p := [l]) rfl
    · simpa [openAfter?] using hdepth
    · intro b q last _ hN
      exact hN
  · rw [hr]
    exact TakesOne.parsed_error he

section Primitives

theorem one_expect {t : Token} (ht : t.openAfter? depth = some depth') :
    TakesOne depth depth' (expect t) fun _ l => l.token = t := by
  intro ls
  cases ls with
  | nil => exact .inr ⟨_, rfl, .inl rfl⟩
  | cons l rest =>
    by_cases hl : l.token = t
    · left
      refine ⟨l, rest, l, rfl, hl ▸ ht, ?_, hl⟩
      apply (Reads.bind_eq rfl).trans
      rw [if_pos hl]
      rfl
    · right
      refine ⟨⟨.unexpectedToken t.description l.token.found, some l.span⟩, ?_,
        .inr ⟨l, rest, rfl, rfl⟩⟩
      apply (Reads.bind_eq rfl).trans
      rw [if_neg hl]
      rfl

theorem TakesOne.map {g : α → β} (h : TakesOne depth depth' r T) :
    TakesOne depth depth' (g <$> r) fun b l => ∃ a, b = g a ∧ T a l := by
  intro ls
  rcases h ls with ⟨l, rest, a, rfl, hdepth, hr, hT⟩ | ⟨e, hr, he⟩
  · left
    refine ⟨l, rest, g a, rfl, hdepth, ?_, a, rfl, hT⟩
    change (r (l :: rest) >>= fun p => Except.ok (g p.1, p.2)) = _
    rw [hr]
    rfl
  · right
    refine ⟨e, ?_, he⟩
    change (r ls >>= fun p => Except.ok (g p.1, p.2)) = _
    rw [hr]
    rfl

theorem TakesOne.imp {T' : α → Lexeme → Prop} (h : TakesOne depth depth' r T)
    (hT : ∀ a l, T a l → T' a l) : TakesOne depth depth' r T' := by
  intro ls
  rcases h ls with ⟨l, rest, a, hls, hdepth, hr, ha⟩ | he
  · exact .inl ⟨l, rest, a, hls, hdepth, hr, hT a l ha⟩
  · exact .inr he

theorem one_symbol {s : Symbol} (hs : (Token.symbol s).openAfter? depth = some depth') :
    TakesOne depth depth' (expectSymbol s) fun _ l => l.token = .symbol s := by
  apply (one_expect hs).map.imp
  rintro _ l ⟨-, -, h⟩
  exact h

theorem one_keyword {k : Keyword} :
    TakesOne depth depth (expectKeyword k) fun _ l => l.token = .keyword k := by
  apply (one_expect rfl).map.imp
  rintro _ l ⟨-, -, h⟩
  exact h

/-- A token of one kind, and a mistake at any other. -/
theorem one_next {what : String} {g : Lexeme → Reader α}
    (hread : ∀ l, (∃ a, (∀ rest, g l rest = .ok (a, rest)) ∧ T a l ∧ l.token.isInner = true) ∨
      ∃ e, (∀ rest, g l rest = .error e) ∧ e.place = some l.span) :
    TakesOne depth depth (next what >>= g) T := by
  intro ls
  cases ls with
  | nil => exact .inr ⟨_, rfl, .inl rfl⟩
  | cons l rest =>
    rcases hread l with ⟨a, ha, hT, hinner⟩ | ⟨e, he, hplace⟩
    · exact .inl ⟨l, rest, a, rfl, Token.openAfter_inner hinner depth,
        (Reads.bind_eq rfl).trans (ha rest), hT⟩
    · exact .inr ⟨e, (Reads.bind_eq rfl).trans (he rest), .inr ⟨l, rest, rfl, hplace⟩⟩

theorem isInner_of_nameWord {t : Token} {word : String} (h : t.nameWord? = some word) :
    t.isInner = true := by
  cases t with
  | symbol s => cases h
  | _ => rfl

theorem one_name {what : String} : TakesOne depth depth (expectName what) fun p l =>
    l.token.nameWord? = some p.1 ∧ p.2 = l.span := by
  apply one_next
  intro l
  cases hword : l.token.nameWord? with
  | none => exact .inr ⟨_, fun _ => rfl, rfl⟩
  | some word => exact .inl ⟨(word, l.span), fun _ => rfl, ⟨rfl, rfl⟩, isInner_of_nameWord hword⟩

theorem one_string : TakesOne depth depth expectString fun text l => l.token = .string text := by
  apply one_next
  intro l
  cases hl : l.token with
  | string text => exact .inl ⟨text, fun _ => rfl, rfl, rfl⟩
  | _ => exact .inr ⟨_, fun _ => rfl, rfl⟩

theorem one_count : TakesOne depth depth expectCount fun n l =>
    ∃ digits, l.token = .integer digits ∧ n = digitsValue digits ∧ n < 0x100000000 := by
  apply one_next
  intro l
  cases hl : l.token with
  | integer digits =>
    by_cases hn : digitsValue digits < 0x100000000
    · left
      refine ⟨digitsValue digits, ?_, ⟨digits, rfl, rfl, hn⟩, rfl⟩
      intro rest
      simp only [if_pos hn]
      rfl
    · right
      refine ⟨⟨.invalidInteger digits, some l.span⟩, ?_, rfl⟩
      intro rest
      simp only [if_neg hn]
      rfl
  | _ => exact .inr ⟨_, fun _ => rfl, rfl⟩

/-- Any token, on which the rest depends, but for symbols, which are refused. -/
theorem Parses.next {what : String} {g : Lexeme → Reader β}
    (hother : ∀ l, Parses (known ++ [l.span]) depth depth' (g l)
      fun b q next => N b (l.token :: q) next)
    (hsymbol : ∀ l s, l.token = .symbol s →
      ∃ e, (∀ rest, g l rest = .error e) ∧ e.place = some l.span) :
    Parses known depth depth' (Reader.next what >>= g) N := by
  have hplain : ∀ l : Lexeme, (∀ s, l.token ≠ .symbol s) → l.token.isInner = true := by
    intro l hl
    cases ht : l.token with
    | symbol s => exact absurd ht (hl s)
    | _ => rfl
  intro ls
  cases ls with
  | nil => exact TakesOne.parsed_error (.inl rfl)
  | cons l rest =>
    change Parsed known depth depth' N (l :: rest) (g l rest)
    by_cases hl : ∃ s, l.token = .symbol s
    · obtain ⟨s, hs⟩ := hl
      obtain ⟨e, he, hplace⟩ := hsymbol l s hs
      rw [he rest]
      exact TakesOne.parsed_error (.inr ⟨l, rest, rfl, hplace⟩)
    · have hinner := hplain l (not_exists.mp hl)
      apply (hother l rest).after (p := [l]) rfl
      · simp [openAfter?, Token.openAfter_inner hinner]
      · intro b q last _ hN
        exact hN

theorem Parses.peek {g : Option Token → Reader β}
    (h : ∀ o, Parses known depth depth' (g o) fun b q next => ahead q next = o → N b q next) :
    Parses known depth depth' (peek? >>= g) N := by
  intro ls
  change Parsed known depth depth' N ls (g (nextToken ls) ls)
  apply (h (nextToken ls) ls).imp
  intro b q last hls hN
  apply hN
  rw [← nextToken_append, ← hls]

theorem Parses.isAt {t : Token} {g : Bool → Reader β}
    (hyes : Parses known depth depth' (g true) fun b q next => ahead q next = some t → N b q next)
    (hno : Parses known depth depth' (g false) fun b q next => ahead q next ≠ some t → N b q next) :
    Parses known depth depth' (Reader.isAt t >>= g) N := by
  intro ls
  change Parsed known depth depth' N ls (g (decide (nextToken ls = some t)) ls)
  by_cases h : nextToken ls = some t
  · rw [decide_eq_true h]
    apply (hyes ls).imp
    intro b q last hls hN
    apply hN
    rw [← nextToken_append, ← hls, h]
  · rw [decide_eq_false h]
    apply (hno ls).imp
    intro b q last hls hN
    apply hN
    rw [← nextToken_append, ← hls]
    exact h

theorem Parses.eat {t : Token} {g : Bool → Reader β} (ht : t.openAfter? depth = some depth)
    (hyes : ∀ place, Parses (known ++ [place]) depth depth' (g true)
      fun b q next => N b (t :: q) next)
    (hno : Parses known depth depth' (g false) fun b q next => ahead q next ≠ some t → N b q next) :
    Parses known depth depth' (Reader.eat t >>= g) N := by
  intro ls
  by_cases h : nextToken ls = some t
  · cases ls with
    | nil => cases h
    | cons l rest =>
      have hl : l.token = t := Option.some.inj h
      have heat : Reader.eat t (l :: rest) = .ok (true, rest) := by rw [Reader.eat, if_pos hl]
      rw [Reads.bind_eq heat]
      apply (hyes l.span rest).after (p := [l]) rfl
      · simp [openAfter?, hl, ht]
      · intro b q last _ hN
        simpa [hl] using hN
  · have heat : Reader.eat t ls = .ok (false, ls) := by
      cases ls with
      | nil => rfl
      | cons l rest =>
        have hl : l.token ≠ t := fun hl => h (congrArg some hl)
        rw [Reader.eat, if_neg hl]
    rw [Reads.bind_eq heat]
    apply (hno ls).imp
    intro b q last hls hN
    apply hN
    rw [← nextToken_append, ← hls]
    exact h

theorem parses_eat {t : Token} (ht : t.openAfter? depth = some depth) :
    Parses known depth depth (eat t) fun b ts next =>
      b = true ∧ ts = [t] ∨ b = false ∧ ts = [] ∧ next ≠ some t := by
  rw [← bind_pure (eat t)]
  apply Parses.eat ht
  · intro place
    exact .pure fun _ => .inl ⟨rfl, rfl⟩
  · exact .pure fun _ hnext => .inr ⟨rfl, rfl, hnext⟩

theorem parses_isAt {t : Token} : Parses known depth depth (isAt t) fun _ ts _ => ts = [] :=
  fun _ => .read (p := []) rfl rfl rfl

theorem parses_refuseHere {what : String} :
    Parses known depth depth' (refuseHere what) L := by
  intro ls
  cases ls with
  | nil => exact TakesOne.parsed_error (.inl rfl)
  | cons l rest => exact TakesOne.parsed_error (.inr ⟨l, rest, rfl, rfl⟩)

end Primitives

end Results

/-! ### Readers that recover -/

section Recovering

variable {α β : Type} {known : List Span} {depth depth' depth'' : Nat}
  {N : β → List Token → Option Token → Prop} {L : α → List Token → Option Token → Prop}

/-- Without hints, the only constructs in which a mistake is passed over, nothing is recorded. -/
def Recovering.Parses (known : List Span) (depth depth' : Nat) (r : Recovering α)
    (N : α → List Token → Option Token → Prop) : Prop :=
  ∀ ls, (∀ l ∈ ls, l.token ≠ .keyword .dbms) →
    (r ls).recorded = [] ∧ Parsed known depth depth' N ls (r ls).result

namespace Recovering.Parses

variable {r : Recovering α} {f : α → Recovering β}

theorem pure {a : α} (h : ∀ next, L a [] next) :
    Recovering.Parses known depth depth (Pure.pure a) L :=
  fun ls _ => ⟨rfl, .read (p := []) rfl rfl (h (nextToken ls))⟩

theorem imp {M : α → List Token → Option Token → Prop}
    (h : Recovering.Parses known depth depth' r L) (hLM : ∀ a ts next, L a ts next → M a ts next) :
    Recovering.Parses known depth depth' r M := by
  intro ls hls
  obtain ⟨hrecorded, hparsed⟩ := h ls hls
  exact ⟨hrecorded, hparsed.imp fun a _ _ _ hL => hLM a _ _ hL⟩

theorem lift {r : Reader α} (h : Schemata.Parses known depth depth' r L) :
    Recovering.Parses known depth depth' (liftM r) L :=
  fun ls _ => ⟨rfl, h ls⟩

theorem bind (hr : Recovering.Parses known depth depth' r L)
    (hf : ∀ a (p : List Lexeme),
      Recovering.Parses (known ++ p.map Lexeme.span) depth' depth'' (f a) fun b q next =>
        L a (p.map Lexeme.token) (ahead q next) → N b (p.map Lexeme.token ++ q) next) :
    Recovering.Parses known depth depth'' (r >>= f) N := by
  intro ls hls
  obtain ⟨hrecorded, hfirst⟩ := hr ls hls
  simp only [Bind.bind]
  generalize r ls = o at hrecorded hfirst
  obtain ⟨recorded, x⟩ := o
  dsimp only at hrecorded hfirst
  subst hrecorded
  cases hfirst with
  | @read p rest a hsplit hdepth hL =>
    have hrest : ∀ l ∈ rest, l.token ≠ .keyword .dbms := by
      intro l hl
      apply hls
      rw [hsplit]
      exact List.mem_append_right _ hl
    obtain ⟨hlater, hparsed⟩ := hf a p rest hrest
    refine ⟨hlater, hparsed.after hsplit hdepth ?_⟩
    intro b q last hsplit' hN
    rw [List.map_append]
    apply hN
    rw [← nextToken_append, ← hsplit']
    exact hL
  | refused hsplit hdepth hplace => exact ⟨rfl, .refused hsplit hdepth hplace⟩

theorem step {r : Reader α} {T : α → Lexeme → Prop} (h : TakesOne depth depth' r T)
    (hf : ∀ a l, T a l → Recovering.Parses (known ++ [l.span]) depth' depth'' (f a)
      fun b q next => N b (l.token :: q) next) :
    Recovering.Parses known depth depth'' (liftM r >>= f) N := by
  intro ls hls
  rcases h ls with ⟨l, rest, a, rfl, hdepth, hr, hT⟩ | ⟨e, hr, he⟩
  · have hread : (liftM r : Recovering α) (l :: rest) = ⟨[], .ok (a, rest)⟩ :=
      congrArg (Outcome.mk []) hr
    rw [Recovers.bind_eq hread]
    obtain ⟨hrecorded, hparsed⟩ := hf a l hT rest fun l' hl' => hls l' (List.mem_cons_of_mem _ hl')
    refine ⟨hrecorded, hparsed.after (p := [l]) rfl ?_ fun _ _ _ _ hN => hN⟩
    simpa [openAfter?] using hdepth
  · have hread : (liftM r : Recovering α) ls = ⟨[], .error e⟩ := congrArg (Outcome.mk []) hr
    simp only [Bind.bind, hread]
    exact ⟨trivial, TakesOne.parsed_error he⟩

theorem peek {g : Option Token → Recovering β}
    (h : ∀ o, o ≠ some (.keyword .dbms) → Recovering.Parses known depth depth' (g o)
      fun b q next => ahead q next = o → N b q next) :
    Recovering.Parses known depth depth' (liftM peek? >>= g) N := by
  intro ls hls
  have hread : (liftM peek? : Recovering (Option Token)) ls = ⟨[], .ok (nextToken ls, ls)⟩ := rfl
  rw [Recovers.bind_eq hread]
  obtain ⟨hrecorded, hparsed⟩ := h (nextToken ls) (nextToken_ne hls) ls hls
  refine ⟨hrecorded, hparsed.imp ?_⟩
  intro b q last hsplit hN
  apply hN
  rw [← nextToken_append, ← hsplit]

theorem noHints {g : Bool → Recovering β} (h : Recovering.Parses known depth depth' (g false) N) :
    Recovering.Parses known depth depth' (liftM (isAt (.keyword .dbms)) >>= g) N := by
  intro ls hls
  have hread : (liftM (isAt (.keyword .dbms)) : Recovering Bool) ls = ⟨[], .ok (false, ls)⟩ := by
    apply congrArg (Outcome.mk [])
    apply (isAt_eq ls).trans
    exact congrArg (fun b => Except.ok (b, ls)) (decide_eq_false (nextToken_ne hls))
  rw [Recovers.bind_eq hread]
  exact h ls hls

end Recovering.Parses

end Recovering

end Schemata
