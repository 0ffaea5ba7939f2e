import Schemata.Proofs.Repetition

/-! Reading does not look past the end of a statement. Before tokens that close all open parentheses
and end with a semicolon, a reader does the same whatever tokens come after them, and what it takes
has its parentheses in pairs. -/
namespace Schemata

open Grammar Reader

section Nesting

/-- Neither a parenthesis nor a semicolon. -/
def Token.isPlain : Token → Bool
  | .symbol .lparen | .symbol .rparen | .symbol .semicolon => false
  | _ => true

/-- Tokens that lead from `depth` open parentheses to a last semicolon outside of all. -/
inductive Closing : Nat → List Lexeme → Prop
  | last {l : Lexeme} (h : l.token = .symbol .semicolon) : Closing 0 [l]
  | opened {depth : Nat} {l : Lexeme} {ts : List Lexeme} (h : l.token = .symbol .lparen)
    (hts : Closing (depth + 1) ts) : Closing depth (l :: ts)
  | closed {depth : Nat} {l : Lexeme} {ts : List Lexeme} (h : l.token = .symbol .rparen)
    (hts : Closing depth ts) : Closing (depth + 1) (l :: ts)
  | other {depth : Nat} {l : Lexeme} {ts : List Lexeme} (hopen : l.token ≠ .symbol .lparen)
    (hclose : l.token ≠ .symbol .rparen) (hts : Closing depth ts) : Closing depth (l :: ts)

namespace Closing

variable {depth : Nat} {l : Lexeme} {ts : List Lexeme}

theorem ne_nil (h : Closing depth ts) : ts ≠ [] := by
  cases h <;> exact List.cons_ne_nil _ _

theorem tail (h : Closing depth (l :: ts)) : ts = [] ∨ ∃ d, Closing d ts := by
  cases h with
  | last => exact Or.inl rfl
  | opened _ h | closed _ h | other _ _ h => exact Or.inr ⟨_, h⟩

theorem tail_plain (h : Closing depth (l :: ts)) (hl : l.token.isPlain = true) :
    Closing depth ts := by
  cases h with
  | last h | opened h _ | closed h _ => simp [h, Token.isPlain] at hl
  | other _ _ h => exact h

theorem tail_lparen (h : Closing depth (l :: ts)) (hl : l.token = .symbol .lparen) :
    Closing (depth + 1) ts := by
  cases h with
  | opened _ h => exact h
  | last h | closed h _ | other h _ _ => simp_all

theorem tail_rparen (h : Closing (depth + 1) (l :: ts)) (hl : l.token = .symbol .rparen) :
    Closing depth ts := by
  cases h with
  | closed _ h => exact h
  | opened h _ | other _ h _ => simp_all

theorem tail_semicolon (h : Closing depth (l :: ts)) (hl : l.token = .symbol .semicolon) :
    depth = 0 ∧ ts = [] ∨ Closing depth ts := by
  cases h with
  | last => exact Or.inl ⟨rfl, rfl⟩
  | other _ _ h => exact Or.inr h
  | opened h _ | closed h _ => simp_all

end Closing

/-- At most `n` such tokens. -/
def Within (n depth : Nat) (ts : List Lexeme) : Prop :=
  Closing depth ts ∧ ts.length ≤ n

namespace Within

variable {n m depth : Nat} {l : Lexeme} {ts : List Lexeme}

theorem mono (h : Within n depth ts) (hnm : n ≤ m) : Within m depth ts :=
  ⟨h.1, Nat.le_trans h.2 hnm⟩

theorem succ (h : Within n depth ts) : Within (n + 1) depth ts :=
  h.mono (Nat.le_succ n)

theorem length_tail (h : Within (n + 1) depth (l :: ts)) : ts.length ≤ n :=
  Nat.le_of_succ_le_succ h.2

theorem plain (h : Within (n + 1) depth (l :: ts)) (hl : l.token.isPlain = true) :
    Within n depth ts :=
  ⟨h.1.tail_plain hl, h.length_tail⟩

theorem lparen (h : Within (n + 1) depth (l :: ts)) (hl : l.token = .symbol .lparen) :
    Within n (depth + 1) ts :=
  ⟨h.1.tail_lparen hl, h.length_tail⟩

theorem length_tail_le (h : Within n depth (l :: ts)) : ts.length ≤ n :=
  Nat.le_of_succ_le h.2

theorem skip_plain (h : Within n depth (l :: ts)) (hl : l.token.isPlain = true) :
    Within n depth ts :=
  ⟨h.1.tail_plain hl, h.length_tail_le⟩

theorem skip_lparen (h : Within n depth (l :: ts)) (hl : l.token = .symbol .lparen) :
    Within n (depth + 1) ts :=
  ⟨h.1.tail_lparen hl, h.length_tail_le⟩

theorem skip_rparen (h : Within n (depth + 1) (l :: ts)) (hl : l.token = .symbol .rparen) :
    Within n depth ts :=
  ⟨h.1.tail_rparen hl, h.length_tail_le⟩

end Within

end Nesting

section Triples

variable {α β : Type} {P : List Lexeme → Prop} {Q : α → List Lexeme → Prop}
  {R : β → List Lexeme → Prop}

/-- Two results that are the same but for `more` tokens behind those that are left. A mistake has a
place, for it is not at the end of the input. -/
inductive SameBefore (more : List Lexeme) (Q : α → List Lexeme → Prop) :
    Except Refusal (α × List Lexeme) → Except Refusal (α × List Lexeme) → Prop
  | refused {e : Refusal} (h : e.place.isSome) : SameBefore more Q (.error e) (.error e)
  | read {a : α} {rest : List Lexeme} (h : Q a rest) :
    SameBefore more Q (.ok (a, rest)) (.ok (a, rest ++ more))

theorem SameBefore.imp {more : List Lexeme} {Q' : α → List Lexeme → Prop}
    {x x' : Except Refusal (α × List Lexeme)} (h : SameBefore more Q x x')
    (hQ : ∀ a ts, Q a ts → Q' a ts) : SameBefore more Q' x x' := by
  cases h with
  | refused h => exact .refused h
  | read h => exact .read (hQ _ _ h)

/-- From tokens with `P`, `r` does what `r'` does with more tokens behind, and what is left has
`Q`. -/
def Local (P : List Lexeme → Prop) (r r' : Reader α) (Q : α → List Lexeme → Prop) : Prop :=
  ∀ ⦃ts⦄, P ts → ∀ more, SameBefore more Q (r ts) (r' (ts ++ more))

/-- The parentheses that the reader takes come in pairs. -/
def Balanced (n : Nat) (r r' : Reader α) : Prop :=
  ∀ depth, Local (Within n depth) r r' fun _ => Within n depth

namespace Local

variable {r r' s s' : Reader α}

theorem pure {a : α} (h : ∀ ts, P ts → Q a ts) :
    Local P (Pure.pure a : Reader α) (Pure.pure a : Reader α) Q :=
  fun _ hts _ => .read (h _ hts)

theorem refuse {fault : Fault} {place : Span} :
    Local P (Reader.refuse fault place) (Reader.refuse fault place) Q :=
  fun _ _ _ => .refused rfl

theorem refuseLexeme {expected : String} {l : Lexeme} :
    Local P (Reader.refuseLexeme expected l) (Reader.refuseLexeme expected l) Q :=
  refuse

theorem bind {f f' : α → Reader β} (hr : Local P r r' Q) (hf : ∀ a, Local (Q a) (f a) (f' a) R) :
    Local P (r >>= f) (r' >>= f') R := by
  intro ts hts more
  change SameBefore more R (r ts >>= fun p => f p.1 p.2) (r' (ts ++ more) >>= fun p => f' p.1 p.2)
  have hsame := hr hts more
  generalize r ts = x at hsame
  generalize r' (ts ++ more) = x' at hsame
  cases hsame with
  | refused h => exact .refused h
  | read h => exact hf _ h more

theorem weaken {P' : List Lexeme → Prop} (h : Local P r r' Q) (hP : ∀ ts, P' ts → P ts) :
    Local P' r r' Q :=
  fun _ hts more => h (hP _ hts) more

theorem imp {Q' : α → List Lexeme → Prop} (h : Local P r r' Q) (hQ : ∀ a ts, Q a ts → Q' a ts) :
    Local P r r' Q' :=
  fun _ hts more => (h hts more).imp hQ

theorem map {f : α → β} (h : Local P r r' Q) (hQ : ∀ a ts, Q a ts → R (f a) ts) :
    Local P (f <$> r) (f <$> r') R := by
  rw [map_eq_pure_bind, map_eq_pure_bind]
  exact h.bind fun a => .pure fun ts hts => hQ a ts hts

theorem ite {b : Prop} [Decidable b] (hr : b → Local P r r' Q) (hs : ¬ b → Local P s s' Q) :
    Local P (if b then r else s) (if b then r' else s') Q := by
  split
  · exact hr ‹_›
  · exact hs ‹_›

/-- Both ways go on alike. -/
theorem ite_bind {b : Prop} [Decidable b] {k k' : α → Reader β} (hr : b → Local P r r' Q)
    (hs : ¬ b → Local P s s' Q) (hk : ∀ a, Local (Q a) (k a) (k' a) R) :
    Local P (if b then r >>= k else s >>= k) (if b then r' >>= k' else s' >>= k') R :=
  .ite (fun h => (hr h).bind hk) fun h => (hs h).bind hk

end Local

end Triples

section Tokens

variable {α : Type} {P : List Lexeme → Prop} {Q : α → List Lexeme → Prop} {n depth : Nat}

theorem local_peek (h : ∀ ts, P ts → ts ≠ []) : Local P peek? peek? fun _ => P := by
  intro ts hts more
  obtain ⟨l, rest, rfl⟩ := List.exists_cons_of_ne_nil (h ts hts)
  exact .read hts

theorem local_isAt {t : Token} (h : ∀ ts, P ts → ts ≠ []) :
    Local P (isAt t) (isAt t) fun _ => P :=
  (local_peek h).bind fun _ => .pure fun _ hts => hts

theorem local_next {expected : String} (h : ∀ ts, P ts → ts ≠ []) :
    Local P (next expected) (next expected) fun l rest => P (l :: rest) := by
  intro ts hts more
  obtain ⟨l, rest, rfl⟩ := List.exists_cons_of_ne_nil (h ts hts)
  exact .read hts

theorem local_refuseHere {expected : String} (h : ∀ ts, P ts → ts ≠ []) :
    Local P (refuseHere expected) (refuseHere expected) Q := by
  intro ts hts more
  obtain ⟨l, rest, rfl⟩ := List.exists_cons_of_ne_nil (h ts hts)
  exact .refused rfl

theorem Within.ne_nil {ts : List Lexeme} (h : Within n depth ts) : ts ≠ [] :=
  h.1.ne_nil

theorem balanced_peek : Balanced n peek? peek? :=
  fun _ => local_peek fun _ => Within.ne_nil

theorem balanced_isAt {t : Token} : Balanced n (isAt t) (isAt t) :=
  fun _ => local_isAt fun _ => Within.ne_nil

theorem within_next {expected : String} : Local (Within n depth) (next expected) (next expected)
    fun l rest => Within n depth (l :: rest) :=
  local_next fun _ => Within.ne_nil

theorem local_eat {t : Token} (hne : ∀ ts, P ts → ts ≠ []) {Q : Bool → List Lexeme → Prop}
    (hno : ∀ ts, P ts → Q false ts)
    (hyes : ∀ (l : Lexeme) (ts : List Lexeme), l.token = t → P (l :: ts) → Q true ts) :
    Local P (eat t) (eat t) Q := by
  intro ts hts more
  obtain ⟨l, rest, rfl⟩ := List.exists_cons_of_ne_nil (hne ts hts)
  by_cases hl : l.token = t
  · simp only [List.cons_append, eat, if_pos hl]
    exact .read (hyes l rest hl hts)
  · simp only [List.cons_append, eat, if_neg hl]
    exact .read (hno _ hts)

theorem balanced_eat {t : Token} (h : t.isPlain = true) : Balanced n (eat t) (eat t) :=
  fun _ => local_eat (fun _ => Within.ne_nil) (fun _ hts => hts)
    fun _ _ hl hts => hts.skip_plain (hl ▸ h)

theorem local_eat_lparen : Local (Within n depth) (eatSymbol .lparen) (eatSymbol .lparen)
    fun b => Within n (if b then depth + 1 else depth) :=
  local_eat (fun _ => Within.ne_nil) (fun _ hts => hts) fun _ _ hl hts => hts.skip_lparen hl

theorem local_expect {t : Token} {Q : List Lexeme → Prop} (hne : ∀ ts, P ts → ts ≠ [])
    (h : ∀ (l : Lexeme) (ts : List Lexeme), l.token = t → P (l :: ts) → Q ts) :
    Local P (expect t) (expect t) fun _ => Q :=
  (local_next hne).bind fun l =>
    .ite (fun hl => .pure fun ts hts => h l ts hl hts) fun _ => .refuseLexeme

theorem local_symbol {s : Symbol} {Q : List Lexeme → Prop} (hne : ∀ ts, P ts → ts ≠ [])
    (h : ∀ (l : Lexeme) (ts : List Lexeme), l.token = .symbol s → P (l :: ts) → Q ts) :
    Local P (expectSymbol s) (expectSymbol s) fun _ => Q :=
  (local_expect hne h).map fun _ _ hts => hts

theorem balanced_keyword {k : Keyword} : Balanced n (expectKeyword k) (expectKeyword k) :=
  fun _ => (local_expect (fun _ => Within.ne_nil) fun _ _ hl hts =>
    hts.skip_plain (hl ▸ rfl)).map fun _ _ hts => hts

theorem balanced_symbol {s : Symbol} (h : (Token.symbol s).isPlain = true) :
    Balanced n (expectSymbol s) (expectSymbol s) :=
  fun _ => local_symbol (fun _ => Within.ne_nil) fun _ _ hl hts => hts.skip_plain (hl ▸ h)

theorem local_lparen : Local (Within n depth) (expectSymbol .lparen) (expectSymbol .lparen)
    fun _ => Within n (depth + 1) :=
  local_symbol (fun _ => Within.ne_nil) fun _ _ hl hts => hts.skip_lparen hl

theorem local_rparen : Local (Within n (depth + 1)) (expectSymbol .rparen) (expectSymbol .rparen)
    fun _ => Within n depth :=
  local_symbol (fun _ => Within.ne_nil) fun _ _ hl hts => hts.skip_rparen hl

/-- Taking a plain token and then nothing else. -/
theorem Local.taken {l : Lexeme} {a : α} (h : l.token.isPlain = true) :
    Local (fun rest => Within n depth (l :: rest)) (Pure.pure a : Reader α)
      (Pure.pure a : Reader α) fun _ => Within n depth :=
  .pure fun _ hts => hts.skip_plain h

theorem Local.after {r r' : Reader α} {l : Lexeme} (h : Local (Within n depth) r r' Q)
    (hl : l.token.isPlain = true) : Local (fun rest => Within n depth (l :: rest)) r r' Q :=
  h.weaken fun _ hts => hts.skip_plain hl

theorem Token.isPlain_of_nameWord {t : Token} {word : String} (h : t.nameWord? = some word) :
    t.isPlain = true := by
  cases t <;> first | rfl | cases h

theorem balanced_name {what : String} : Balanced n (expectName what) (expectName what) := by
  refine fun _ => within_next.bind fun l => ?_
  split
  · rename_i hword
    exact .taken (Token.isPlain_of_nameWord hword)
  · exact .refuseLexeme

theorem balanced_string : Balanced n expectString expectString := by
  refine fun _ => within_next.bind fun l => ?_
  split
  · rename_i hl
    exact .taken (hl ▸ rfl)
  · exact .refuseLexeme

theorem balanced_count : Balanced n expectCount expectCount := by
  refine fun _ => within_next.bind fun l => ?_
  split
  · rename_i hl
    exact .ite (fun _ => .taken (hl ▸ rfl)) fun _ => .refuse
  · exact .refuseLexeme

end Tokens

section Repetition

variable {α : Type} {P : List Lexeme → Prop} {n : Nat}

/-- Whether tokens were taken does not depend on those behind. -/
theorem length_append_lt {ts rest more : List Lexeme} :
    (rest ++ more).length < (ts ++ more).length ↔ rest.length < ts.length := by
  simp

theorem length_append_le {ts rest more : List Lexeme} :
    (rest ++ more).length ≤ (ts ++ more).length ↔ rest.length ≤ ts.length := by
  simp

theorem local_many {item item' : Reader (Option α)} (h : Local P item item' fun _ => P) :
    Local P (many item) (many item') fun _ => P := by
  intro ts hts more
  induction hn : ts.length using Nat.strongRecOn generalizing ts with
  | ind size ih =>
    have hsame := h hts more
    rw [many.eq_def item ts, many.eq_def item' (ts ++ more)]
    generalize item ts = x at hsame
    generalize item' (ts ++ more) = x' at hsame
    cases hsame with
    | refused h => exact .refused h
    | @read o rest hrest =>
      cases o with
      | none => exact .read hrest
      | some a =>
        simp only [length_append_lt]
        split
        · rename_i hlength
          have hlater := ih rest.length (hn ▸ hlength) hrest rfl
          generalize many item rest = y at hlater
          generalize many item' (rest ++ more) = y' at hlater
          cases hlater with
          | refused h => exact .refused h
          | read h => exact .read h
        · exact .read hrest

theorem balanced_many {item item' : Reader (Option α)} (h : Balanced n item item') :
    Balanced n (many item) (many item') :=
  fun depth => local_many (h depth)

theorem Balanced.some {r r' : Reader α} (h : Balanced n r r') :
    Balanced n (Option.some <$> r) (Option.some <$> r') :=
  fun depth => (h depth).map fun _ _ hts => hts

theorem Balanced.pure {a : α} : Balanced n (Pure.pure a : Reader α) (Pure.pure a : Reader α) :=
  fun _ => .pure fun _ hts => hts

theorem balanced_itemAfter {sep : Symbol} {item item' : Reader α}
    (hsep : (Token.symbol sep).isPlain = true) (h : Balanced n item item') :
    Balanced n (itemAfter? sep item) (itemAfter? sep item') :=
  fun depth => (balanced_eat hsep depth).bind fun _ =>
    .ite (fun _ => h.some depth) fun _ => Balanced.pure depth

theorem balanced_sepBy1 {sep : Symbol} {item item' : Reader α}
    (hsep : (Token.symbol sep).isPlain = true) (h : Balanced n item item') :
    Balanced n (Reader.sepBy1 sep item) (Reader.sepBy1 sep item') := by
  unfold Reader.sepBy1
  rw [moreItems_eq_many, moreItems_eq_many]
  exact fun depth => (h depth).bind fun _ =>
    (balanced_many (balanced_itemAfter hsep h) depth).bind fun _ => Balanced.pure depth

theorem balanced_columnList : Balanced n columnList columnList := by
  have hname : Balanced n (Prod.fst <$> expectName "column name")
      (Prod.fst <$> expectName "column name") :=
    fun depth => (balanced_name depth).map fun _ _ hts => hts
  exact fun depth => local_lparen.bind fun _ =>
    (balanced_sepBy1 rfl hname (depth + 1)).bind fun _ => local_rparen.bind fun _ =>
      Balanced.pure depth

end Repetition

section Expressions

variable {n depth : Nat} {nested nested' operand operand' : Reader Expr}

theorem local_numberLiteral {P : List Lexeme → Prop} {negative : Bool} {l : Lexeme} :
    Local P (numberLiteral negative l) (numberLiteral negative l) fun _ => P := by
  unfold numberLiteral
  dsimp only
  split
  · exact .pure fun _ hts => hts
  · exact .ite (fun _ => .pure fun _ hts => hts) fun _ => .refuse
  · exact .refuseLexeme

theorem balanced_whenBranch (h : Balanced n nested nested') :
    Balanced n (whenBranch nested) (whenBranch nested') :=
  fun depth => (balanced_keyword depth).bind fun _ => (h depth).bind fun _ =>
    (balanced_keyword depth).bind fun _ => (h depth).bind fun _ => Balanced.pure depth

theorem balanced_whenBranch? (h : Balanced n nested nested') :
    Balanced n (whenBranch? nested) (whenBranch? nested') :=
  fun depth => (balanced_isAt depth).bind fun _ =>
    .ite (fun _ => (balanced_whenBranch h).some depth) fun _ => Balanced.pure depth

theorem balanced_caseTail (h : Balanced n nested nested') :
    Balanced n (caseTail nested) (caseTail nested') := by
  unfold caseTail
  rw [moreBranches_eq_many, moreBranches_eq_many]
  intro depth
  refine (balanced_isAt depth).bind fun _ =>
    .ite_bind (fun _ => Balanced.pure depth) (fun _ => h.some depth) fun _ => ?_
  refine (balanced_whenBranch h depth).bind fun _ => ?_
  refine (balanced_many (balanced_whenBranch? h) depth).bind fun _ => ?_
  refine (balanced_eat rfl depth).bind fun _ =>
    .ite_bind (fun _ => h.some depth) (fun _ => Balanced.pure depth) fun _ => ?_
  exact (balanced_keyword depth).bind fun _ => Balanced.pure depth

theorem balanced_columnTail {word : String} : Balanced n (columnTail word) (columnTail word) :=
  fun depth => (balanced_eat rfl depth).bind fun _ =>
    .ite (fun _ => (balanced_name depth).bind fun _ => Balanced.pure depth) fun _ =>
      Balanced.pure depth

theorem balanced_nameTail {word : String} (h : Balanced n nested nested') :
    Balanced n (nameTail nested word) (nameTail nested' word) := by
  intro depth
  refine local_eat_lparen.bind fun b => .ite (fun hb => ?_) fun hb => ?_
  · subst hb
    refine (balanced_isAt (depth + 1)).bind fun _ => .ite_bind (fun _ => Balanced.pure (depth + 1))
      (fun _ => balanced_sepBy1 rfl h (depth + 1)) fun _ => ?_
    exact local_rparen.bind fun _ => Balanced.pure depth
  · rw [if_neg hb]
    exact balanced_columnTail depth

/-- The words before a nested expression leave fewer tokens for it. -/
theorem balanced_primary (h : Balanced n nested nested') :
    Balanced (n + 1) (primary nested) (primary nested') := by
  refine fun depth => within_next.bind fun l => ?_
  have later : ∀ {r r' : Reader Expr}, Balanced n r r' → l.token.isPlain = true →
      Local (fun rest => Within (n + 1) depth (l :: rest)) r r' fun _ => Within (n + 1) depth :=
    fun hr hl => ((hr depth).weaken fun _ hts => hts.plain hl).imp fun _ _ hts => hts.succ
  split <;> rename_i hl
  · exact .taken (hl ▸ rfl)
  · exact .taken (hl ▸ rfl)
  · exact (local_numberLiteral.after (hl ▸ rfl)).map fun _ _ hts => hts
  · exact (local_numberLiteral.after (hl ▸ rfl)).map fun _ _ hts => hts
  · exact .taken (hl ▸ rfl)
  · refine ((h (depth + 1)).weaken fun _ hts => hts.lparen hl).bind fun _ => ?_
    exact local_rparen.bind fun _ => .pure fun _ hts => hts.succ
  · exact later (balanced_caseTail h) (hl ▸ rfl)
  · exact later (balanced_nameTail h) (hl ▸ rfl)
  · exact later balanced_columnTail (hl ▸ rfl)
  · exact .refuseLexeme

theorem sameBefore_underUnary {op : UnaryOp} {more : List Lexeme} {P : List Lexeme → Prop}
    {read read' : Except Refusal (Expr × List Lexeme)}
    (h : SameBefore more (fun _ => P) read read') :
    SameBefore more (fun _ => P) (underUnary op read) (underUnary op read') := by
  cases h with
  | refused h => exact .refused h
  | read h => exact .read h

theorem unaryLevel_of_ne {l : Lexeme} (h : l.token ≠ .symbol .minus) (ts : List Lexeme) :
    unaryLevel nested (l :: ts) = primary nested (l :: ts) := by
  obtain ⟨token, span⟩ := l
  unfold unaryLevel
  split <;> simp_all

theorem balanced_unaryLevel (h : Balanced n nested nested') :
    Balanced (n + 1) (unaryLevel nested) (unaryLevel nested') := by
  intro depth ts hts more
  induction ts with
  | nil => exact absurd rfl hts.ne_nil
  | cons l ts ih =>
    by_cases hl : l.token = .symbol .minus
    · have htail := hts.skip_plain (hl ▸ rfl)
      obtain ⟨l', rest, rfl⟩ := List.exists_cons_of_ne_nil htail.ne_nil
      obtain ⟨token, span⟩ := l
      cases hl
      simp only [List.cons_append, unaryLevel]
      by_cases hnumber : isNumber l'.token = true
      · have hplain : l'.token.isPlain = true := by
          cases ht : l'.token <;> simp_all [isNumber, Token.isPlain]
        simp only [if_pos hnumber]
        have hvalue : Local (Within (n + 1) depth) (Expr.literal <$> numberLiteral true l')
            (Expr.literal <$> numberLiteral true l') fun _ => Within (n + 1) depth :=
          local_numberLiteral.map fun _ _ hts => hts
        exact hvalue (htail.skip_plain hplain) more
      · simp only [if_neg hnumber]
        exact sameBefore_underUnary (ih htail)
    · rw [List.cons_append, unaryLevel_of_ne hl, unaryLevel_of_ne hl]
      exact balanced_primary h depth hts more

theorem balanced_chain {op? : Token → Option BinaryOp}
    (hop : ∀ t op, op? t = some op → t.isPlain = true) (h : Balanced n operand operand')
    (left : Expr) : Balanced n (chain op? operand left) (chain op? operand' left) := by
  intro depth ts hts more
  induction hn : ts.length using Nat.strongRecOn generalizing ts left with
  | ind size ih =>
    obtain ⟨l, rest, rfl⟩ := List.exists_cons_of_ne_nil hts.ne_nil
    rw [List.cons_append, chain, chain.eq_def op? operand' left]
    dsimp only
    cases hl : op? l.token with
    | none => exact .read hts
    | some op =>
      have hsame := h depth (hts.skip_plain (hop _ _ hl)) more
      dsimp only
      generalize operand rest = x at hsame
      generalize operand' (rest ++ more) = x' at hsame
      cases hsame with
      | refused h => exact .refused h
      | @read right rest' hrest =>
        simp only [length_append_le]
        split
        · rename_i hlength
          exact ih rest'.length (by simp only [← hn, List.length_cons]; omega) _ hrest rfl
        · exact .read hrest

theorem balanced_chained {op? : Token → Option BinaryOp}
    (hop : ∀ t op, op? t = some op → t.isPlain = true) (h : Balanced n operand operand') :
    Balanced n (chained op? operand) (chained op? operand') :=
  fun depth => (h depth).bind fun left => balanced_chain hop h left depth

theorem balanced_nullTest : Balanced n nullTest nullTest :=
  fun depth => (balanced_eat rfl depth).bind fun _ => (balanced_keyword depth).bind fun _ =>
    Balanced.pure depth

theorem isPlain_of_comparisonOp {t : Token} {op : BinaryOp} (h : comparisonOp? t = some op) :
    t.isPlain = true := by
  unfold comparisonOp? at h
  split at h <;> first | rfl | cases h

theorem balanced_comparisonTail (h : Balanced n operand operand') (left : Expr) :
    Balanced n (comparisonTail operand left) (comparisonTail operand' left) := by
  intro depth ts hts more
  induction hn : ts.length using Nat.strongRecOn generalizing ts left with
  | ind size ih =>
    obtain ⟨l, rest, rfl⟩ := List.exists_cons_of_ne_nil hts.ne_nil
    have later : ∀ (e : Expr) {ts : List Lexeme}, Within _ depth ts → ts.length ≤ rest.length →
        SameBefore more (fun _ => Within _ depth) (comparisonTail operand e ts)
          (comparisonTail operand' e (ts ++ more)) :=
      fun e ts hts hlength => ih ts.length (by simp only [← hn, List.length_cons]; omega) e hts rfl
    rw [List.cons_append, comparisonTail, comparisonTail.eq_def operand' left]
    dsimp only
    split
    · rename_i his
      have hsame := balanced_nullTest depth (hts.skip_plain (his ▸ rfl)) more
      generalize nullTest rest = x at hsame
      generalize nullTest (rest ++ more) = x' at hsame
      cases hsame with
      | refused h => exact .refused h
      | read hrest =>
        simp only [length_append_le]
        split
        · exact later _ hrest ‹_›
        · exact .read hrest
    · cases hl : comparisonOp? l.token with
      | none => exact .read hts
      | some op =>
        have hsame := h depth (hts.skip_plain (isPlain_of_comparisonOp hl)) more
        dsimp only
        generalize operand rest = x at hsame
        generalize operand' (rest ++ more) = x' at hsame
        cases hsame with
        | refused h => exact .refused h
        | read hrest =>
          simp only [length_append_le]
          split
          · exact later _ hrest ‹_›
          · exact .read hrest

theorem balanced_additiveLevel (h : Balanced n nested nested') :
    Balanced (n + 1) (additiveLevel nested) (additiveLevel nested') := by
  refine balanced_chained ?_ (balanced_chained ?_ (balanced_unaryLevel h))
  · intro t op hop
    unfold additiveOp? at hop
    split at hop <;> first | rfl | cases hop
  · intro t op hop
    unfold multiplicativeOp? at hop
    split at hop <;> first | rfl | cases hop

theorem balanced_comparisonLevel (h : Balanced n nested nested') :
    Balanced (n + 1) (comparisonLevel nested) (comparisonLevel nested') :=
  fun depth => (balanced_additiveLevel h depth).bind fun left =>
    balanced_comparisonTail (balanced_additiveLevel h) left depth

theorem notLevel_of_ne {l : Lexeme} (h : l.token ≠ .keyword .not) (ts : List Lexeme) :
    notLevel nested (l :: ts) = comparisonLevel nested (l :: ts) := by
  obtain ⟨token, span⟩ := l
  unfold notLevel
  split <;> simp_all

theorem balanced_notLevel (h : Balanced n nested nested') :
    Balanced (n + 1) (notLevel nested) (notLevel nested') := by
  intro depth ts hts more
  induction ts with
  | nil => exact absurd rfl hts.ne_nil
  | cons l ts ih =>
    by_cases hl : l.token = .keyword .not
    · have htail := hts.skip_plain (hl ▸ rfl)
      obtain ⟨token, span⟩ := l
      cases hl
      exact sameBefore_underUnary (ih htail)
    · rw [List.cons_append, notLevel_of_ne hl, notLevel_of_ne hl]
      exact balanced_comparisonLevel h depth hts more

/-- With more tokens there are more levels to spare, and none of them is needed. -/
theorem balanced_exprWithin {n m : Nat} (h : n ≤ m) : Balanced n (exprWithin n) (exprWithin m) := by
  induction n generalizing m with
  | zero =>
    -- There is always one token more, the last semicolon.
    intro depth ts hts
    exact absurd (List.length_eq_zero_iff.mp (Nat.le_zero.mp hts.2)) hts.ne_nil
  | succ n ih =>
    obtain ⟨m, rfl⟩ : ∃ k, m = k + 1 := ⟨m - 1, by omega⟩
    have hnested : Balanced n (exprWithin n) (exprWithin m) := ih (by omega)
    refine balanced_chained ?_ (balanced_chained ?_ (balanced_notLevel hnested))
    · intro t op hop
      unfold orOp? at hop
      split at hop <;> first | rfl | cases hop
    · intro t op hop
      unfold andOp? at hop
      split at hop <;> first | rfl | cases hop

theorem balanced_expr : Balanced n expr expr := by
  intro depth ts hts more
  have hle : ts.length ≤ (ts ++ more).length := by simp
  have hsame := balanced_exprWithin hle depth ⟨hts.1, Nat.le_refl ts.length⟩ more
  exact hsame.imp fun _ _ hrest => hrest.mono hts.2

end Expressions

end Schemata
