import Schemata.Proofs.Locality
import Schemata.Proofs.StatementRun

/-! A whole statement is read without a look at what follows it, mistakes included: where a reader
skips what it cannot read, it stops before the parenthesis, separator or semicolon that ends it, or
before the next `CREATE`. -/
namespace Schemata

open Grammar Reader

section Recovery

variable {α β σ : Type} {P : List Lexeme → Prop} {Q : α → List Lexeme → Prop}
  {R : β → List Lexeme → Prop}

/-- The same mistakes on record, each with a place, and the same result before `more`. -/
inductive Outcome.SameBefore (more : List Lexeme) (Q : α → List Lexeme → Prop) :
    Outcome α → Outcome α → Prop
  | refused {recorded : List Refusal} {e : Refusal} (hrecorded : ∀ e ∈ recorded, e.place.isSome)
    (h : e.place.isSome) : SameBefore more Q ⟨recorded, .error e⟩ ⟨recorded, .error e⟩
  | read {recorded : List Refusal} {a : α} {rest : List Lexeme}
    (hrecorded : ∀ e ∈ recorded, e.place.isSome) (h : Q a rest) :
    SameBefore more Q ⟨recorded, .ok (a, rest)⟩ ⟨recorded, .ok (a, rest ++ more)⟩

/-- Mistakes recorded before go in front. -/
theorem Outcome.SameBefore.after {more : List Lexeme} {recorded : List Refusal} {o o' : Outcome α}
    (h : o.SameBefore more Q o') (hrecorded : ∀ e ∈ recorded, e.place.isSome) :
    (Outcome.mk (recorded ++ o.recorded) o.result).SameBefore more Q
      ⟨recorded ++ o'.recorded, o'.result⟩ := by
  cases h with
  | refused hlater h => exact .refused (List.forall_mem_append.mpr ⟨hrecorded, hlater⟩) h
  | read hlater h => exact .read (List.forall_mem_append.mpr ⟨hrecorded, hlater⟩) h

namespace Recovering

def Local (P : List Lexeme → Prop) (r : Recovering α) (Q : α → List Lexeme → Prop) : Prop :=
  ∀ ⦃ts⦄, P ts → ∀ more, (r ts).SameBefore more Q (r (ts ++ more))

def Balanced (n : Nat) (r : Recovering α) : Prop :=
  ∀ depth, Local (Within n depth) r fun _ => Within n depth

namespace Local

variable {r s : Recovering α}

theorem pure {a : α} (h : ∀ ts, P ts → Q a ts) : Local P (Pure.pure a) Q :=
  fun _ hts _ => .read (List.forall_mem_nil _) (h _ hts)

theorem bind {f : α → Recovering β} (hr : Local P r Q) (hf : ∀ a, Local (Q a) (f a) R) :
    Local P (r >>= f) R := by
  intro ts hts more
  have hsame := hr hts more
  simp only [Bind.bind]
  generalize r ts = o at hsame
  generalize r (ts ++ more) = o' at hsame
  cases hsame with
  | refused hrecorded h => exact .refused hrecorded h
  | @read _ a rest hrecorded h => exact (hf a h more).after hrecorded

theorem lift {r : Reader α} (h : Schemata.Local P r r Q) : Local P (liftM r) Q := by
  intro ts hts more
  change (Outcome.mk [] (r ts)).SameBefore more Q ⟨[], r (ts ++ more)⟩
  have hsame := h hts more
  generalize r ts = x at hsame
  generalize r (ts ++ more) = x' at hsame
  cases hsame with
  | refused h => exact .refused (List.forall_mem_nil _) h
  | read h => exact .read (List.forall_mem_nil _) h

/-- A step by a plain reader. -/
theorem step {r : Reader α} {f : α → Recovering β} (hr : Schemata.Local P r r Q)
    (hf : ∀ a, Local (Q a) (f a) R) : Local P (liftM r >>= f) R :=
  (lift hr).bind hf

theorem weaken {P' : List Lexeme → Prop} (h : Local P r Q) (hP : ∀ ts, P' ts → P ts) :
    Local P' r Q :=
  fun _ hts more => h (hP _ hts) more

theorem ite {b : Prop} [Decidable b] (hr : b → Local P r Q) (hs : ¬ b → Local P s Q) :
    Local P (if b then r else s) Q := by
  split
  · exact hr ‹_›
  · exact hs ‹_›

theorem noting (h : Local P r Q) : Local P r.noting fun p => Q p.1 := by
  intro ts hts more
  have hsame := h hts more
  simp only [Recovering.noting]
  generalize r ts = o at hsame
  generalize r (ts ++ more) = o' at hsame
  cases hsame with
  | refused hrecorded h => exact .refused hrecorded h
  | read hrecorded h => exact .read hrecorded h

theorem recorded {fault : Fault} {place : Span} {f : Unit → Recovering α}
    (h : Local P (f ()) Q) : Local P (record fault place >>= f) Q := by
  have hrecord : Local P (record fault place) fun _ => P :=
    fun _ hts _ => .read (List.forall_mem_singleton.mpr rfl) hts
  exact hrecord.bind fun _ => h

end Local

end Recovering

end Recovery

section Skipping

variable {σ : Type} {P Q : List Lexeme → Prop} {n depth : Nat}

def StartsCreate (ts : List Lexeme) : Prop :=
  ts.head?.map (·.token) = some (.keyword .create)

/-- Where skipping may stop: with all parentheses closed that it met, or before a `CREATE`. -/
def Stopped (n depth : Nat) (ts : List Lexeme) : Prop :=
  Within n depth ts ∨ StartsCreate ts ∧ ∃ d, Within n d ts

theorem Stopped.ne_nil {ts : List Lexeme} (h : Stopped n depth ts) : ts ≠ [] := by
  rcases h with h | ⟨-, d, h⟩ <;> exact h.ne_nil

theorem Stopped.exists {ts : List Lexeme} (h : Stopped n depth ts) : ∃ d, Within n d ts := by
  rcases h with h | ⟨-, h⟩
  · exact ⟨_, h⟩
  · exact h

/-- A skip that has met `extra` open parentheses. -/
theorem skipToSeparator_append (sep : Symbol) (depth extra : Nat) {ts : List Lexeme}
    (h : Closing (depth + extra) ts) (more : List Lexeme) :
    skipToSeparator sep extra (ts ++ more) = skipToSeparator sep extra ts ++ more ∧
      (Closing depth (skipToSeparator sep extra ts) ∨
        StartsCreate (skipToSeparator sep extra ts) ∧
          ∃ d, Closing d (skipToSeparator sep extra ts)) := by
  fun_induction skipToSeparator sep extra ts with
  | case1 => exact absurd rfl h.ne_nil
  | case2 extra l ts hl =>
    have hstop : skipToSeparator sep extra (l :: (ts ++ more)) = l :: (ts ++ more) := by
      simp [skipToSeparator, hl]
    exact ⟨hstop, Or.inr ⟨congrArg some hl, _, h⟩⟩
  | case3 l ts extra hl ih =>
    have hskip : skipToSeparator sep extra (l :: (ts ++ more)) =
        skipToSeparator sep (extra + 1) (ts ++ more) := by
      simp [skipToSeparator, hl]
    rw [List.cons_append, hskip]
    exact ih (h.tail_lparen hl)
  | case4 l ts hl =>
    have hstop : skipToSeparator sep 0 (l :: (ts ++ more)) = l :: (ts ++ more) := by
      simp [skipToSeparator, hl]
    exact ⟨hstop, Or.inl h⟩
  | case5 l ts extra hl ih =>
    have hskip : skipToSeparator sep (extra + 1) (l :: (ts ++ more)) =
        skipToSeparator sep extra (ts ++ more) := by
      simp [skipToSeparator, hl]
    rw [List.cons_append, hskip]
    exact ih (Closing.tail_rparen h hl)
  | case6 l ts s hopen hclose hl hstop =>
    have hstop : skipToSeparator sep 0 (l :: (ts ++ more)) = l :: (ts ++ more) := by
      simp [skipToSeparator, hl, hstop]
    exact ⟨hstop, Or.inl h⟩
  | case7 l ts s hopen hclose hl hstop ih =>
    have hskip : skipToSeparator sep 0 (l :: (ts ++ more)) =
        skipToSeparator sep 0 (ts ++ more) := by
      simp [skipToSeparator, hl, hstop]
    rw [List.cons_append, hskip]
    refine ih (h.tail_plain ?_)
    rw [hl]
    cases s <;> simp_all [Token.isPlain]
  | case8 l ts extra hcreate hopen hclose hcloses hsymbol ih =>
    have hskip : skipToSeparator sep extra (l :: (ts ++ more)) =
        skipToSeparator sep extra (ts ++ more) := by
      rw [skipToSeparator.eq_def]
      simp_all
    rw [List.cons_append, hskip]
    refine ih ?_
    generalize hdepth : depth + extra = d at h ⊢
    cases h with
    | last h => exact absurd (by omega) (hsymbol _ h)
    | opened h => exact absurd h hopen
    | closed h _ =>
      cases extra with
      | zero => exact absurd rfl (hclose h)
      | succ extra => exact absurd rfl (hcloses extra h)
    | other _ _ h => exact h

theorem stopped_skip (sep : Symbol) {ts : List Lexeme} (h : Within n depth ts)
    (more : List Lexeme) :
    skipToSeparator sep 0 (ts ++ more) = skipToSeparator sep 0 ts ++ more ∧
      Stopped n depth (skipToSeparator sep 0 ts) := by
  have hlength := Nat.le_trans (length_skipToSeparator_le sep 0 ts) h.2
  obtain ⟨happend, hclosing | ⟨hcreate, d, hclosing⟩⟩ :=
    skipToSeparator_append sep depth 0 h.1 more
  · exact ⟨happend, Or.inl ⟨hclosing, hlength⟩⟩
  · exact ⟨happend, Or.inr ⟨hcreate, d, hclosing, hlength⟩⟩

/-- From tokens with `P` the same is gathered whatever tokens come behind, and what is left has
`Q`. -/
def Gathers (P : List Lexeme → Prop) (f : List Lexeme → List Refusal × σ × List Lexeme)
    (Q : List Lexeme → Prop) : Prop :=
  ∀ ⦃ts⦄, P ts → ∀ more, ∃ recorded acc rest, f ts = (recorded, acc, rest) ∧
    f (ts ++ more) = (recorded, acc, rest ++ more) ∧ (∀ e ∈ recorded, e.place.isSome) ∧ Q rest

theorem Gathers.local {f : List Lexeme → List Refusal × σ × List Lexeme} (h : Gathers P f Q) :
    Recovering.Local P (fun ts =>
      let (recorded, acc, left) := f ts
      ⟨recorded, .ok (acc, left)⟩) fun _ => Q := by
  intro ts hts more
  obtain ⟨recorded, acc, rest, hf, hmore, hplaced, hrest⟩ := h hts more
  simp only [hf, hmore]
  exact .read hplaced hrest

theorem gathers_itemOrSkip (sep : Symbol) {item : σ → Recovering σ} {acc : σ}
    (h : Recovering.Balanced n (item acc)) :
    Gathers (Within n depth) (Recovering.itemOrSkip sep item acc) (Stopped n depth) := by
  intro ts hts more
  have hsame := h depth hts more
  simp only [Recovering.itemOrSkip]
  generalize item acc ts = o at hsame
  generalize item acc (ts ++ more) = o' at hsame
  cases hsame with
  | refused hrecorded h =>
    obtain ⟨hskip, hstopped⟩ := stopped_skip sep hts more
    refine ⟨_, _, _, rfl, by simp only [hskip], ?_, hstopped⟩
    exact List.forall_mem_append.mpr ⟨hrecorded, List.forall_mem_singleton.mpr h⟩
  | read hrecorded h => exact ⟨_, _, _, rfl, rfl, hrecorded, Or.inl h⟩

theorem gathers_gather {item : σ → Recovering σ} (h : ∀ acc, Recovering.Balanced n (item acc))
    (acc : σ) : Gathers (Within n depth) (Recovering.gather .comma item acc) (Stopped n depth) := by
  intro ts hts more
  induction hn : ts.length using Nat.strongRecOn generalizing ts acc with
  | ind size ih =>
    obtain ⟨recorded, acc', rest, hitem, hmore, hplaced, hrest⟩ :=
      gathers_itemOrSkip .comma (h acc) hts more
    obtain ⟨l, rest, rfl⟩ := List.exists_cons_of_ne_nil hrest.ne_nil
    rw [Recovering.gather.eq_def _ _ _ ts, Recovering.gather.eq_def _ _ _ (ts ++ more), hitem,
      hmore, List.cons_append]
    dsimp only
    by_cases hl : l.token = .symbol .comma
    · -- The item before a separator was not cut short by a `CREATE`.
      have hwithin : Within n depth rest := by
        rcases hrest with hrest | ⟨hcreate, -⟩
        · exact hrest.skip_plain (hl ▸ rfl)
        · simp [StartsCreate, hl] at hcreate
      simp only [if_pos hl, length_append_lt]
      by_cases hlength : rest.length < ts.length
      · obtain ⟨later, last, left, hgather, hgatherMore, hlaterPlaced, hleft⟩ :=
          ih rest.length (hn ▸ hlength) acc' hwithin rfl
        simp only [if_pos hlength, hgather, hgatherMore]
        exact ⟨_, _, _, rfl, rfl, List.forall_mem_append.mpr ⟨hplaced, hlaterPlaced⟩, hleft⟩
      · simp only [if_neg hlength]
        exact ⟨_, _, _, rfl, rfl, hplaced, Or.inl hwithin⟩
    · simp only [if_neg hl]
      exact ⟨_, _, _, rfl, rfl, hplaced, hrest⟩

theorem local_sepBy1 {item : σ → Recovering σ} (h : ∀ acc, Recovering.Balanced n (item acc))
    (acc : σ) :
    Recovering.Local (Within n depth) (Recovering.sepBy1 item acc) fun _ => Stopped n depth :=
  (gathers_gather h acc).local

/-- The parenthesis that closes a list is not a `CREATE`. -/
theorem local_rparen_stopped : Local (Stopped n (depth + 1)) (expectSymbol .rparen)
    (expectSymbol .rparen) fun _ => Within n depth := by
  refine local_symbol (fun _ => Stopped.ne_nil) fun l ts hl hts => ?_
  rcases hts with hts | ⟨hcreate, -⟩
  · exact hts.skip_rparen hl
  · simp [StartsCreate, hl] at hcreate

theorem local_repeatClauses {clause? : σ → Recovering (Option σ)}
    (h : ∀ acc, Recovering.Local P (clause? acc) fun _ => P) (acc : σ) :
    Recovering.Local P (repeatClauses clause? acc) fun _ => P := by
  intro ts hts more
  unfold repeatClauses
  induction hn : ts.length using Nat.strongRecOn generalizing ts acc with
  | ind size ih =>
    have hsame := h acc hts more
    rw [repeatClauses.go.eq_def clause? acc ts, repeatClauses.go.eq_def clause? acc (ts ++ more)]
    generalize clause? acc ts = o at hsame
    generalize clause? acc (ts ++ more) = o' at hsame
    cases hsame with
    | refused hrecorded h => exact .refused hrecorded h
    | @read _ o rest hrecorded hrest =>
      cases o with
      | none => exact .read hrecorded hrest
      | some acc' =>
        simp only [length_append_lt]
        split
        · rename_i hlength
          exact (ih rest.length (hn ▸ hlength) acc' hrest rfl).after hrecorded
        · exact .read hrecorded hrest

end Skipping

section Queries

variable {n : Nat}

theorem balanced_filter : Balanced n optionalFilter optionalFilter :=
  fun depth => (balanced_eat rfl depth).bind fun _ =>
    .ite (fun _ => balanced_expr.some depth) fun _ => Balanced.pure depth

theorem balanced_insert : Balanced n insertStatement insertStatement := by
  intro depth
  refine (balanced_keyword depth).bind fun _ => (balanced_keyword depth).bind fun _ => ?_
  refine (balanced_name depth).bind fun _ => (balanced_columnList depth).bind fun _ => ?_
  refine (balanced_keyword depth).bind fun _ => local_lparen.bind fun _ => ?_
  refine (balanced_sepBy1 rfl balanced_expr (depth + 1)).bind fun _ => ?_
  refine (local_expect (fun _ => Within.ne_nil) fun _ _ hl hts => hts.skip_rparen hl).bind ?_
  intro _
  split
  · exact Balanced.pure depth
  · exact .refuse

theorem balanced_assignment : Balanced n assignment assignment :=
  fun depth => (balanced_name depth).bind fun _ => (balanced_symbol rfl depth).bind fun _ =>
    (balanced_expr depth).bind fun _ => Balanced.pure depth

theorem balanced_update : Balanced n updateStatement updateStatement :=
  fun depth => (balanced_keyword depth).bind fun _ => (balanced_name depth).bind fun _ =>
    (balanced_keyword depth).bind fun _ => (balanced_sepBy1 rfl balanced_assignment depth).bind
      fun _ => (balanced_filter depth).bind fun _ => Balanced.pure depth

theorem balanced_delete : Balanced n deleteStatement deleteStatement :=
  fun depth => (balanced_keyword depth).bind fun _ => (balanced_keyword depth).bind fun _ =>
    (balanced_name depth).bind fun _ => (balanced_filter depth).bind fun _ => Balanced.pure depth

theorem balanced_dml : Balanced n dml dml := by
  intro depth
  refine (balanced_peek depth).bind fun _ => ?_
  split
  · exact balanced_insert depth
  · exact balanced_update depth
  · exact balanced_delete depth
  · exact local_refuseHere fun _ => Within.ne_nil

theorem balanced_template : Balanced n template template :=
  fun depth => (balanced_name depth).bind fun _ => (balanced_keyword depth).bind fun _ =>
    (balanced_dml depth).bind fun _ => Balanced.pure depth

theorem balanced_tableRef : Balanced n tableRef tableRef := by
  intro depth
  refine (balanced_name depth).bind fun _ => (balanced_eat rfl depth).bind fun _ => ?_
  refine .ite (fun _ => (balanced_name depth).bind fun _ => Balanced.pure depth) fun _ => ?_
  refine (balanced_peek depth).bind fun _ => ?_
  split
  · exact (balanced_name depth).bind fun _ => Balanced.pure depth
  · exact Balanced.pure depth

theorem balanced_joinKind : Balanced n joinKind? joinKind? := by
  have hskip : ∀ k, Balanced n (discard (eatKeyword k)) (discard (eatKeyword k)) :=
    fun _ depth => (balanced_eat rfl depth).map fun _ _ hts => hts
  intro depth
  refine (balanced_peek depth).bind fun _ => ?_
  split
  · exact Balanced.pure depth
  · exact (hskip _ depth).bind fun _ => Balanced.pure depth
  · exact (hskip _ depth).bind fun _ => (hskip _ depth).bind fun _ => Balanced.pure depth
  · exact Balanced.pure depth

theorem balanced_join : Balanced n join? join? := by
  intro depth
  refine (balanced_joinKind depth).bind fun _ => ?_
  split
  · exact Balanced.pure depth
  · refine (balanced_keyword depth).bind fun _ => (balanced_tableRef depth).bind fun _ => ?_
    exact (balanced_keyword depth).bind fun _ => (balanced_expr depth).bind fun _ =>
      Balanced.pure depth

theorem balanced_select : Balanced n select select := by
  unfold select
  rw [joins_eq_many]
  intro depth
  refine (balanced_keyword depth).bind fun _ => (balanced_sepBy1 rfl balanced_expr depth).bind ?_
  refine fun _ => (balanced_keyword depth).bind fun _ => (balanced_tableRef depth).bind fun _ => ?_
  exact (balanced_many balanced_join depth).bind fun _ => (balanced_filter depth).bind fun _ =>
    Balanced.pure depth

theorem balanced_union : Balanced n union? union? :=
  fun depth => (balanced_eat rfl depth).bind fun _ => .ite
    (fun _ => (balanced_eat rfl depth).bind fun _ => (balanced_select depth).bind fun _ =>
      Balanced.pure depth)
    fun _ => Balanced.pure depth

theorem balanced_query : Balanced n query query := by
  unfold query
  rw [unions_eq_many]
  exact fun depth => (balanced_select depth).bind fun _ =>
    (balanced_many balanced_union depth).bind fun _ => Balanced.pure depth

end Queries

section Clauses

variable {n : Nat}

theorem Recovering.Balanced.pure {α : Type} {a : α} :
    Recovering.Balanced n (Pure.pure a : Recovering α) :=
  fun _ => .pure fun _ hts => hts

theorem balanced_hintScope : Balanced n hintScope hintScope := by
  refine fun _ => within_next.bind fun l => ?_
  split
  · exact .taken (‹l.token = _› ▸ rfl)
  · split
    · exact .taken (‹l.token = _› ▸ rfl)
    · exact .refuse
  · exact .refuseLexeme

theorem balanced_hintKey (target : HintTarget) : Balanced n (hintKey target) (hintKey target) := by
  refine fun _ => within_next.bind fun l => ?_
  split
  · split
    · exact .ite (fun _ => .taken (‹l.token = _› ▸ rfl)) fun _ => .refuse
    · exact .refuse
  · exact .refuseLexeme

theorem balanced_hint (target : HintTarget) : Balanced n (hint target) (hint target) := by
  intro depth
  refine (balanced_hintScope depth).bind fun _ => (balanced_hintKey target depth).bind fun _ => ?_
  refine (balanced_eat rfl depth).bind fun _ => .ite_bind (fun _ => balanced_string.some depth)
    (fun _ => Balanced.pure depth) fun _ => ?_
  refine .ite (fun _ => .refuse) fun _ => ?_
  split
  · exact Balanced.pure depth
  · exact .refuse

theorem balanced_hintBlock (target : HintTarget) : Recovering.Balanced n (hintBlock target) := by
  have hone : ∀ read : Hints, Recovering.Balanced n (do return read ++ [← hint target]) :=
    fun read depth => .step (balanced_hint target depth) fun _ => Recovering.Balanced.pure depth
  intro depth
  refine .step (balanced_keyword depth) fun _ => .step (balanced_keyword depth) fun _ => ?_
  refine .step local_lparen fun _ => (local_sepBy1 hone []).bind fun _ => ?_
  exact .step local_rparen_stopped fun _ => Recovering.Balanced.pure depth

theorem balanced_viewClause (draft : ViewDraft) : Recovering.Balanced n (viewClause? draft) := by
  intro depth
  refine .step (balanced_peek depth) fun _ => ?_
  split
  · exact .step (balanced_keyword depth) fun _ => .step (balanced_string depth) fun _ =>
      Recovering.Balanced.pure depth
  · exact (balanced_hintBlock .view depth).bind fun _ => Recovering.Balanced.pure depth
  · exact Recovering.Balanced.pure depth

theorem balanced_view : Recovering.Balanced n view := by
  intro depth
  refine .step (balanced_name depth) fun _ => .step (balanced_columnList depth) fun _ => ?_
  refine .step (balanced_keyword depth) fun _ => .step (balanced_query depth) fun _ => ?_
  refine (local_repeatClauses (fun draft => balanced_viewClause draft depth) _).noting.bind ?_
  refine fun _ => .ite (fun _ => Recovering.Balanced.pure depth) fun _ => ?_
  split
  · exact Recovering.Balanced.pure depth
  · exact .recorded (Recovering.Balanced.pure depth)

end Clauses

section Tables

variable {n depth : Nat}

theorem local_orInvalid {α : Type} {P : List Lexeme → Prop} {place : Span}
    {x : Except SchemaError α} : Local P (orInvalid place x) (orInvalid place x) fun _ => P := by
  cases x with
  | ok a => exact .pure fun _ hts => hts
  | error e => exact .refuse

theorem balanced_precisionAndScale : Balanced n precisionAndScale precisionAndScale :=
  fun depth => local_lparen.bind fun _ => (balanced_count (depth + 1)).bind fun _ =>
    (balanced_eat rfl (depth + 1)).bind fun _ => .ite_bind
      (fun _ => balanced_count.some (depth + 1)) (fun _ => Balanced.pure (depth + 1))
      fun _ => local_rparen.bind fun _ => Balanced.pure depth

theorem balanced_length : Balanced n lengthInParentheses lengthInParentheses :=
  fun depth => local_lparen.bind fun _ => (balanced_count (depth + 1)).bind fun _ =>
    local_rparen.bind fun _ => Balanced.pure depth

theorem balanced_dataType : Balanced n dataType dataType := by
  refine fun depth => within_next.bind fun l => ?_
  split <;> try exact .taken (‹l.token = _› ▸ rfl)
  · refine .after ?_ (‹l.token = _› ▸ rfl)
    exact (balanced_precisionAndScale depth).bind fun _ => local_orInvalid
  · refine .after ?_ (‹l.token = _› ▸ rfl)
    refine (balanced_isAt depth).bind fun _ => .ite (fun _ => ?_) fun _ => Balanced.pure depth
    refine (balanced_precisionAndScale depth).bind fun _ => ?_
    exact (local_orInvalid.map fun _ _ hts => hts).bind fun _ => Balanced.pure depth
  · refine .after ?_ (‹l.token = _› ▸ rfl)
    exact (balanced_length depth).bind fun _ => local_orInvalid
  · refine .after ?_ (‹l.token = _› ▸ rfl)
    exact (balanced_length depth).bind fun _ => local_orInvalid
  · exact .refuseLexeme

theorem balanced_literal : Balanced n literal literal := by
  intro depth
  refine (balanced_eat rfl depth).bind fun _ => within_next.bind fun l => ?_
  split
  · exact local_numberLiteral.after (‹l.token = _› ▸ rfl)
  · exact local_numberLiteral.after (‹l.token = _› ▸ rfl)
  · exact .taken (‹l.token = _› ▸ rfl)
  · exact .taken (‹l.token = _› ▸ rfl)
  · exact .refuseLexeme

theorem balanced_defaultValue : Balanced n defaultValue defaultValue :=
  fun depth => (balanced_eat rfl depth).bind fun _ => .ite (fun _ => Balanced.pure depth) fun _ =>
    (balanced_literal depth).map fun _ _ hts => hts

theorem balanced_referentialAction : Balanced n referentialAction referentialAction := by
  refine fun depth => within_next.bind fun l => ?_
  split
  · exact .taken (‹l.token = _› ▸ rfl)
  · exact .taken (‹l.token = _› ▸ rfl)
  · exact .after ((balanced_keyword depth).bind fun _ => Balanced.pure depth) (‹l.token = _› ▸ rfl)
  · exact .after ((balanced_keyword depth).bind fun _ => Balanced.pure depth) (‹l.token = _› ▸ rfl)
  · exact .refuseLexeme

theorem balanced_actionClause (r : Reference) :
    Balanced n (actionClause? r) (actionClause? r) := by
  intro depth
  refine (balanced_eat rfl depth).bind fun _ => .ite (fun _ => ?_) fun _ => Balanced.pure depth
  refine within_next.bind fun l => ?_
  split
  · refine .after ?_ (‹l.token = _› ▸ rfl)
    exact (balanced_referentialAction depth).bind fun _ => Balanced.pure depth
  · refine .after ?_ (‹l.token = _› ▸ rfl)
    exact (balanced_referentialAction depth).bind fun _ => Balanced.pure depth
  · exact .refuseLexeme

theorem balanced_actionClauses (r : Reference) :
    Balanced n (actionClauses r) (actionClauses r) := by
  intro depth ts hts more
  induction hn : ts.length using Nat.strongRecOn generalizing ts r with
  | ind size ih =>
    have hsame := balanced_actionClause r depth hts more
    rw [actionClauses.eq_def r ts, actionClauses.eq_def r (ts ++ more)]
    generalize actionClause? r ts = x at hsame
    generalize actionClause? r (ts ++ more) = x' at hsame
    cases hsame with
    | refused h => exact .refused h
    | @read o rest hrest =>
      cases o with
      | none => exact .read hrest
      | some r' =>
        simp only [length_append_lt]
        split
        · rename_i hlength
          exact ih rest.length (hn ▸ hlength) r' hrest rfl
        · exact .read hrest

theorem balanced_references : Balanced n references references :=
  fun depth => (balanced_keyword depth).bind fun _ => (balanced_name depth).bind fun _ =>
    local_lparen.bind fun _ => (balanced_name (depth + 1)).bind fun _ =>
      local_rparen.bind fun _ => balanced_actionClauses _ depth

theorem balanced_columnOption (d : ColumnDraft) : Recovering.Balanced n (columnOption? d) := by
  intro depth
  refine .step (balanced_peek depth) fun _ => ?_
  split
  · exact .step (balanced_keyword depth) fun _ => .step (balanced_keyword depth) fun _ =>
      Recovering.Balanced.pure depth
  · exact .step (balanced_keyword depth) fun _ => Recovering.Balanced.pure depth
  · exact .step (balanced_keyword depth) fun _ => .step (balanced_defaultValue depth) fun _ =>
      Recovering.Balanced.pure depth
  · exact .step (balanced_keyword depth) fun _ => .step (balanced_keyword depth) fun _ =>
      Recovering.Balanced.pure depth
  · exact .step (balanced_keyword depth) fun _ => Recovering.Balanced.pure depth
  · exact .step (balanced_references depth) fun _ => Recovering.Balanced.pure depth
  · exact .step (balanced_keyword depth) fun _ => .step (balanced_string depth) fun _ =>
      Recovering.Balanced.pure depth
  · exact (balanced_hintBlock .column depth).bind fun _ => Recovering.Balanced.pure depth
  · exact Recovering.Balanced.pure depth

theorem balanced_column (d : TableDraft) : Recovering.Balanced n (column d) := by
  intro depth
  refine .step (balanced_name depth) fun _ => .step (balanced_dataType depth) fun _ => ?_
  refine (local_repeatClauses (fun d => balanced_columnOption d depth) _).bind fun _ => ?_
  exact .step local_orInvalid fun _ => Recovering.Balanced.pure depth

theorem balanced_keyElement (d : TableDraft) (name : Option String) :
    Balanced n (keyElement? d name) (keyElement? d name) := by
  intro depth
  refine (balanced_peek depth).bind fun _ => ?_
  split
  · exact (balanced_keyword depth).bind fun _ => (balanced_keyword depth).bind fun _ =>
      (balanced_columnList depth).bind fun _ => Balanced.pure depth
  · exact (balanced_keyword depth).bind fun _ => (balanced_columnList depth).bind fun _ =>
      Balanced.pure depth
  · refine (balanced_keyword depth).bind fun _ => (balanced_keyword depth).bind fun _ => ?_
    refine local_lparen.bind fun _ => (balanced_name (depth + 1)).bind fun _ => ?_
    exact local_rparen.bind fun _ => (balanced_references depth).bind fun _ => Balanced.pure depth
  · exact Balanced.pure depth

theorem balanced_indexElement (d : TableDraft) : Recovering.Balanced n (indexElement d) := by
  intro depth
  refine .step (balanced_keyword depth) fun _ => .step (balanced_name depth) fun _ => ?_
  refine .step (balanced_columnList depth) fun _ => .step (balanced_isAt depth) fun _ => ?_
  refine .ite (fun _ => ?_) fun _ => ?_
  · exact (balanced_hintBlock .index depth).bind fun _ => Recovering.Balanced.pure depth
  · exact (Recovering.Balanced.pure depth).bind fun _ => Recovering.Balanced.pure depth

theorem balanced_tableElement (d : TableDraft) : Recovering.Balanced n (tableElement d) := by
  intro depth
  refine .step (balanced_eat rfl depth) fun _ => .ite (fun _ => ?_) fun _ => ?_
  · refine .step (balanced_name depth) fun _ => .step (balanced_keyElement d _ depth) fun _ => ?_
    split
    · exact Recovering.Balanced.pure depth
    · exact .lift (local_refuseHere fun _ => Within.ne_nil)
  · refine .step (balanced_keyElement d _ depth) fun _ => ?_
    split
    · exact Recovering.Balanced.pure depth
    · refine .step (balanced_isAt depth) fun _ => ?_
      exact .ite (fun _ => balanced_indexElement d depth) fun _ => balanced_column d depth

/-- Inside parentheses no semicolon is the last one. -/
theorem gathers_actionStatements (read : List Dml) :
    Gathers (Within n (depth + 1)) (actionStatements read) (Stopped n (depth + 1)) := by
  have hone : ∀ read : List Dml, Gathers (Within n (depth + 1)) (Recovering.itemOrSkip .semicolon
      (fun (read : List Dml) => do return read ++ [← dml]) read) (Stopped n (depth + 1)) :=
    fun read => gathers_itemOrSkip .semicolon fun depth =>
      .step (balanced_dml depth) fun _ => Recovering.Balanced.pure depth
  intro ts hts more
  induction hn : ts.length using Nat.strongRecOn generalizing ts read with
  | ind size ih =>
    obtain ⟨l, following, rfl⟩ := List.exists_cons_of_ne_nil hts.ne_nil
    rw [actionStatements.eq_def read (l :: following), List.cons_append,
      actionStatements.eq_def read (l :: (following ++ more))]
    dsimp only
    by_cases hl : l.token = .symbol .rparen
    · simp only [if_pos hl]
      exact ⟨_, _, _, rfl, rfl, List.forall_mem_nil _, Or.inl hts⟩
    · obtain ⟨recorded, read', rest, hitem, hmore, hplaced, hrest⟩ :=
        hone read hts more
      obtain ⟨s, rest, rfl⟩ := List.exists_cons_of_ne_nil hrest.ne_nil
      simp only [List.cons_append] at hmore
      simp only [if_neg hl, hitem, hmore, length_append_le]
      by_cases hs : s.token = .symbol .semicolon ∧ rest.length ≤ following.length
      · have hwithin : Within n (depth + 1) rest := by
          rcases hrest with hrest | ⟨hcreate, -⟩
          · obtain ⟨h, -⟩ | h := hrest.1.tail_semicolon hs.1
            · cases h
            · exact ⟨h, hrest.length_tail_le⟩
          · simp [StartsCreate, hs.1] at hcreate
        have hlength : rest.length < size := by
          rw [← hn, List.length_cons]
          omega
        obtain ⟨later, last, left, hgather, hgatherMore, hlaterPlaced, hleft⟩ :=
          ih rest.length hlength read' hwithin rfl
        simp only [if_pos hs, hgather, hgatherMore]
        exact ⟨_, _, _, rfl, rfl, List.forall_mem_append.mpr ⟨hplaced, hlaterPlaced⟩, hleft⟩
      · simp only [if_neg hs]
        exact ⟨_, _, _, rfl, rfl, hplaced, hrest⟩

theorem balanced_actionBlock : Recovering.Balanced n actionBlock :=
  fun depth => .step local_lparen fun _ => (gathers_actionStatements []).local.bind fun _ =>
    .step local_rparen_stopped fun _ => Recovering.Balanced.pure depth

theorem balanced_tableClause (d : TableDraft) : Recovering.Balanced n (tableClause? d) := by
  intro depth
  refine .step (balanced_peek depth) fun _ => ?_
  split
  · exact .step (balanced_keyword depth) fun _ => .step (balanced_string depth) fun _ =>
      Recovering.Balanced.pure depth
  · exact .step (balanced_keyword depth) fun _ => .step (balanced_keyword depth) fun _ =>
      (balanced_actionBlock depth).bind fun _ => Recovering.Balanced.pure depth
  · exact (balanced_hintBlock .table depth).bind fun _ => Recovering.Balanced.pure depth
  · exact Recovering.Balanced.pure depth

/-- A table may be given up at a semicolon inside its parentheses. -/
theorem local_table :
    Recovering.Local (Within n depth) table fun _ rest => ∃ d, Within n d rest := by
  refine .step (balanced_name depth) fun _ => .step local_lparen fun _ => ?_
  refine (local_sepBy1 balanced_tableElement _).noting.bind fun _ => ?_
  refine .step (local_isAt fun _ => Stopped.ne_nil) fun _ => ?_
  refine .ite (fun _ => .pure fun _ hts => hts.exists) fun _ => ?_
  refine .step local_rparen_stopped fun _ => ?_
  refine (local_repeatClauses (fun d => balanced_tableClause d depth) _).noting.bind fun _ => ?_
  refine .ite (fun _ => .pure fun _ hts => ⟨depth, hts⟩) fun _ => ?_
  split
  · exact .pure fun _ hts => ⟨depth, hts⟩
  · exact .recorded (.pure fun _ hts => ⟨depth, hts⟩)

end Tables

section Statements

variable {n : Nat}

/-- The end of the tokens, or tokens that lead there. -/
def Remaining (n : Nat) (ts : List Lexeme) : Prop :=
  ts = [] ∨ ∃ depth, Within n depth ts

theorem local_semicolon : Local (fun ts => ∃ depth, Within n depth ts) (expectSymbol .semicolon)
    (expectSymbol .semicolon) fun _ => Remaining n := by
  refine local_symbol (fun _ ⟨_, hts⟩ => hts.ne_nil) fun l ts hl ⟨depth, hts⟩ => ?_
  obtain ⟨-, h⟩ | h := hts.1.tail_semicolon hl
  · exact Or.inl h
  · exact Or.inr ⟨depth, h, hts.length_tail_le⟩

/-- A statement begins with a word of its own. -/
theorem local_artifact :
    Recovering.Local (fun ts => ∃ depth, Within (n + 1) depth ts) artifact
      fun _ => Remaining n := by
  have hword : ∀ depth, Local (Within (n + 1) depth) (expectKeyword .create)
      (expectKeyword .create) fun _ => Within n depth :=
    fun _ => (local_expect (fun _ => Within.ne_nil) fun _ _ hl hts =>
      hts.plain (hl ▸ rfl)).map fun _ _ hts => hts
  have hend : ∀ found : Option (Artifact × Span),
      Recovering.Local (fun ts => ∃ depth, Within n depth ts) (do
        expectSymbol .semicolon
        return found) fun _ => Remaining n :=
    fun _ => .step local_semicolon fun _ => .pure fun _ hts => hts
  rintro ts ⟨depth, hts⟩
  revert ts
  change Recovering.Local (Within (n + 1) depth) artifact fun _ => Remaining n
  refine .step (hword depth) fun _ => .step within_next fun l => ?_
  split
  · refine (local_table.weaken fun _ hts => hts.skip_plain (‹l.token = _› ▸ rfl)).bind ?_
    exact fun _ => hend _
  · refine ((balanced_view depth).weaken fun _ hts => hts.skip_plain (‹l.token = _› ▸ rfl)).bind ?_
    exact fun _ => (hend _).weaken fun _ hts => ⟨depth, hts⟩
  · refine .step ((balanced_template depth).after (‹l.token = _› ▸ rfl)) fun _ => ?_
    exact (hend _).weaken fun _ hts => ⟨depth, hts⟩
  · exact .lift .refuseLexeme

/-- A skip of `depth` parentheses or fewer ends at the last semicolon, if not before. -/
theorem skipStatementRest_append {known depth : Nat} {ts : List Lexeme} (h : Closing depth ts)
    (hknown : known ≤ depth) (more : List Lexeme) :
    skipStatementRest known (ts ++ more) = skipStatementRest known ts ++ more ∧
      (skipStatementRest known ts = [] ∨ ∃ d, Closing d (skipStatementRest known ts)) := by
  fun_induction skipStatementRest known ts generalizing depth with
  | case1 => exact absurd rfl h.ne_nil
  | case2 known l ts hl =>
    have hstop : skipStatementRest known (l :: (ts ++ more)) = l :: (ts ++ more) := by
      simp [skipStatementRest, hl]
    exact ⟨hstop, Or.inr ⟨_, h⟩⟩
  | case3 l ts hl =>
    have hstop : skipStatementRest 0 (l :: (ts ++ more)) = ts ++ more := by
      simp [skipStatementRest, hl]
    exact ⟨hstop, h.tail⟩
  | case4 l ts known hl ih =>
    have hskip : skipStatementRest known (l :: (ts ++ more)) =
        skipStatementRest (known + 1) (ts ++ more) := by
      simp [skipStatementRest, hl]
    rw [List.cons_append, hskip]
    exact ih (h.tail_lparen hl) (by omega)
  | case5 l ts known hl ih =>
    have hskip : skipStatementRest known (l :: (ts ++ more)) =
        skipStatementRest (known - 1) (ts ++ more) := by
      simp [skipStatementRest, hl]
    rw [List.cons_append, hskip]
    cases h with
    | closed _ h => exact ih h (by omega)
    | last h | opened h _ | other _ h _ => simp_all
  | case6 l ts known hcreate hsemicolon hopen hclose ih =>
    have hskip : skipStatementRest known (l :: (ts ++ more)) =
        skipStatementRest known (ts ++ more) := by
      rw [skipStatementRest.eq_def]
      simp_all
    rw [List.cons_append, hskip]
    cases h with
    | last h => exact absurd (Nat.le_zero.mp hknown) (hsemicolon h)
    | opened h => exact absurd h hopen
    | closed h _ => exact absurd h hclose
    | other _ _ h => exact ih h hknown

end Statements

end Schemata
