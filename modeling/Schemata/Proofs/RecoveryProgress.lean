import Schemata.Proofs.MistakePlaces
import Schemata.Proofs.SkippedTokens
import Schemata.Proofs.StatementRun

/-! Recovery makes progress. Every turn of a loop that reads items and skips those that it cannot
read takes a token, so the loops end by themselves; and every mistake is paid for with a token that
is not read again. What a reader takes before it fails is not lost: the skip that follows starts
where the reader started, but gets at least as far. -/
namespace Schemata

open Grammar Reader

section Accounts

variable {α β σ : Type} {S : Skipper} {c d d' : Nat} {ts : List Lexeme} {after : α → Nat}
  {later : β → Nat} {D E : Nat → Prop}

/-- An outcome on `ts` with `c` tokens to spare. A skip from `ts` passes the mistakes on record,
each of which costs a token. What is read leaves a skip with `D` open parentheses, and `after`
tokens to spare. -/
inductive Paid (S : Skipper) (c d : Nat) (ts : List Lexeme) (after : α → Nat) (D : Nat → Prop) :
    Outcome α → Prop
  | refused {recorded : List Refusal} {e : Refusal}
    (h : (S.skip d ts).length + recorded.length ≤ ts.length + c) :
    Paid S c d ts after D ⟨recorded, .error e⟩
  | read {recorded : List Refusal} {a : α} {rest : List Lexeme} {d' : Nat} (hrest : rest <:+ ts)
    (hd : D d') (hskip : S.skip d ts = S.skip d' rest)
    (h : rest.length + recorded.length + after a ≤ ts.length + c) :
    Paid S c d ts after D ⟨recorded, .ok (a, rest)⟩

def Pays (S : Skipper) (c d : Nat) (r : Recovering α) (after : α → Nat) (D : Nat → Prop) : Prop :=
  ∀ ts, Paid S c d ts after D (r ts)

namespace Pays

variable {r s : Recovering α} {f : α → Recovering β}

theorem pure {a : α} (hd : D d) (h : after a ≤ c) : Pays S c d (Pure.pure a) after D :=
  fun ts => .read (List.suffix_refl ts) hd rfl (Nat.add_le_add_left h ts.length)

theorem bind (hr : Pays S c d r after D) (hf : ∀ a d', D d' → Pays S (after a) d' (f a) later E) :
    Pays S c d (r >>= f) later E := by
  intro ts
  have hpaid := hr ts
  simp only [Bind.bind]
  generalize r ts = o at hpaid
  cases hpaid with
  | refused h => exact .refused h
  | @read recorded a rest d' hrest hd hskip h =>
    have hlater := hf a d' hd rest
    dsimp only
    generalize f a rest = o at hlater
    cases hlater with
    | refused hlast =>
      refine .refused ?_
      simp only [hskip, List.length_append]
      omega
    | read hlast hd' hskip' h' =>
      refine .read (hlast.trans hrest) hd' (hskip.trans hskip') ?_
      simp only [List.length_append]
      omega

theorem andThen (hr : Pays S c d r after (Eq d')) (hf : ∀ a, Pays S (after a) d' (f a) later E) :
    Pays S c d (r >>= f) later E :=
  hr.bind fun a _ h => h ▸ hf a

theorem ite {b : Prop} [Decidable b] (hr : Pays S c d r after D) (hs : Pays S c d s after D) :
    Pays S c d (if b then r else s) after D := by
  split
  · exact hr
  · exact hs

theorem noting (h : Pays S c d r after D) : Pays S c d r.noting (fun p => after p.1) D := by
  intro ts
  have hpaid := h ts
  unfold Recovering.noting
  generalize r ts = o at hpaid
  cases hpaid with
  | refused h => exact .refused h
  | read hrest hd hskip h => exact .read hrest hd hskip h

theorem record {fault : Fault} {place : Span} :
    Pays S (c + 1) d (Recovering.record fault place) (fun _ => c) (Eq d) :=
  fun ts => .read (List.suffix_refl ts) rfl rfl (Nat.le_of_eq (Nat.add_right_comm _ 1 c))

theorem lift {r : Reader α} (h : Nests S.commas d d' r) :
    Pays S c d (liftM r) (fun _ => c) (Eq d') := by
  intro ts
  change Paid S c d ts _ _ ⟨[], r ts⟩
  cases hr : r ts with
  | error e => exact .refused (Nat.le_add_right_of_le (S.length_le d ts))
  | ok p =>
    obtain ⟨taken, rfl, htaken⟩ := h hr
    refine .read (List.suffix_append _ _) rfl (Skipper.skip_append htaken _) ?_
    simp only [List.length_append, List.length_nil]
    omega

/-- A step by a plain reader. -/
theorem step {r : Reader α} {f : α → Recovering β} (hr : Nests S.commas d d' r)
    (hf : ∀ a, Pays S c d' (f a) later E) : Pays S c d (liftM r >>= f) later E :=
  (lift hr).andThen hf

/-- A step that takes a token, which may pay for a mistake later on. -/
theorem take {r : Reader α} {f : α → Recovering β} (hr : Consumes S.commas d d' r)
    (hf : ∀ a, Pays S (c + 1) d' (f a) later E) : Pays S c d (liftM r >>= f) later E := by
  have hfirst : Pays S c d (liftM r) (fun _ => c + 1) (Eq d') := by
    intro ts
    change Paid S c d ts _ _ ⟨[], r ts⟩
    cases h : r ts with
    | error e => exact .refused (Nat.le_add_right_of_le (S.length_le d ts))
    | ok p =>
      obtain ⟨taken, rfl, htaken, hne⟩ := hr h
      have hpos : 0 < taken.length := List.length_pos_iff.mpr fun h => hne (by rw [h]; rfl)
      refine .read (List.suffix_append _ _) rfl (Skipper.skip_append htaken _) ?_
      simp only [List.length_append, List.length_nil]
      omega
  exact hfirst.andThen hf

theorem keyword {k : Keyword} {f : Unit → Recovering β}
    (hk : (Token.keyword k).skipped? S.commas d = some d)
    (hf : ∀ u, Pays S (c + 1) d (f u) later E) :
    Pays S c d (liftM (expectKeyword k) >>= f) later E :=
  take (consumes_expect hk) hf

theorem lparen {f : Unit → Recovering β} (hf : ∀ u, Pays S (c + 1) (d + 1) (f u) later E) :
    Pays S c d (liftM (expectSymbol .lparen) >>= f) later E :=
  take (consumes_expect rfl) hf

theorem rparen {f : Unit → Recovering β} (hf : ∀ u, Pays S (c + 1) d (f u) later E) :
    Pays S c (d + 1) (liftM (expectSymbol .rparen) >>= f) later E :=
  take (consumes_expect skipped_rparen) hf

theorem name {what : String} {f : String × Span → Recovering β}
    (hf : ∀ p, Pays S (c + 1) d (f p) later E) :
    Pays S c d (liftM (expectName what) >>= f) later E :=
  take consumes_name hf

end Pays

end Accounts

/-! ### Loops that run by themselves -/

section Loops

/-- One turn of a loop: the mistakes that it records, what is gathered after it, the tokens that it
leaves, and whether the loop goes on with them. -/
structure Round (σ : Type) where
  recorded : List Refusal
  gathered : σ
  left : List Lexeme
  again : Bool

/-- The loop ends after some turns, with all mistakes, what was gathered and what is left. Nothing
but the turns themselves ends it. -/
inductive Loops {σ : Type} (round : σ → List Lexeme → Round σ) :
    σ → List Lexeme → List Refusal × σ × List Lexeme → Prop
  | last {acc acc' : σ} {ts left : List Lexeme} {recorded : List Refusal}
    (h : round acc ts = ⟨recorded, acc', left, false⟩) :
    Loops round acc ts (recorded, acc', left)
  | turn {acc acc' : σ} {ts left : List Lexeme} {recorded : List Refusal}
    {x : List Refusal × σ × List Lexeme} (h : round acc ts = ⟨recorded, acc', left, true⟩)
    (hx : Loops round acc' left x) : Loops round acc ts (recorded ++ x.1, x.2)

variable {σ : Type} {round : σ → List Lexeme → Round σ} {acc : σ} {ts : List Lexeme}
  {x : List Refusal × σ × List Lexeme}

/-- What one turn keeps, all turns keep. -/
theorem Loops.keeps {R : List Lexeme → List Lexeme → Prop}
    (htrans : ∀ {as bs cs}, R as bs → R bs cs → R as cs)
    (hstep : ∀ acc ts, R ts (round acc ts).left) (h : Loops round acc ts x) : R ts x.2.2 := by
  induction h with
  | @last acc _ ts _ _ h =>
    have hturn := hstep acc ts
    rw [h] at hturn
    exact hturn
  | @turn acc _ ts _ _ _ h _ ih =>
    have hturn := hstep acc ts
    rw [h] at hturn
    exact htrans hturn ih

/-- If each turn pays for its mistakes, and the last one may owe `k`, so do all turns together. -/
theorem Loops.length_le {k : Nat} (hstep : ∀ acc ts, (round acc ts).left.length +
      (round acc ts).recorded.length + (if (round acc ts).again then k else 0) ≤ ts.length + k)
    (h : Loops round acc ts x) : x.2.2.length + x.1.length ≤ ts.length + k := by
  induction h with
  | @last acc _ ts _ _ h =>
    have hturn := hstep acc ts
    rw [h] at hturn
    exact hturn
  | @turn acc _ ts left recorded x h _ ih =>
    have hturn := hstep acc ts
    rw [h] at hturn
    have hmine : left.length + recorded.length + k ≤ ts.length + k := hturn
    simp only [List.length_append]
    omega

/-- One item, and the separator behind it. -/
def itemRound (sep : Symbol) (item : σ → Recovering σ) (acc : σ) (ts : List Lexeme) : Round σ :=
  match Recovering.itemOrSkip sep item acc ts with
  | (recorded, acc', l :: rest) =>
    if l.token = .symbol sep then ⟨recorded, acc', rest, true⟩
    else ⟨recorded, acc', l :: rest, false⟩
  | (recorded, acc', []) => ⟨recorded, acc', [], false⟩

/-- A turn that does not end the loop takes a separator. -/
def TakesSeparator (sep : Symbol) (round : σ → List Lexeme → Round σ) : Prop :=
  ∀ acc ts, (round acc ts).again = true →
    ∃ skipped l, ts = skipped ++ l :: (round acc ts).left ∧ l.token = .symbol sep

theorem TakesSeparator.length_lt {sep : Symbol} (h : TakesSeparator sep round) (acc : σ)
    (ts : List Lexeme) (hagain : (round acc ts).again = true) :
    (round acc ts).left.length < ts.length := by
  obtain ⟨skipped, l, hts, -⟩ := h acc ts hagain
  have := congrArg List.length hts
  rw [List.length_append, List.length_cons] at this
  omega

variable {S : Skipper} {c d : Nat} {sep : Symbol} {item : σ → Recovering σ} {acc' : σ} {l : Lexeme}
  {rest : List Lexeme} {recorded : List Refusal}

theorem itemRound_again (h : Recovering.itemOrSkip sep item acc ts = (recorded, acc', l :: rest))
    (hl : l.token = .symbol sep) : itemRound sep item acc ts = ⟨recorded, acc', rest, true⟩ := by
  rw [itemRound, h]
  exact if_pos hl

theorem itemRound_other (h : Recovering.itemOrSkip sep item acc ts = (recorded, acc', l :: rest))
    (hl : l.token ≠ .symbol sep) :
    itemRound sep item acc ts = ⟨recorded, acc', l :: rest, false⟩ := by
  rw [itemRound, h]
  exact if_neg hl

theorem itemRound_end (h : Recovering.itemOrSkip sep item acc ts = (recorded, acc', [])) :
    itemRound sep item acc ts = ⟨recorded, acc', [], false⟩ := by
  rw [itemRound, h]

theorem itemOrSkip_suffix {after : σ → Nat} {D : Nat → Prop}
    (h : Pays S c d (item acc) after D) (sep : Symbol) (ts : List Lexeme) :
    (Recovering.itemOrSkip sep item acc ts).2.2 <:+ ts := by
  have hpaid := h ts
  unfold Recovering.itemOrSkip
  generalize item acc ts = o at hpaid
  cases hpaid with
  | refused => exact skipToSeparator_suffix sep 0 ts
  | read hrest => exact hrest

theorem itemRound_takesSeparator {D : Nat → Prop}
    (h : ∀ acc, Pays S c d (item acc) (fun _ => c) D) :
    TakesSeparator sep (itemRound sep item) := by
  intro acc ts
  have hsuffix := itemOrSkip_suffix (h acc) sep ts
  rcases hitem : Recovering.itemOrSkip sep item acc ts with ⟨recorded, acc', _ | ⟨l, rest⟩⟩
  · rw [itemRound_end hitem]
    rintro ⟨⟩
  · by_cases hl : l.token = .symbol sep
    · rw [hitem] at hsuffix
      obtain ⟨skipped, rfl⟩ := hsuffix
      rw [itemRound_again hitem hl]
      exact fun _ => ⟨skipped, l, rfl, hl⟩
    · rw [itemRound_other hitem hl]
      rintro ⟨⟩

/-- The bound on the tokens that are left never ends the loop. -/
theorem loops_gather (h : TakesSeparator sep (itemRound sep item)) (acc : σ) (ts : List Lexeme) :
    Loops (itemRound sep item) acc ts (Recovering.gather sep item acc ts) := by
  fun_induction Recovering.gather sep item acc ts with
  | case1 acc ts recorded acc' l rest hitem hl hlength more final remaining hmore ih =>
    rw [hmore] at ih
    exact .turn (itemRound_again hitem hl) ih
  | case2 acc ts recorded acc' l rest hitem hl hlength =>
    -- the item and its separator always leave fewer tokens
    have hround := itemRound_again hitem hl
    have hshorter := h.length_lt acc ts (by rw [hround])
    rw [hround] at hshorter
    exact absurd hshorter hlength
  | case3 acc ts recorded acc' l rest hitem hl => exact .last (itemRound_other hitem hl)
  | case4 acc ts recorded acc' hitem => exact .last (itemRound_end hitem)

/-- The turn pays for its mistakes with the tokens that it takes, but that it may owe one if it is
the last; and a skip goes over these tokens. -/
structure Round.Affordable (S : Skipper) (d : Nat) (ts : List Lexeme) (turn : Round σ) : Prop where
  suffix : turn.left <:+ ts
  skip : S.skip d ts = S.skip d turn.left
  length_le : turn.left.length + turn.recorded.length + (if turn.again then 1 else 0) ≤
    ts.length + 1

theorem Loops.pays {loop : List Lexeme → List Refusal × σ × List Lexeme}
    (hstep : ∀ acc ts, (round acc ts).Affordable S d ts)
    (hloop : ∀ ts, Loops round acc ts (loop ts)) :
    Pays S (c + 1) d (fun ts => ⟨(loop ts).1, .ok (loop ts).2⟩) (fun _ => c) (Eq d) := by
  intro ts
  have hsuffix := (hloop ts).keeps (R := fun ts left => left <:+ ts)
    (fun hab hbc => hbc.trans hab) fun acc ts => (hstep acc ts).suffix
  have hskip := (hloop ts).keeps (R := fun ts left => S.skip d ts = S.skip d left) Eq.trans
    fun acc ts => (hstep acc ts).skip
  have hlength := (hloop ts).length_le fun acc ts => (hstep acc ts).length_le
  refine .read hsuffix rfl hskip ?_
  change (loop ts).2.2.length + (loop ts).1.length + c ≤ ts.length + (c + 1)
  omega

variable {commas : Bool}

/-- An item that pays for its mistakes pays, with one token more, for the one that makes the loop
skip it. -/
theorem itemOrSkip_affordable
    (hinner : Pays (.toSeparator commas) 0 0 (item acc) (fun _ => 0) (Eq 0))
    (houter : Pays S 0 (d + 1) (item acc) (fun _ => 0) (Eq (d + 1)))
    {x : List Refusal × σ × List Lexeme}
    (hx : Recovering.itemOrSkip (Skipper.separator commas) item acc ts = x) :
    S.skip (d + 1) ts = S.skip (d + 1) x.2.2 ∧ x.2.2.length + x.1.length ≤ ts.length + 1 := by
  have hin := hinner ts
  have hout := houter ts
  subst hx
  unfold Recovering.itemOrSkip
  generalize item acc ts = o at hin hout
  cases hout with
  | @refused recorded e _ =>
    cases hin with
    | refused h =>
      -- the skip starts where the item did, so it has passed what the item's own mistakes cost
      have hspent : (skipToSeparator (Skipper.separator commas) 0 ts).length + recorded.length ≤
        ts.length := h
      refine ⟨(S.skip_skipToSeparator _ d 0 ts).symm, ?_⟩
      simp only [List.length_append, List.length_singleton]
      omega
  | @read recorded a rest _ hrest hd hskip h =>
    subst hd
    refine ⟨hskip, ?_⟩
    dsimp only
    omega

theorem itemRound_affordable
    (hinner : Pays (.toSeparator commas) 0 0 (item acc) (fun _ => 0) (Eq 0))
    (houter : Pays S 0 (d + 1) (item acc) (fun _ => 0) (Eq (d + 1))) :
    (itemRound (Skipper.separator commas) item acc ts).Affordable S (d + 1) ts := by
  have hsuffix := itemOrSkip_suffix hinner (Skipper.separator commas) ts
  rcases hx : Recovering.itemOrSkip (Skipper.separator commas) item acc ts with
    ⟨recorded, acc', _ | ⟨l, rest⟩⟩
  all_goals
    rw [hx] at hsuffix
    obtain ⟨hskip, hlength⟩ := itemOrSkip_affordable hinner houter hx
  · rw [itemRound_end hx]
    exact ⟨hsuffix, hskip, hlength⟩
  · by_cases hl : l.token = .symbol (Skipper.separator commas)
    · rw [itemRound_again hx hl]
      have hpass : l.token.skipped? S.commas (d + 1) = some (d + 1) := by
        rw [hl]
        cases commas <;> exact skipped_inside (Nat.succ_pos d) nofun nofun nofun
      refine ⟨(List.suffix_cons l rest).trans hsuffix, hskip.trans (S.passes rest hpass), ?_⟩
      simp only [List.length_cons, if_true] at hlength ⊢
      omega
    · rw [itemRound_other hx hl]
      exact ⟨hsuffix, hskip, hlength⟩

theorem pays_sepBy1 (hinner : ∀ acc, Pays (.toSeparator false) 0 0 (item acc) (fun _ => 0) (Eq 0))
    (houter : ∀ acc, Pays S 0 (d + 1) (item acc) (fun _ => 0) (Eq (d + 1))) (acc : σ) :
    Pays S (c + 1) (d + 1) (Recovering.sepBy1 item acc) (fun _ => c) (Eq (d + 1)) := by
  have hstep : ∀ acc ts, (itemRound .comma item acc ts).Affordable S (d + 1) ts :=
    fun acc _ => itemRound_affordable (hinner acc) (houter acc)
  exact Loops.pays hstep fun ts => loops_gather (itemRound_takesSeparator hinner) acc ts

/-- Clauses of which each takes a token. -/
theorem pays_repeatClauses {clause? : σ → Recovering (Option σ)}
    (h : ∀ acc, Pays S c d (clause? acc) (fun o => c + o.toList.length) (Eq d)) (acc : σ) :
    Pays S c d (repeatClauses clause? acc) (fun _ => c) (Eq d) := by
  intro ts
  unfold repeatClauses
  fun_induction repeatClauses.go clause? acc ts with
  | case1 acc ts recorded e hclause =>
    cases hclause ▸ h acc ts with
    | refused hpaid => exact .refused hpaid
  | case2 acc ts recorded rest hclause =>
    cases hclause ▸ h acc ts with
    | read hrest hd hskip hpaid => exact .read hrest hd hskip hpaid
  | case3 acc ts recorded acc' rest hclause hlength later ih =>
    cases hclause ▸ h acc ts with
    | read hrest hd hskip hpaid =>
      subst hd
      have hmine : rest.length + recorded.length + (c + 1) ≤ ts.length + c := hpaid
      simp only [later]
      generalize repeatClauses.go clause? acc' rest = o at ih
      cases ih with
      | refused h =>
        refine .refused ?_
        simp only [hskip, List.length_append]
        omega
      | read hlast hd' hskip' h =>
        refine .read (hlast.trans hrest) hd' (hskip.trans hskip') ?_
        simp only [List.length_append]
        omega
  | case4 acc ts recorded acc' rest hclause hlength =>
    cases hclause ▸ h acc ts with
    | read hrest hd hskip hpaid =>
      have hmine : rest.length + recorded.length + (c + 1) ≤ ts.length + c := hpaid
      exact absurd (by omega) hlength

end Loops

section Readers

variable {S : Skipper} {c d : Nat}

/-- One hint, as a block gathers them. -/
def anotherHint (target : HintTarget) (read : Hints) : Recovering Hints := do
  return read ++ [← hint target]

theorem pays_anotherHint (target : HintTarget) (read : Hints) :
    Pays S c d (anotherHint target read) (fun _ => c) (Eq d) :=
  .step (nests_hint target) fun _ => .pure rfl (Nat.le_refl c)

theorem pays_hintBlock (target : HintTarget) :
    Pays S c d (hintBlock target) (fun _ => c + 1) (Eq d) := by
  refine .keyword rfl fun _ => .keyword rfl fun _ => .lparen fun _ => ?_
  refine (pays_sepBy1 (pays_anotherHint target) (pays_anotherHint target) []).andThen fun _ => ?_
  exact .rparen fun _ => .pure rfl (by omega)

theorem pays_columnOption (draft : ColumnDraft) :
    Pays S c d (columnOption? draft) (fun o => c + o.toList.length) (Eq d) := by
  refine .step nests_peek fun _ => ?_
  split
  · exact .keyword rfl fun _ => .keyword rfl fun _ => .pure rfl (Nat.le_succ (c + 1))
  · exact .keyword rfl fun _ => .pure rfl (Nat.le_refl (c + 1))
  · exact .keyword rfl fun _ => .step nests_defaultValue fun _ => .pure rfl (Nat.le_refl (c + 1))
  · exact .keyword rfl fun _ => .keyword rfl fun _ => .pure rfl (Nat.le_succ (c + 1))
  · exact .keyword rfl fun _ => .pure rfl (Nat.le_refl (c + 1))
  · exact .take consumes_references fun _ => .pure rfl (Nat.le_refl (c + 1))
  · exact .keyword rfl fun _ => .step nests_string fun _ => .pure rfl (Nat.le_refl (c + 1))
  · exact (pays_hintBlock .column).andThen fun _ => .pure rfl (Nat.le_refl (c + 1))
  · exact .pure rfl (Nat.le_refl c)

theorem pays_column (draft : TableDraft) : Pays S c d (column draft) (fun _ => c) (Eq d) := by
  refine .step consumes_name.nests fun _ => .step nests_dataType fun _ => ?_
  refine (pays_repeatClauses pays_columnOption _).andThen fun _ => ?_
  exact .step nests_orInvalid fun _ => .pure rfl (Nat.le_refl c)

theorem pays_indexElement (draft : TableDraft) :
    Pays S c d (indexElement draft) (fun _ => c) (Eq d) := by
  refine .step (consumes_expect rfl).nests fun _ => .step consumes_name.nests fun _ => ?_
  refine .step nests_columnList fun _ => .step nests_isAt fun _ => .ite ?_ ?_
  · exact (pays_hintBlock .index).andThen fun _ => .pure rfl (Nat.le_succ c)
  · exact .pure rfl (Nat.le_refl c)

theorem pays_tableElement (draft : TableDraft) :
    Pays S c d (tableElement draft) (fun _ => c) (Eq d) := by
  refine .step (nests_eat rfl) fun _ => .ite ?_ ?_
  · refine .step consumes_name.nests fun _ => .step (nests_keyElement draft _) fun _ => ?_
    split
    · exact .pure rfl (Nat.le_refl c)
    · exact .lift nests_refuseHere
  · refine .step (nests_keyElement draft _) fun _ => ?_
    split
    · exact .pure rfl (Nat.le_refl c)
    · exact .step nests_isAt fun _ => .ite (pays_indexElement draft) (pays_column draft)

/-- One statement, as an action block gathers them. -/
def anotherDml (read : List Dml) : Recovering (List Dml) := do
  return read ++ [← dml]

/-- The statement and the semicolon behind it, unless the block closes. -/
def actionRound (read : List Dml) (ts : List Lexeme) : Round (List Dml) :=
  match ts with
  | [] => ⟨[], read, [], false⟩
  | l :: following =>
    if l.token = .symbol .rparen then ⟨[], read, l :: following, false⟩
    else itemRound .semicolon anotherDml read (l :: following)

theorem pays_anotherDml (h : S.commas = true ∨ 0 < d) (read : List Dml) :
    Pays S c d (anotherDml read) (fun _ => c) (Eq d) :=
  .step (nests_dml h) fun _ => .pure rfl (Nat.le_refl c)

theorem actionRound_affordable (read : List Dml) (ts : List Lexeme) :
    (actionRound read ts).Affordable S (d + 1) ts := by
  unfold actionRound
  split
  · exact ⟨List.suffix_refl _, rfl, Nat.zero_le _⟩
  · split
    · exact ⟨List.suffix_refl _, rfl, Nat.le_succ _⟩
    · exact itemRound_affordable (pays_anotherDml (.inl rfl) read)
        (pays_anotherDml (.inr (Nat.succ_pos d)) read)

theorem actionRound_takesSeparator : TakesSeparator .semicolon actionRound := by
  have hitem : TakesSeparator .semicolon (itemRound .semicolon anotherDml) :=
    itemRound_takesSeparator (S := .statement) (c := 0) (d := 0) (pays_anotherDml (.inl rfl))
  intro read ts
  unfold actionRound
  split
  · rintro ⟨⟩
  · split
    · rintro ⟨⟩
    · exact hitem read _

theorem loops_actionStatements (read : List Dml) (ts : List Lexeme) :
    Loops actionRound read ts (actionStatements read ts) := by
  fun_induction actionStatements read ts with
  | case1 read => exact .last rfl
  | case2 read l following hl => exact .last (if_pos hl)
  | case3 read l following hl recorded read' s rest hitem hs more final remaining hmore ih =>
    rw [hmore] at ih
    exact .turn ((if_neg hl).trans (itemRound_again hitem hs.1)) ih
  | case4 read l following hl recorded read' s rest hitem hs =>
    by_cases hsep : s.token = .symbol .semicolon
    · have hround : actionRound read (l :: following) = ⟨recorded, read', rest, true⟩ :=
        (if_neg hl).trans (itemRound_again hitem hsep)
      have hshorter := actionRound_takesSeparator.length_lt read (l :: following) (by rw [hround])
      rw [hround] at hshorter
      exact absurd ⟨hsep, Nat.le_of_lt_succ hshorter⟩ hs
    · exact .last ((if_neg hl).trans (itemRound_other hitem hsep))
  | case5 read l following hl recorded read' hitem =>
    exact .last ((if_neg hl).trans (itemRound_end hitem))

theorem pays_actionBlock : Pays S c d actionBlock (fun _ => c + 1) (Eq d) := by
  refine .lparen fun _ => ?_
  refine (Loops.pays actionRound_affordable fun ts => loops_actionStatements [] ts).andThen
    fun _ => ?_
  exact .rparen fun _ => .pure rfl (Nat.le_refl (c + 1))

theorem pays_tableClause (draft : TableDraft) :
    Pays S c d (tableClause? draft) (fun o => c + o.toList.length) (Eq d) := by
  refine .step nests_peek fun _ => ?_
  split
  · exact .keyword rfl fun _ => .step nests_string fun _ => .pure rfl (Nat.le_refl (c + 1))
  · refine .keyword rfl fun _ => .keyword rfl fun _ => ?_
    exact pays_actionBlock.andThen fun _ => .pure rfl (Nat.le_add_right (c + 1) 2)
  · exact (pays_hintBlock .table).andThen fun _ => .pure rfl (Nat.le_refl (c + 1))
  · exact .pure rfl (Nat.le_refl c)

theorem pays_viewClause (draft : ViewDraft) :
    Pays S c d (viewClause? draft) (fun o => c + o.toList.length) (Eq d) := by
  refine .step nests_peek fun _ => ?_
  split
  · exact .keyword rfl fun _ => .step nests_string fun _ => .pure rfl (Nat.le_refl (c + 1))
  · exact (pays_hintBlock .view).andThen fun _ => .pure rfl (Nat.le_refl (c + 1))
  · exact .pure rfl (Nat.le_refl c)

/-- A table that ends early, at a semicolon, leaves its parenthesis open. -/
theorem pays_table : Pays S c d table (fun _ => c) fun _ => True := by
  refine .name fun _ => .lparen fun _ => ?_
  refine (pays_sepBy1 pays_tableElement pays_tableElement _).noting.andThen fun _ => ?_
  refine .step nests_isAt fun _ => .ite (.pure trivial (Nat.le_succ c)) ?_
  refine .rparen fun _ => ?_
  refine (pays_repeatClauses pays_tableClause _).noting.andThen fun _ => ?_
  refine .ite (.pure trivial (by omega)) ?_
  split
  · exact .pure trivial (by omega)
  · exact Pays.record.andThen fun _ => .pure trivial (Nat.le_succ c)

theorem pays_view (h : S.commas = true ∨ 0 < d) : Pays S c d view (fun _ => c) fun _ => True := by
  refine .name fun _ => .step nests_columnList fun _ => .keyword rfl fun _ => ?_
  refine .step (nests_query h) fun _ => ?_
  refine (pays_repeatClauses pays_viewClause _).noting.andThen fun _ => ?_
  refine .ite (.pure trivial (by omega)) ?_
  split
  · exact .pure trivial (by omega)
  · exact Pays.record.andThen fun _ => .pure trivial (Nat.le_succ c)

end Readers

section Statements

variable {α β : Type}

/-- A statement that is refused is skipped from `ts` on. One that is read leaves fewer tokens, with
one to spare. -/
inductive Ended (ts : List Lexeme) : Outcome α → Prop
  | refused {recorded : List Refusal} {e : Refusal}
    (h : (skipStatementRest 0 ts).length + recorded.length ≤ ts.length) :
    Ended ts ⟨recorded, .error e⟩
  | read {recorded : List Refusal} {a : α} {left : List Lexeme} (hleft : left <:+ ts)
    (h : left.length + recorded.length < ts.length) : Ended ts ⟨recorded, .ok (a, left)⟩

theorem one_token_cases {r : Reader Unit} {t : Token} (hr : Accepts r fun _ ts => ts = [t])
    (ts : List Lexeme) : (∃ e, (liftM r : Recovering Unit) ts = ⟨[], .error e⟩) ∨
      ∃ l left, ts = l :: left ∧ (liftM r : Recovering Unit) ts = ⟨[], .ok ((), left)⟩ := by
  cases h : r ts with
  | error e => exact .inl ⟨e, congrArg (Outcome.mk []) h⟩
  | ok p =>
    obtain ⟨taken, hts, htaken⟩ := hr h
    obtain ⟨l, rfl, -⟩ := List.map_eq_singleton_iff.mp htaken
    exact .inr ⟨l, p.2, hts, congrArg (Outcome.mk []) h⟩

/-- The semicolon at the end is one token more. -/
theorem Pays.ended {r : Recovering α} {D : Nat → Prop}
    (h : Pays .statement 0 0 r (fun _ => 0) D) (g : α → β) (ts : List Lexeme) :
    Ended ts ((do
      let a ← r
      expectSymbol .semicolon
      return g a : Recovering β) ts) := by
  have hpaid := h ts
  simp only [Bind.bind]
  generalize r ts = o at hpaid
  cases hpaid with
  | refused h => exact .refused h
  | @read recorded a rest d' hrest _ hskip h =>
    have hreach : (skipStatementRest 0 ts).length ≤ rest.length := by
      have hlast := Skipper.statement.length_le d' rest
      rw [← hskip] at hlast
      exact hlast
    have hone := one_token_cases (r := expectSymbol .semicolon) (.expect _) rest
    rcases hone with ⟨e, hnone⟩ | ⟨l, left, rfl, hend⟩
    · simp only [hnone, List.append_nil]
      exact .refused (by omega)
    · simp only [hend]
      change Ended ts ⟨recorded ++ [], .ok (g a, left)⟩
      rw [List.append_nil]
      rw [List.length_cons] at h
      exact .read ((List.suffix_cons l left).trans hrest) (by omega)

theorem Ended.cons {ts : List Lexeme} {o : Outcome α} {k : Lexeme} (h : Ended ts o)
    (hk : k.token.skipped? true 0 = some 0) : Ended (k :: ts) o := by
  cases h with
  | refused h =>
    have hskip : skipStatementRest 0 (k :: ts) = skipStatementRest 0 ts :=
      Skipper.statement.passes ts hk
    refine .refused ?_
    rw [hskip, List.length_cons]
    omega
  | read hleft h => exact .read (hleft.trans (List.suffix_cons k ts)) (Nat.lt_succ_of_lt h)

/-- Behind its first token, whatever that is, a statement pays for its mistakes. -/
theorem ended_artifact (l : Lexeme) (rest : List Lexeme) : Ended rest (artifact (l :: rest)) := by
  have hone := one_token_cases (r := expectKeyword .create) (.expect _) (l :: rest)
  rcases hone with ⟨e, hnone⟩ | ⟨_, _, hts, hcreate⟩
  · have hrefused : artifact (l :: rest) = ⟨[], .error e⟩ := by
      simp only [artifact, Bind.bind, hnone]
    rw [hrefused]
    exact .refused (length_skipStatementRest_le 0 rest)
  · cases hts
    rw [artifact, Recovers.bind_eq hcreate]
    cases rest with
    | nil => exact .refused (Nat.le_refl 0)
    | cons k ts =>
      have hnext : (liftM (next "TABLE, VIEW, or STATEMENT") : Recovering Lexeme) (k :: ts) =
        ⟨[], .ok (k, ts)⟩ := rfl
      rw [Recovers.bind_eq hnext]
      obtain ⟨token, span⟩ := k
      cases token with
      | keyword word =>
        cases word with
        | table => exact (pays_table.ended _ ts).cons rfl
        | view => exact ((pays_view (.inl rfl)).ended _ ts).cons rfl
        | statement => exact ((Pays.lift (nests_template (.inl rfl))).ended _ ts).cons rfl
        | _ => exact .refused (length_skipStatementRest_le 0 _)
      | _ => exact .refused (length_skipStatementRest_le 0 _)

/-- One statement, read or skipped. -/
def statementRound (s : Schema) (ts : List Lexeme) : Round Schema :=
  match ts with
  | [] => ⟨[], s, [], false⟩
  | l :: rest =>
    match statement s (l :: rest) with
    | ⟨recorded, .ok (s', left)⟩ => ⟨recorded, s', left, true⟩
    | ⟨recorded, .error e⟩ => ⟨recorded ++ [e], s, skipStatementRest 0 rest, true⟩

theorem length_enter_le (s : Schema) (found : Option (Artifact × Span)) :
    (enter s found).1.length ≤ 1 := by
  obtain h | ⟨a, place, -, -, h⟩ | ⟨a, place, -, -, h⟩ := enter_cases s found <;> rw [h]
  · exact Nat.zero_le 1
  · exact Nat.le_refl 1
  · exact Nat.zero_le 1

theorem statementRound_cons (s : Schema) (l : Lexeme) (rest : List Lexeme) :
    (statementRound s (l :: rest)).left <:+ rest ∧
      (statementRound s (l :: rest)).left.length + (statementRound s (l :: rest)).recorded.length ≤
        (l :: rest).length := by
  have hended := ended_artifact l rest
  unfold statementRound
  generalize hread : artifact (l :: rest) = o at hended
  cases hended with
  | refused h =>
    simp only [statement_of_refused hread, List.length_append, List.length_singleton]
    exact ⟨skipStatementRest_suffix 0 rest, Nat.succ_le_succ h⟩
  | read hleft h =>
    -- the token to spare pays for an artifact that cannot be entered
    simp only [statement_of_found hread, List.length_append, List.length_cons]
    have := length_enter_le s ‹_›
    exact ⟨hleft, by omega⟩

theorem loops_statements (s : Schema) (ts : List Lexeme) :
    Loops statementRound s ts ((statements s ts).1, (statements s ts).2, []) := by
  fun_induction statements s ts with
  | case1 s => exact .last rfl
  | case2 s l rest recorded s' left hread hlength more final hmore ih =>
    have hround : statementRound s (l :: rest) = ⟨recorded, s', left, true⟩ := by
      simp only [statementRound, hread]
    rw [hmore] at ih
    exact .turn hround ih
  | case3 s l rest recorded s' left hread hlength =>
    have hround : statementRound s (l :: rest) = ⟨recorded, s', left, true⟩ := by
      simp only [statementRound, hread]
    have hsuffix := (statementRound_cons s l rest).1
    rw [hround] at hsuffix
    exact absurd hsuffix.length_le hlength
  | case4 s l rest recorded e hread more final hmore ih =>
    have hround : statementRound s (l :: rest) =
        ⟨recorded ++ [e], s, skipStatementRest 0 rest, true⟩ := by
      simp only [statementRound, hread]
    rw [hmore] at ih
    have hturn := Loops.turn hround ih
    rw [List.append_assoc] at hturn
    exact hturn

theorem length_statements_le (s : Schema) (ts : List Lexeme) :
    (statements s ts).1.length ≤ ts.length := by
  have hstep : ∀ s ts, (statementRound s ts).left.length + (statementRound s ts).recorded.length +
      (if (statementRound s ts).again then 0 else 0) ≤ ts.length + 0 := by
    intro s ts
    rw [ite_self]
    cases ts with
    | nil => exact Nat.le_refl 0
    | cons l rest => exact (statementRound_cons s l rest).2
  have hall := (loops_statements s ts).length_le hstep
  simpa using hall

end Statements

/-- Whatever is read, if anything is, takes a token. -/
def Advances {α : Type} (step : List Lexeme → Except Refusal (Option α × List Lexeme)) : Prop :=
  ∀ ts a rest, step ts = .ok (some a, rest) → ∃ l taken, ts = l :: (taken ++ rest)

section Clauses

variable {α : Type}

theorem Offers.advances {r : Reader (Option α)} (h : Offers true 0 r) : Advances r := by
  intro ts a rest hread
  obtain ⟨p, rfl, -, hp⟩ := h hread
  cases p with
  | nil => exact absurd rfl (hp rfl)
  | cons l p => exact ⟨l, p, rfl⟩

theorem Pays.advances {r : Recovering (Option α)}
    (h : Pays .statement 0 0 r (fun o => 0 + o.toList.length) (Eq 0)) :
    Advances fun ts => (r ts).result := by
  intro ts a rest hread
  change (r ts).result = _ at hread
  have hpaid := h ts
  generalize r ts = o at hread hpaid
  cases hpaid with
  | refused => cases hread
  | @read recorded _ _ _ hrest _ _ hlength =>
    cases hread
    obtain ⟨p, rfl⟩ := hrest
    cases p with
    | nil =>
      have hmine : rest.length + recorded.length + (0 + 1) ≤ rest.length + 0 := hlength
      exact absurd hmine (by omega)
    | cons l p => exact ⟨l, p, rfl⟩

end Clauses

/-- The loop makes its turns and no others, and each turn that does not end it takes a separator. -/
structure Progresses {σ : Type} (sep : Symbol) (round : σ → List Lexeme → Round σ)
    (loop : σ → List Lexeme → List Refusal × σ × List Lexeme) : Prop where
  takesSeparator : TakesSeparator sep round
  loops : ∀ acc ts, Loops round acc ts (loop acc ts)

theorem progresses_gather {σ : Type} {item : σ → Recovering σ} {sep : Symbol}
    (h : ∀ acc, Pays .statement 0 0 (item acc) (fun _ => 0) (Eq 0)) :
    Progresses sep (itemRound sep item) (Recovering.gather sep item) :=
  ⟨itemRound_takesSeparator h, loops_gather (itemRound_takesSeparator h)⟩

theorem length_mistakes_le {ts : List Lexeme} {mistakes : List Mistake}
    (h : schemaOfLexemes ts = .error mistakes) : mistakes.length ≤ ts.length := by
  have hcount := length_statements_le .empty ts
  rw [schemaOfLexemes_eq_run] at h
  split at h
  · cases h
  · rename_i refusals s _ hread
    cases h
    rw [hread] at hcount
    rw [List.length_map]
    exact hcount

/-- Every turn of the loop over statements takes a token, also where the first token is refused. A
turn of the loops over elements, hints and action statements takes a separator, which stands behind
the tokens it started with, or ends the loop; optional clauses take a token each. All these loops
end by themselves, and there are never more mistakes than tokens. -/
theorem recovery_makes_progress :
    (∀ (s : Schema) (l : Lexeme) (rest : List Lexeme),
      (statementRound s (l :: rest)).left <:+ rest) ∧
    (∀ (s : Schema) (ts : List Lexeme),
      Loops statementRound s ts ((statements s ts).1, (statements s ts).2, [])) ∧
    Progresses .comma (itemRound .comma tableElement) (Recovering.gather .comma tableElement) ∧
    (∀ target, Progresses .comma (itemRound .comma (anotherHint target))
      (Recovering.gather .comma (anotherHint target))) ∧
    Progresses .semicolon actionRound actionStatements ∧
    ((∀ draft, Advances fun ts => (columnOption? draft ts).result) ∧
      (∀ draft, Advances fun ts => (tableClause? draft ts).result) ∧
      (∀ draft, Advances fun ts => (viewClause? draft ts).result) ∧
      (∀ r, Advances (actionClause? r)) ∧ Advances join? ∧ Advances union?) ∧
    ∀ (ts : List Lexeme) (mistakes : List Mistake),
      schemaOfLexemes ts = .error mistakes → mistakes.length ≤ ts.length := by
  refine ⟨?_, loops_statements, ?_, ?_, ?_, ⟨?_, ?_, ?_, ?_, ?_⟩, ?_⟩
  · exact fun s l rest => (statementRound_cons s l rest).1
  · exact progresses_gather pays_tableElement
  · exact fun target => progresses_gather (pays_anotherHint target)
  · exact ⟨actionRound_takesSeparator, loops_actionStatements⟩
  · exact fun draft => (pays_columnOption draft).advances
  · exact fun draft => (pays_tableClause draft).advances
  · exact fun draft => (pays_viewClause draft).advances
  · exact fun r => (offers_actionClause r).advances
  · exact ⟨offers_join.advances, (offers_union (.inl rfl)).advances⟩
  · exact fun _ _ => length_mistakes_le

namespace Sample

/-- Nothing but the word that starts a statement. -/
def creates : List Lexeme :=
  [⟨.keyword .create, ⟨0, 6⟩⟩, ⟨.keyword .create, ⟨7, 13⟩⟩, ⟨.keyword .create, ⟨14, 20⟩⟩]

def createMistakes : List Mistake :=
  [⟨.unexpectedToken "TABLE, VIEW, or STATEMENT" "'CREATE'", ⟨7, 13⟩⟩,
    ⟨.unexpectedToken "TABLE, VIEW, or STATEMENT" "'CREATE'", ⟨14, 20⟩⟩,
    ⟨.unexpectedEnd "TABLE, VIEW, or STATEMENT", ⟨20, 20⟩⟩]

/-- Two elements that do not start with a name. -/
def nameless : List Lexeme :=
  [⟨.integer "1", ⟨0, 1⟩⟩, ⟨.symbol .comma, ⟨1, 2⟩⟩, ⟨.integer "2", ⟨3, 4⟩⟩]

end Sample

/-- As many mistakes as tokens, and a loop over elements that goes on behind a comma. -/
theorem creates_all_refused :
    (schemaOfLexemes Sample.creates = .error Sample.createMistakes ∧
      Sample.createMistakes.length = 3 ∧
      Sample.createMistakes.length ≤ Sample.creates.length) ∧
    (itemRound .comma tableElement { name := "t" } Sample.nameless).again = true ∧
    ∃ skipped l, Sample.nameless = skipped ++ l ::
      (itemRound .comma tableElement { name := "t" } Sample.nameless).left ∧
      l.token = .symbol .comma := by
  have hread : schemaOfLexemes Sample.creates = .error Sample.createMistakes := by
    with_unfolding_all rfl
  have hagain : (itemRound .comma tableElement { name := "t" } Sample.nameless).again = true := by
    with_unfolding_all rfl
  obtain ⟨-, -, helements, -, -, -, hcount⟩ := recovery_makes_progress
  exact ⟨⟨hread, rfl, hcount _ _ hread⟩, hagain, helements.takesSeparator _ _ hagain⟩

end Schemata
