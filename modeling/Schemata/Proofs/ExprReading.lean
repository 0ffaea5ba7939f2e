import Schemata.Proofs.ExprGrammar
import Schemata.Proofs.Reading

/-! Every derivation is found by the reader. An operand is read at the level at which it is derived,
and the level then goes on with what stands behind it. -/
namespace Schemata

open Grammar Reader

/-- How tight a token binds what stands before it; zero for what ends an expression. -/
def opLevel : Token → Nat
  | .keyword .or => 1
  | .keyword .and => 2
  | .keyword .is | .keyword .like => 4
  | .symbol .eq | .symbol .notEq | .symbol .bangEq => 4
  | .symbol .lt | .symbol .ltEq | .symbol .gt | .symbol .gtEq => 4
  | .symbol .plus | .symbol .minus | .symbol .concat => 5
  | .symbol .star | .symbol .slash => 6
  | .symbol .lparen | .symbol .dot => 9
  | _ => 0

/-- The input does not go on with what binds as tight as `k` or tighter. -/
def Stops (k : Nat) (rest : List Lexeme) : Prop :=
  ∀ l ∈ rest.head?, opLevel l.token < k

theorem Stops.mono {j k : Nat} {rest : List Lexeme} (h : Stops j rest) (hjk : j ≤ k) :
    Stops k rest :=
  fun l hl => Nat.lt_of_lt_of_le (h l hl) hjk

/-- Tokens after which an expression is over. -/
def exprFollow : List Token :=
  [.symbol .comma, .symbol .rparen, .symbol .semicolon, .keyword .from, .keyword .where,
   .keyword .join, .keyword .left, .keyword .union, .keyword .comment, .keyword .dbms,
   .keyword .when, .keyword .then, .keyword .else, .keyword .end]

theorem Next.stops {rest : List Lexeme} (h : Next exprFollow rest) : Stops 1 rest := by
  have hzero : ∀ t ∈ exprFollow, opLevel t < 1 := by decide
  exact fun l hl => hzero _ (h l hl)

/-- The readers from the loosest level to the tightest. -/
def level (nested : Reader Expr) : Nat → Reader Expr
  | 1 => orLevel nested
  | 2 => andLevel nested
  | 3 => notLevel nested
  | 4 => comparisonLevel nested
  | 5 => additiveLevel nested
  | 6 => multiplicativeLevel nested
  | 7 => unaryLevel nested
  | _ => primary nested

/-- The infix operators of a level. -/
def levelOp? : Nat → Token → Option BinaryOp
  | 1 => orOp?
  | 2 => andOp?
  | 4 => comparisonOp?
  | 5 => additiveOp?
  | 6 => multiplicativeOp?
  | _ => fun _ => none

/-- How a level goes on after its first operand. -/
def levelTail (nested : Reader Expr) (k : Nat) (left : Expr) (ts : List Lexeme) :
    Except Refusal (Expr × List Lexeme) :=
  if k = 4 then comparisonTail (level nested 5) left ts
  else chain (levelOp? k) (level nested (k + 1)) left ts

theorem levelOp_written {op : BinaryOp} {t : Token} (h : op.WrittenAs t) :
    levelOp? op.precedence t = some op := by
  obtain rfl | ⟨rfl, rfl⟩ := h
  · cases op <;> rfl
  · rfl

theorem written_of_levelOp {k : Nat} {t : Token} {op : BinaryOp} (h : levelOp? k t = some op) :
    op.WrittenAs t ∧ op.precedence = k := by
  unfold levelOp? at h
  split at h
  · unfold orOp? at h
    split at h <;> cases h
    exact ⟨.inl rfl, rfl⟩
  · unfold andOp? at h
    split at h <;> cases h
    exact ⟨.inl rfl, rfl⟩
  · unfold comparisonOp? at h
    split at h <;> cases h
    case h_3 => exact ⟨.inr ⟨rfl, rfl⟩, rfl⟩
    all_goals exact ⟨.inl rfl, rfl⟩
  · unfold additiveOp? at h
    split at h <;> cases h
    all_goals exact ⟨.inl rfl, rfl⟩
  · unfold multiplicativeOp? at h
    split at h <;> cases h
    all_goals exact ⟨.inl rfl, rfl⟩
  · cases h

theorem opLevel_written {op : BinaryOp} {t : Token} (h : op.WrittenAs t) :
    opLevel t = op.precedence := by
  obtain rfl | ⟨rfl, rfl⟩ := h
  · cases op <;> rfl
  · rfl

theorem levelOp_none {k : Nat} {t : Token} (h : opLevel t < k) : levelOp? k t = none := by
  cases ho : levelOp? k t with
  | none => rfl
  | some op =>
    obtain ⟨hwritten, hk⟩ := written_of_levelOp ho
    rw [opLevel_written hwritten, hk] at h
    exact absurd h (Nat.lt_irrefl k)

section Tail

variable {nested : Reader Expr} {k : Nat} {left right : Expr} {l : Lexeme}
  {rest rest' : List Lexeme}

theorem levelTail_stop (h : Stops k rest) : levelTail nested k left rest = .ok (left, rest) := by
  unfold levelTail
  cases rest with
  | nil =>
    split
    · rw [comparisonTail]
    · rw [chain]
  | cons l rest =>
    have hl := h l rfl
    split
    · rename_i hk
      subst hk
      have his : l.token ≠ .keyword .is := fun heq => by simp [heq, opLevel] at hl
      have hop : comparisonOp? l.token = none := levelOp_none hl
      rw [comparisonTail, if_neg his, hop]
    · rw [chain, levelOp_none hl]

theorem levelTail_binary {op : BinaryOp} (hl : op.WrittenAs l.token)
    (hr : level nested (op.precedence + 1) rest = .ok (right, rest'))
    (hlength : rest'.length ≤ rest.length) :
    levelTail nested op.precedence left (l :: rest) =
      levelTail nested op.precedence (.binary op left right) rest' := by
  have hop := levelOp_written hl
  unfold levelTail
  split
  · rename_i hk
    rw [hk] at hop hr
    have his : l.token ≠ .keyword .is := fun heq => by
      rw [heq] at hop
      cases hop
    have hop : comparisonOp? l.token = some op := hop
    rw [comparisonTail, if_neg his, hop]
    simp only [hr, if_pos hlength]
  · rw [chain, hop]
    simp only [hr, if_pos hlength]

theorem levelTail_isNull (hl : l.token = .keyword .is) {negated : Bool}
    (hn : nullTest rest = .ok (negated, rest')) (hlength : rest'.length ≤ rest.length) :
    levelTail nested 4 left (l :: rest) = levelTail nested 4 (.isNull left negated) rest' := by
  unfold levelTail
  rw [if_pos rfl, if_pos rfl, comparisonTail, if_pos hl]
  simp only [hn, if_pos hlength]

/-- Prefix operators and primaries have no further operands. -/
theorem levelTail_of_closed (hk : k = 3 ∨ k = 7 ∨ k = 8) :
    levelTail nested k left rest = .ok (left, rest) := by
  obtain rfl | rfl | rfl := hk
  all_goals
    rw [levelTail, if_neg (by decide)]
    cases rest with
    | nil => rw [chain]
    | cons l rest => rw [chain]; rfl

end Tail

section Unary

variable {nested : Reader Expr} {m l : Lexeme} {rest rest' : List Lexeme} {left : Expr}

theorem unaryLevel_number (hm : m.token = .symbol .minus) (hl : isNumber l.token = true)
    {value : Literal} (h : numberLiteral true l rest = .ok (value, rest')) :
    unaryLevel nested (m :: l :: rest) = .ok (.literal value, rest') := by
  obtain ⟨_, span⟩ := m
  cases hm
  rw [unaryLevel, if_pos hl]
  change (numberLiteral true l rest >>= fun p => Except.ok (Expr.literal p.1, p.2)) = _
  rw [h]
  rfl

theorem unaryLevel_minus (hm : m.token = .symbol .minus) (hl : isNumber l.token = false)
    (h : unaryLevel nested (l :: rest) = .ok (left, rest')) :
    unaryLevel nested (m :: l :: rest) = .ok (.unary .neg left, rest') := by
  obtain ⟨_, span⟩ := m
  cases hm
  rw [unaryLevel, if_neg (by simp [hl]), h]
  rfl

theorem unaryLevel_primary (hm : m.token ≠ .symbol .minus) :
    unaryLevel nested (m :: rest) = primary nested (m :: rest) := by
  unfold unaryLevel
  split
  · rename_i heq
    cases heq
    exact absurd rfl hm
  · rename_i heq
    cases heq
    exact absurd rfl hm
  · rfl

theorem notLevel_comparison (hm : m.token ≠ .keyword .not) :
    notLevel nested (m :: rest) = comparisonLevel nested (m :: rest) := by
  unfold notLevel
  split
  · rename_i heq
    cases heq
    exact absurd rfl hm
  · rfl

theorem notLevel_not (hm : m.token = .keyword .not)
    (h : notLevel nested rest = .ok (left, rest')) :
    notLevel nested (m :: rest) = .ok (.unary .not left, rest') := by
  obtain ⟨_, span⟩ := m
  cases hm
  rw [notLevel, h]
  rfl

end Unary

section Levels

variable {nested : Reader Expr} {k : Nat} {left : Expr} {ls rest : List Lexeme}

/-- Only the level of `NOT` reads a `NOT`. -/
theorem notLevel_eq (h : comparisonLevel nested ls = .ok (left, rest)) :
    notLevel nested ls = comparisonLevel nested ls := by
  cases ls with
  | nil => rfl
  | cons m ls =>
    refine notLevel_comparison fun hm => ?_
    obtain ⟨_, span⟩ := m
    cases hm
    cases h

/-- Only the level of signs reads a minus sign. -/
theorem unaryLevel_eq (h : primary nested ls = .ok (left, rest)) :
    unaryLevel nested ls = primary nested ls := by
  cases ls with
  | nil => rfl
  | cons m ls =>
    refine unaryLevel_primary fun hm => ?_
    obtain ⟨_, span⟩ := m
    cases hm
    cases h

/-- A level that sees no operator of its own is the next one. -/
theorem level_step (h1 : 1 ≤ k) (h8 : k < 8) (h : level nested (k + 1) ls = .ok (left, rest)) :
    level nested k ls = levelTail nested k left rest := by
  obtain rfl | rfl | rfl | rfl | rfl | rfl | rfl :
      k = 1 ∨ k = 2 ∨ k = 3 ∨ k = 4 ∨ k = 5 ∨ k = 6 ∨ k = 7 := by
    omega
  case inr.inr.inl =>
    rw [levelTail_of_closed (Or.inl rfl)]
    exact (notLevel_eq h).trans h
  case inr.inr.inr.inr.inr.inr =>
    rw [levelTail_of_closed (Or.inr (Or.inl rfl))]
    exact (unaryLevel_eq h).trans h
  all_goals exact Reads.bind_eq h

end Levels

theorem reads_nullTest (negated : Bool) {follow : List Token} :
    Reads nullTest (nullTestTokens negated) (· = negated) follow := by
  cases negated with
  | true =>
    refine .step takes_eat ?_
    rintro _ rfl
    exact .step takes_keyword fun _ _ => .pure rfl
  | false =>
    refine .look (looks_eat (by simp [nullTestTokens, upNext])) ?_
    rintro _ rfl
    exact .step takes_keyword fun _ _ => .pure rfl

namespace Grammar.Denotes

variable {negative : Bool} {t : Token} {value : Literal}

theorem isNumber_eq_true (h : Denotes negative t value) : isNumber t = true := by
  cases h <;> rfl

theorem reads {l : Lexeme} (h : Denotes negative l.token value) {follow : List Token} :
    Reads (numberLiteral negative l) [] (· = value) follow := by
  generalize hl : l.token = t at h
  unfold numberLiteral
  rw [hl]
  cases h with
  | decimal digits => exact .pure rfl
  | integer hvalue hlow hhigh =>
    simp only [← hvalue]
    rw [if_pos (by constructor <;> omega)]
    exact .pure rfl

end Grammar.Denotes

/-- At level `k` the tokens are read as `v`, and then the level goes on. -/
def ReadAt (k depth : Nat) (ts : List Token) (v : Expr) : Prop :=
  ∀ ls rest, ls.map Lexeme.token = ts → Stops (k + 1) rest →
    level (exprWithin depth) k (ls ++ rest) = levelTail (exprWithin depth) k v rest

namespace ReadAt

variable {k depth : Nat} {ts us : List Token} {v w : Expr}

theorem tighter (h : ReadAt (k + 1) depth ts v) (h1 : 1 ≤ k) (h8 : k < 8) :
    ReadAt k depth ts v := by
  intro ls rest hls hstop
  have hnext := h ls rest hls (hstop.mono (Nat.le_succ _))
  rw [levelTail_stop hstop] at hnext
  exact level_step h1 h8 hnext

theorem binary {op : BinaryOp} {t : Token} (ht : op.WrittenAs t)
    (hl : ReadAt op.precedence depth ts v) (hr : ReadAt (op.precedence + 1) depth us w) :
    ReadAt op.precedence depth (ts ++ t :: us) (.binary op v w) := by
  intro ls rest hls hstop
  obtain ⟨first, following, rfl, hfirst, hls⟩ := List.map_eq_append_iff.mp hls
  obtain ⟨l, last, rfl, rfl, hlast⟩ := List.map_eq_cons_iff.mp hls
  have hop : Stops (op.precedence + 1) (l :: (last ++ rest)) := by
    intro m hm
    cases hm
    rw [opLevel_written ht]
    exact Nat.lt_succ_self _
  have hright := hr last rest hlast (hstop.mono (Nat.le_succ _))
  rw [levelTail_stop hstop] at hright
  rw [List.append_assoc, List.cons_append, hl first _ hfirst hop]
  exact levelTail_binary ht hright (by simp)

theorem isNull {negated : Bool} (h : ReadAt 4 depth ts v) :
    ReadAt 4 depth (ts ++ .keyword .is :: nullTestTokens negated) (.isNull v negated) := by
  intro ls rest hls hstop
  obtain ⟨first, following, rfl, hfirst, hls⟩ := List.map_eq_append_iff.mp hls
  obtain ⟨l, last, rfl, hl, hlast⟩ := List.map_eq_cons_iff.mp hls
  obtain ⟨_, hnull, rfl⟩ := reads_nullTest negated last rest hlast (.own rest)
  have his : Stops 5 (l :: (last ++ rest)) := by
    intro m hm
    cases hm
    rw [hl]
    decide
  rw [List.append_assoc, List.cons_append, h first _ hfirst his]
  exact levelTail_isNull hl hnull (by simp)

theorem not (h : ReadAt 3 depth ts v) :
    ReadAt 3 depth (.keyword .not :: ts) (.unary .not v) := by
  intro ls rest hls hstop
  obtain ⟨l, last, rfl, hl, hlast⟩ := List.map_eq_cons_iff.mp hls
  have hoperand := h last rest hlast hstop
  rw [levelTail_of_closed (Or.inl rfl)] at hoperand ⊢
  exact notLevel_not hl hoperand

theorem signed {t : Token} {value : Literal} (h : Denotes true t value) :
    ReadAt 7 depth [.symbol .minus, t] (.literal value) := by
  intro ls rest hls _
  obtain ⟨m, _, rfl, hm, hls⟩ := List.map_eq_cons_iff.mp hls
  obtain ⟨l, _, rfl, rfl, hnil⟩ := List.map_eq_cons_iff.mp hls
  cases List.map_eq_nil_iff.mp hnil
  obtain ⟨_, hvalue, rfl⟩ := h.reads [] rest rfl (.own rest)
  rw [levelTail_of_closed (Or.inr (Or.inl rfl))]
  exact unaryLevel_number hm h.isNumber_eq_true hvalue

theorem neg {t : Token} (ht : isNumber t = false) (h : ReadAt 7 depth (t :: ts) v) :
    ReadAt 7 depth (.symbol .minus :: t :: ts) (.unary .neg v) := by
  intro ls rest hls hstop
  obtain ⟨m, last, rfl, hm, hlast⟩ := List.map_eq_cons_iff.mp hls
  have hoperand := h last rest hlast hstop
  obtain ⟨l, _, rfl, rfl, -⟩ := List.map_eq_cons_iff.mp hlast
  rw [levelTail_of_closed (Or.inr (Or.inl rfl))] at hoperand ⊢
  exact unaryLevel_minus hm ht hoperand

/-- What a primary reads, unless a parenthesis or a dot follows, is read at the tightest level. -/
theorem of_primary
    (h : ∀ follow, .symbol .lparen ∉ follow → .symbol .dot ∉ follow →
      Reads (primary (exprWithin depth)) ts (· = v) follow) : ReadAt 8 depth ts v := by
  intro ls rest hls hstop
  have hfollow : ∀ t ∈ (rest.head?.map Lexeme.token).toList, opLevel t < 9 := by
    intro t ht
    obtain ⟨l, hl, rfl⟩ := Option.map_eq_some_iff.mp (Option.mem_toList.mp ht)
    exact hstop l hl
  obtain ⟨_, ha, rfl⟩ := h (rest.head?.map Lexeme.token).toList
    (fun hmem => absurd (hfollow _ hmem) (by decide))
    (fun hmem => absurd (hfollow _ hmem) (by decide)) ls rest hls (.own rest)
  rw [levelTail_of_closed (Or.inr (Or.inr rfl))]
  exact ha

end ReadAt

/-- The reader for nested expressions reads the phrase. -/
structure ReadBy (nested : Reader Expr) (a : Phrase) : Prop where
  derives : Derives 1 a.tokens a.value
  reads : Reads nested a.tokens (· = a.value) exprFollow

theorem ReadBy.of_readAt {a : Phrase} {depth : Nat} (hd : Derives 1 a.tokens a.value)
    (h : ∀ depth, a.tokens.length ≤ depth + 1 → ReadAt 1 depth a.tokens a.value)
    (hdepth : a.tokens.length ≤ depth) : ReadBy (exprWithin depth) a := by
  refine ⟨hd, ?_⟩
  cases depth with
  | zero => exact absurd (List.length_eq_zero_iff.mp (Nat.le_zero.mp hdepth)) hd.ne_nil
  | succ depth =>
    intro ls rest hls hnext
    have hread := h depth hdepth ls rest hls (hnext.stops.mono (by decide))
    exact ⟨_, hread.trans (levelTail_stop hnext.stops), rfl⟩

section Primary

variable {nested : Reader Expr} {follow : List Token}

theorem reads_columnTail {word : String} (hdot : .symbol .dot ∉ follow) :
    Reads (columnTail word) [] (· = .column none word) follow := by
  refine .look (looks_eat hdot) ?_
  rintro _ rfl
  exact .pure rfl

theorem reads_qualified {t : Token} {n : String} (ht : t.nameWord? = some n) (word : String) :
    Reads (columnTail word) [.symbol .dot, t] (· = .column (some word) n) follow := by
  refine .step takes_eat ?_
  rintro _ rfl
  refine .step (takes_nameWord ht _) ?_
  rintro _ ⟨place, rfl⟩
  exact .pure rfl

theorem reads_column {t : Token} {ts : List Token} {word : String} {v : Expr}
    (ht : t.nameWord? = some word) (hparen : .symbol .lparen ∉ upNext ts follow)
    (h : Reads (columnTail word) ts (· = v) follow) :
    Reads (primary nested) (t :: ts) (· = v) follow := by
  refine .step (takes_next _) fun l hl => ?_
  rw [hl]
  cases t with
  | name word =>
    cases ht
    refine .look (looks_eat hparen) ?_
    rintro _ rfl
    exact h
  | quotedName word =>
    cases ht
    exact h
  | _ => cases ht

theorem reads_parenthesized {a : Phrase} (h : ReadBy nested a) :
    Reads (primary nested) (.symbol .lparen :: (a.tokens ++ [Token.symbol .rparen])) (· = a.value)
      follow := by
  refine .step (takes_next _) fun l hl => ?_
  rw [hl]
  refine h.reads.bind (upNext_cons (by decide)) ?_
  rintro _ rfl
  exact .step takes_symbol fun _ _ => .pure rfl

theorem reads_number {t : Token} {value : Literal} (h : Denotes false t value) :
    Reads (primary nested) [t] (· = .literal value) follow := by
  refine .step (takes_next _) fun l hl => ?_
  have hnumber : Reads (Expr.literal <$> numberLiteral false l) [] (· = .literal value) follow :=
    Reads.map (Denotes.reads (hl ▸ h)) fun _ h => congrArg Expr.literal h
  rw [hl]
  cases h with
  | decimal _ => exact hnumber
  | integer _ _ _ => exact hnumber

theorem Grammar.Derives.not_upNext {k : Nat} {ts : List Token} {e : Expr} (h : Derives k ts e)
    {t : Token} (ht : startsExpr t = false) (us : List Token) : t ∉ upNext (ts ++ us) follow := by
  obtain ⟨u, vs, rfl, hstart⟩ := h.head
  rw [List.cons_append, upNext, List.mem_singleton]
  rintro rfl
  rw [hstart] at ht
  cases ht

theorem reads_call {name : String} {args : List Phrase} (h : ∀ a ∈ args, ReadBy nested a) :
    Reads (primary nested) (.name name :: .symbol .lparen ::
        (commaTokens (args.map Phrase.tokens) ++ [Token.symbol .rparen]))
      (· = .call name (args.map Phrase.value)) follow := by
  refine .step (takes_next _) fun l hl => ?_
  rw [hl]
  refine .step takes_eat ?_
  rintro _ rfl
  cases args with
  | nil =>
    refine .look looks_isAt ?_
    rintro _ rfl
    exact .pure_bind (.step takes_symbol fun _ _ => .pure rfl)
  | cons a as =>
    have hclose : .symbol .rparen ∉
        upNext (commaTokens ((a :: as).map Phrase.tokens) ++ [Token.symbol .rparen]) follow := by
      rw [List.map_cons, commaTokens, separated, List.append_assoc]
      exact (h a List.mem_cons_self).derives.not_upNext rfl _
    refine .look (looks_not_isAt hclose) ?_
    rintro _ rfl
    have hargs : ∀ x ∈ a :: as, Reads nested x.tokens (· = x.value)
        [.symbol .comma, .symbol .rparen] := fun x hx => (h x hx).reads.weaken (by decide)
    refine (reads_sepBy1 (List.cons_ne_nil _ _) (by decide) hargs).bind (List.Subset.refl _) ?_
    rintro _ rfl
    exact .step takes_symbol fun _ _ => .pure rfl

theorem branchTokens_start (bs : List (Phrase × Phrase)) : ∀ b ∈ bs,
    upNext (branchTokens b) [] ⊆ [.keyword .when] ∧ branchTokens b ≠ [] :=
  fun _ _ => ⟨List.Subset.refl _, List.cons_ne_nil _ _⟩

theorem reads_whenBranch {b : Phrase × Phrase} (h : ReadBy nested b.1 ∧ ReadBy nested b.2) :
    Reads (whenBranch nested) (branchTokens b) (· = (b.1.value, b.2.value)) exprFollow := by
  refine .step takes_keyword fun _ _ => h.1.reads.bind (upNext_cons (by decide)) ?_
  rintro _ rfl
  refine .step takes_keyword fun _ _ => h.2.reads.last ?_
  rintro _ rfl
  exact .pure rfl

theorem reads_moreBranches {bs : List (Phrase × Phrase)}
    (h : ∀ b ∈ bs, ReadBy nested b.1 ∧ ReadBy nested b.2) (hfollow : follow ⊆ exprFollow)
    (hwhen : .keyword .when ∉ follow) :
    Reads (moreBranches nested) (bs.flatMap branchTokens)
      (· = bs.map fun b => (b.1.value, b.2.value)) follow := by
  rw [moreBranches_eq_many]
  refine reads_many (branchTokens_start bs) (fun b hb => ?_) ?_
  · refine .look looks_isAt ?_
    rintro _ rfl
    have hsubset : [Token.keyword .when] ++ follow ⊆ exprFollow :=
      List.cons_subset.mpr ⟨by decide, hfollow⟩
    exact ((reads_whenBranch (h b hb)).weaken hsubset).map fun _ h => congrArg some h
  · refine .look (looks_not_isAt hwhen) ?_
    rintro _ rfl
    exact .pure rfl

/-- The operand of a case, which has one unless a branch begins right away. -/
theorem reads_operand {β : Type} {k : Option Expr → Reader β} {us : List Token} {Q : β → Prop}
    {o : Option Phrase} (h : ∀ a ∈ o, ReadBy nested a)
    (hus : Reads (k (o.map Phrase.value)) (.keyword .when :: us) Q follow) :
    Reads (isAt (.keyword .when) >>= fun b =>
        if b = true then pure none >>= k else (some <$> nested) >>= k)
      (optionalTokens [] Phrase.tokens o ++ .keyword .when :: us) Q follow := by
  cases o with
  | none =>
    refine .look looks_isAt ?_
    rintro _ rfl
    exact .pure_bind hus
  | some a =>
    have hnested : Reads (some <$> nested) a.tokens (· = some a.value) exprFollow :=
      (h a rfl).reads.map fun _ h => congrArg some h
    refine .look (looks_not_isAt ((h a rfl).derives.not_upNext rfl _)) ?_
    rintro _ rfl
    refine hnested.bind (upNext_cons (by decide)) ?_
    rintro _ rfl
    exact hus

theorem reads_caseTail {operand otherwise : Option Phrase} {branches : List (Phrase × Phrase)}
    (hne : branches ≠ []) (ho : ∀ a ∈ operand, ReadBy nested a)
    (hb : ∀ b ∈ branches, ReadBy nested b.1 ∧ ReadBy nested b.2)
    (he : ∀ a ∈ otherwise, ReadBy nested a) :
    Reads (caseTail nested) (optionalTokens [] Phrase.tokens operand ++
        (branches.flatMap branchTokens ++
          (optionalTokens [.keyword .else] Phrase.tokens otherwise ++ [Token.keyword .end])))
      (· = .caseWhen (operand.map Phrase.value)
        (branches.map fun b => (b.1.value, b.2.value)) (otherwise.map Phrase.value)) follow := by
  cases branches with
  | nil => exact absurd rfl hne
  | cons b bs =>
    rw [List.forall_mem_cons] at hb
    rw [List.flatMap_cons, List.append_assoc]
    have hmore : Reads (moreBranches nested) (bs.flatMap branchTokens)
        (· = bs.map fun b => (b.1.value, b.2.value)) [.keyword .else, .keyword .end] :=
      reads_moreBranches hb.2 (by decide) (by decide)
    have helse : upNext
        (optionalTokens [.keyword .else] Phrase.tokens otherwise ++ [Token.keyword .end]) follow ⊆
          [.keyword .else, .keyword .end] := by
      cases otherwise with
      | none => exact upNext_cons (by decide)
      | some e => exact upNext_cons (by decide)
    refine reads_operand ho ?_
    refine (reads_whenBranch hb.1).bind ?_ ?_
    · rw [upNext_append]
      exact List.Subset.trans (upNext_flatMap (branchTokens_start bs))
        (List.append_subset.mpr ⟨by decide, List.Subset.trans helse (by decide)⟩)
    rintro _ rfl
    refine hmore.bind helse ?_
    rintro _ rfl
    refine reads_optional (fun a ha => (he a ha).reads) (upNext_cons (by decide))
      (by simp [upNext]) ?_
    exact .step takes_keyword fun _ _ => .pure rfl

end Primary

section Lengths

theorem length_argument {args : List Phrase} {a : Phrase} (ha : a ∈ args) :
    a.tokens.length ≤ (commaTokens (args.map Phrase.tokens)).length := by
  cases args with
  | nil => cases ha
  | cons arg args =>
    rw [List.map_cons, commaTokens, separated, List.length_append]
    rcases List.mem_cons.mp ha with rfl | ha
    · exact Nat.le_add_right _ _
    · have hmem : [Token.symbol .comma] ++ a.tokens ∈
          (args.map Phrase.tokens).map ([Token.symbol .comma] ++ ·) :=
        List.mem_map_of_mem (List.mem_map_of_mem ha)
      have hpart := (List.sublist_flatten_of_mem hmem).length_le
      rw [← List.flatMap_def, List.length_append] at hpart
      omega

theorem length_branch {bs : List (Phrase × Phrase)} {b : Phrase × Phrase} (hb : b ∈ bs) :
    b.1.tokens.length + b.2.tokens.length ≤ (bs.flatMap branchTokens).length := by
  have hmem : branchTokens b ∈ bs.map branchTokens := List.mem_map_of_mem hb
  have hpart := (List.sublist_flatten_of_mem hmem).length_le
  simp only [branchTokens, List.length_append, List.length_cons, List.length_nil] at hpart
  rw [List.flatMap_def]
  omega

end Lengths

namespace Grammar.Derives

variable {k : Nat} {ts : List Token} {e : Expr}

/-- Each level finds what is derived at it, with enough depth for what nests in it. -/
theorem readAt (h : Derives k ts e) : ∀ depth, ts.length ≤ depth + 1 → ReadAt k depth ts e := by
  induction h with
  | tighter h1 h8 _ ih => exact fun depth hdepth => (ih depth hdepth).tighter h1 h8
  | binary ht _ _ ihLeft ihRight =>
    intro depth hdepth
    rw [List.length_append, List.length_cons] at hdepth
    exact .binary ht (ihLeft depth (by omega)) (ihRight depth (by omega))
  | isNull negated _ ih =>
    intro depth hdepth
    rw [List.length_append, List.length_cons] at hdepth
    exact (ih depth (by omega)).isNull
  | not _ ih => exact fun depth hdepth => (ih depth (Nat.le_of_succ_le hdepth)).not
  | signed h => exact fun _ _ => .signed h
  | neg ht _ ih => exact fun depth hdepth => (ih depth (Nat.le_of_succ_le hdepth)).neg ht
  | number h => exact fun _ _ => .of_primary fun _ _ _ => reads_number h
  | column h =>
    exact fun _ _ => .of_primary fun _ hparen hdot => reads_column h hparen (reads_columnTail hdot)
  | qualified ht hu =>
    exact fun _ _ => .of_primary fun _ _ _ =>
      reads_column ht (by simp [upNext]) (reads_qualified hu _)
  | call name h ih =>
    intro depth hdepth
    simp only [List.length_append, List.length_cons, List.length_nil] at hdepth
    refine .of_primary fun _ _ _ => reads_call fun a ha => ?_
    have hpart := length_argument ha
    exact .of_readAt (h a ha) (ih a ha) (by omega)
  | @caseWhen operand otherwise branches hne ho hw ht he ihOperand ihWhen ihThen ihOtherwise =>
    intro depth hdepth
    simp only [List.length_append, List.length_cons, List.length_nil] at hdepth
    refine .of_primary fun _ _ _ => .step (takes_next _) fun l hl => ?_
    rw [hl]
    refine reads_caseTail hne (fun a ha => ?_) (fun b hb => ?_) (fun a ha => ?_)
    · cases ha
      simp only [optionalTokens, List.length_append, List.length_nil] at hdepth
      exact .of_readAt (ho a rfl) (ihOperand a rfl) (by omega)
    · have hpart := length_branch hb
      exact ⟨.of_readAt (hw b hb) (ihWhen b hb) (by omega),
        .of_readAt (ht b hb) (ihThen b hb) (by omega)⟩
    · cases ha
      simp only [optionalTokens, List.length_append] at hdepth
      exact .of_readAt (he a rfl) (ihOtherwise a rfl) (by omega)
  | @parenthesized ts e h ih =>
    intro depth hdepth
    simp only [List.length_append, List.length_cons, List.length_nil] at hdepth
    have hinner : ts.length ≤ depth := by omega
    have hnested : ReadBy (exprWithin depth) ⟨ts, e⟩ := .of_readAt h ih hinner
    exact .of_primary fun _ _ _ => reads_parenthesized hnested
  | _ =>
    refine fun _ _ => .of_primary fun _ _ _ => .step (takes_next _) fun l hl => ?_
    rw [hl]
    exact .pure rfl

/-- The reader finds what is derived, up to where an expression may end. -/
theorem reads (h : Derives 1 ts e) : Reads expr ts (· = e) exprFollow := by
  intro ls rest hls hnext
  have hdepth : ts.length ≤ (ls ++ rest).length := by
    rw [← hls, List.length_map, List.length_append]
    exact Nat.le_add_right _ _
  have hread : ReadBy (exprWithin (ls ++ rest).length) ⟨ts, e⟩ := .of_readAt h h.readAt hdepth
  exact hread.reads ls rest hls hnext

end Grammar.Derives

end Schemata
