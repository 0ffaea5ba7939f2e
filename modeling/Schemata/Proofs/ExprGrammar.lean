import Schemata.Grammar.Expr
import Schemata.Proofs.TokenForm

/-!
The grammar of expressions, as rules on token lists. There is a level for each rank of precedence:
1 for `OR`, 2 for `AND`, 3 for `NOT`, 4 for comparisons, 5 for sums, 6 for products, 7 for signs,
and 8 for what holds together by itself.
-/

namespace Schemata

open Reader (digitsValue)

/-- The tokens that may stand for the operator. -/
def BinaryOp.WrittenAs (op : BinaryOp) (t : Token) : Prop :=
  t = op.token ∨ op = .notEq ∧ t = .symbol .bangEq

namespace Grammar

/-- The number that a token denotes, with a minus sign before it or without; a whole number has to
fit into 64 bits together with its sign. -/
inductive Denotes (negative : Bool) : Token → Literal → Prop
  | decimal (digits : String) :
    Denotes negative (.decimal digits) (.decimal ((if negative then "-" else "") ++ digits))
  | integer {digits : String} {value : Int}
    (hvalue : value = if negative then -(digitsValue digits : Int) else digitsValue digits)
    (hlow : -9223372036854775808 ≤ value) (hhigh : value ≤ 9223372036854775807) :
    Denotes negative (.integer digits) (.integer value)

/-- Tokens together with the expression that they write. -/
structure Phrase where
  tokens : List Token
  value : Expr

/-- One branch of a case. -/
def branchTokens (b : Phrase × Phrase) : List Token :=
  [Token.keyword .when] ++ (b.1.tokens ++ ([Token.keyword .then] ++ b.2.tokens))

def nullTestTokens (negated : Bool) : List Token :=
  if negated then [.keyword .not, .keyword .null] else [.keyword .null]

/-- The tokens write the expression at the level. -/
inductive Derives : Nat → List Token → Expr → Prop
  | tighter {k : Nat} {ts : List Token} {e : Expr} (h1 : 1 ≤ k) (h8 : k < 8)
    (h : Derives (k + 1) ts e) : Derives k ts e
  | binary {op : BinaryOp} {t : Token} {ts us : List Token} {left right : Expr}
    (ht : op.WrittenAs t) (hl : Derives op.precedence ts left)
    (hr : Derives (op.precedence + 1) us right) :
    Derives op.precedence (ts ++ t :: us) (.binary op left right)
  | isNull {ts : List Token} {e : Expr} (negated : Bool) (h : Derives 4 ts e) :
    Derives 4 (ts ++ .keyword .is :: nullTestTokens negated) (.isNull e negated)
  | not {ts : List Token} {e : Expr} (h : Derives 3 ts e) :
    Derives 3 (.keyword .not :: ts) (.unary .not e)
  | signed {t : Token} {value : Literal} (h : Denotes true t value) :
    Derives 7 [.symbol .minus, t] (.literal value)
  | neg {t : Token} {ts : List Token} {e : Expr} (ht : isNumber t = false)
    (h : Derives 7 (t :: ts) e) : Derives 7 (.symbol .minus :: t :: ts) (.unary .neg e)
  | null : Derives 8 [.keyword .null] (.literal .null)
  | string (text : String) : Derives 8 [.string text] (.literal (.string text))
  | number {t : Token} {value : Literal} (h : Denotes false t value) :
    Derives 8 [t] (.literal value)
  | parameter (name : String) : Derives 8 [.parameter name] (.parameter name)
  | column {t : Token} {name : String} (h : t.nameWord? = some name) :
    Derives 8 [t] (.column none name)
  | qualified {t u : Token} {qualifier name : String} (ht : t.nameWord? = some qualifier)
    (hu : u.nameWord? = some name) :
    Derives 8 [t, .symbol .dot, u] (.column (some qualifier) name)
  | call (name : String) {args : List Phrase} (h : ∀ a ∈ args, Derives 1 a.tokens a.value) :
    Derives 8 (.name name :: .symbol .lparen ::
      (commaTokens (args.map Phrase.tokens) ++ [Token.symbol .rparen]))
      (.call name (args.map Phrase.value))
  | caseWhen {operand otherwise : Option Phrase} {branches : List (Phrase × Phrase)}
    (hne : branches ≠ []) (ho : ∀ a ∈ operand, Derives 1 a.tokens a.value)
    (hw : ∀ b ∈ branches, Derives 1 b.1.tokens b.1.value)
    (ht : ∀ b ∈ branches, Derives 1 b.2.tokens b.2.value)
    (he : ∀ a ∈ otherwise, Derives 1 a.tokens a.value) :
    Derives 8 (.keyword .case :: (optionalTokens [] Phrase.tokens operand ++
      (branches.flatMap branchTokens ++
        (optionalTokens [.keyword .else] Phrase.tokens otherwise ++ [Token.keyword .end]))))
      (.caseWhen (operand.map Phrase.value)
        (branches.map fun b => (b.1.value, b.2.value)) (otherwise.map Phrase.value))
  | parenthesized {ts : List Token} {e : Expr} (h : Derives 1 ts e) :
    Derives 8 (.symbol .lparen :: (ts ++ [Token.symbol .rparen])) e

/-- A token that an expression may start with. -/
def startsExpr : Token → Bool
  | .keyword .null | .keyword .case | .keyword .not | .symbol .lparen | .symbol .minus => true
  | .keyword _ | .symbol _ => false
  | _ => true

namespace Derives

variable {k p : Nat} {ts : List Token} {e : Expr}

theorem head (h : Derives k ts e) : ∃ t us, ts = t :: us ∧ startsExpr t = true := by
  have hname : ∀ {t : Token} {name : String}, t.nameWord? = some name → startsExpr t = true := by
    intro t name h
    cases t with
    | name _ | quotedName _ => rfl
    | _ => cases h
  induction h with
  | tighter _ _ _ ih => exact ih
  | binary _ _ _ ihLeft _ =>
    obtain ⟨t, us, rfl, ht⟩ := ihLeft
    exact ⟨t, _, rfl, ht⟩
  | isNull _ _ ih =>
    obtain ⟨t, us, rfl, ht⟩ := ih
    exact ⟨t, _, rfl, ht⟩
  | number h => cases h <;> exact ⟨_, _, rfl, rfl⟩
  | column h => exact ⟨_, _, rfl, hname h⟩
  | qualified ht _ => exact ⟨_, _, rfl, hname ht⟩
  | _ => exact ⟨_, _, rfl, rfl⟩

theorem ne_nil (h : Derives k ts e) : ts ≠ [] := by
  obtain ⟨t, us, rfl, -⟩ := h.head
  exact List.cons_ne_nil _ _

/-- What is derived at one level is derived at all looser ones. -/
theorem looser (h : Derives p ts e) (hp : p ≤ 8) (h1 : 1 ≤ k) (hk : k ≤ p) : Derives k ts e := by
  obtain ⟨d, rfl⟩ := Nat.exists_eq_add_of_le hk
  clear hk
  induction d with
  | zero => exact h
  | succ d ih => exact ih (.tighter (by omega) (by omega) h) (by omega)

end Derives

end Grammar

end Schemata
