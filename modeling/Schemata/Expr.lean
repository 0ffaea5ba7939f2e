import Schemata.Literal

/-!
Expressions of view selects, statement templates and delete actions.
-/

namespace Schemata

inductive BinaryOp where
  | or
  | and
  | eq
  | notEq
  | lt
  | ltEq
  | gt
  | gtEq
  | like
  | plus
  | minus
  | concat
  | multiply
  | divide
  deriving DecidableEq, Repr

namespace BinaryOp

def symbol : BinaryOp → String
  | or => "OR"
  | and => "AND"
  | eq => "="
  | notEq => "<>"
  | lt => "<"
  | ltEq => "<="
  | gt => ">"
  | gtEq => ">="
  | like => "LIKE"
  | plus => "+"
  | minus => "-"
  | concat => "||"
  | multiply => "*"
  | divide => "/"

/-- A larger number binds tighter; three is left to `NOT`. -/
def precedence : BinaryOp → Nat
  | or => 1
  | and => 2
  | eq | notEq | lt | ltEq | gt | gtEq | like => 4
  | plus | minus | concat => 5
  | multiply | divide => 6

end BinaryOp

inductive UnaryOp where
  | not
  | neg
  deriving DecidableEq, Repr

def UnaryOp.precedence : UnaryOp → Nat
  | not => 3
  | neg => 7

inductive Expr where
  | literal (value : Literal)
  | column (qualifier : Option String) (name : String)
  | parameter (name : String)
  | call (name : String) (args : List Expr)
  | caseWhen (operand : Option Expr) (branches : List (Expr × Expr)) (otherwise : Option Expr)
  | binary (op : BinaryOp) (left right : Expr)
  | unary (op : UnaryOp) (operand : Expr)
  | isNull (operand : Expr) (negated : Bool)
  deriving Repr

namespace Expr

mutual

/-- Whether two expressions are the same tree. -/
def same : Expr → Expr → Bool
  | literal a, literal b => a == b
  | column q n, column r m => q == r && n == m
  | parameter n, parameter m => n == m
  | call n as, call m bs => n == m && sameAll as bs
  | caseWhen o bs e, caseWhen p cs f => sameOption o p && sameBranches bs cs && sameOption e f
  | binary o a b, binary p c d => o == p && same a c && same b d
  | unary o a, unary p b => o == p && same a b
  | isNull a n, isNull b m => same a b && n == m
  | _, _ => false

def sameAll : List Expr → List Expr → Bool
  | [], [] => true
  | a :: as, b :: bs => same a b && sameAll as bs
  | _, _ => false

def sameOption : Option Expr → Option Expr → Bool
  | none, none => true
  | some a, some b => same a b
  | _, _ => false

def sameBranches : List (Expr × Expr) → List (Expr × Expr) → Bool
  | [], [] => true
  | (a, b) :: as, (c, d) :: bs => same a c && same b d && sameBranches as bs
  | _, _ => false

end

mutual

theorem same_iff : ∀ a b : Expr, same a b = true ↔ a = b
  | literal _, b => by cases b <;> simp [same]
  | column _ _, b => by cases b <;> simp [same]
  | parameter _, b => by cases b <;> simp [same]
  | call _ as, b => by cases b <;> simp [same, sameAll_iff as]
  | caseWhen o bs e, b => by
    cases b <;> simp [same, sameOption_iff o, sameBranches_iff bs, sameOption_iff e, and_assoc]
  | binary _ l r, b => by cases b <;> simp [same, same_iff l, same_iff r, and_assoc]
  | unary _ e, b => by cases b <;> simp [same, same_iff e]
  | isNull e _, b => by cases b <;> simp [same, same_iff e]

theorem sameAll_iff : ∀ as bs : List Expr, sameAll as bs = true ↔ as = bs
  | [], bs => by cases bs <;> simp [sameAll]
  | a :: as, bs => by cases bs <;> simp [sameAll, same_iff a, sameAll_iff as]

theorem sameOption_iff : ∀ a b : Option Expr, sameOption a b = true ↔ a = b
  | none, b => by cases b <;> simp [sameOption]
  | some a, b => by cases b <;> simp [sameOption, same_iff a]

theorem sameBranches_iff : ∀ as bs : List (Expr × Expr), sameBranches as bs = true ↔ as = bs
  | [], bs => by cases bs <;> simp [sameBranches]
  | (x, y) :: as, [] => by simp [sameBranches]
  | (x, y) :: as, (z, w) :: bs => by
    simp [sameBranches, same_iff x, same_iff y, sameBranches_iff as]

end

instance : DecidableEq Expr := fun a b =>
  decidable_of_iff (same a b = true) (same_iff a b)

/-- How tight the outermost construct binds; a negative integer binds like a minus sign. -/
def precedence : Expr → Nat
  | binary op _ _ => op.precedence
  | unary op _ => op.precedence
  | isNull _ _ => 4
  | literal (.integer value) => if value < 0 then UnaryOp.neg.precedence else 8
  | _ => 8

mutual

/-- The expression and all its parts, each before its own parts. -/
def nodes : Expr → List Expr
  | literal v => [literal v]
  | column q n => [column q n]
  | parameter n => [parameter n]
  | call n args => call n args :: nodesAll args
  | caseWhen o bs e => caseWhen o bs e :: (nodesOption o ++ nodesBranches bs ++ nodesOption e)
  | binary op l r => binary op l r :: (nodes l ++ nodes r)
  | unary op e => unary op e :: nodes e
  | isNull e n => isNull e n :: nodes e

def nodesAll : List Expr → List Expr
  | [] => []
  | e :: es => nodes e ++ nodesAll es

def nodesOption : Option Expr → List Expr
  | none => []
  | some e => nodes e

def nodesBranches : List (Expr × Expr) → List Expr
  | [] => []
  | (a, b) :: rest => nodes a ++ nodes b ++ nodesBranches rest

end

/-- The columns named, each with its qualifier, in reading order. -/
def columnRefs (e : Expr) : List (Option String × String) :=
  e.nodes.filterMap fun
    | column qualifier name => some (qualifier, name)
    | _ => none

def isParameter : Expr → Bool
  | parameter _ => true
  | _ => false

/-- Whether a placeholder stands anywhere in the expression. -/
def hasParameters (e : Expr) : Bool :=
  e.nodes.any isParameter

end Expr

end Schemata
