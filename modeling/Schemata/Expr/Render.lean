import Schemata.Expr

/-!
Expressions as text. Parentheses stand only where the order of precedence needs them; how names,
constants and concatenation are written is left to a style.
-/

namespace Schemata

structure Style where
  identifier : String → String
  column : Option String → String → String
  concat : String → String → String
  literal : Literal → String

/-- A style that writes every name through `identifier` and joins a qualifier with a dot. -/
def Style.ofIdentifier (identifier : String → String) : Style where
  identifier := identifier
  column
    | some q, name => identifier q ++ "." ++ identifier name
    | none, name => identifier name
  concat left right := left ++ " || " ++ right
  literal := Literal.text

/-- The schema language itself, with no name quoted. -/
def Style.plain : Style :=
  Style.ofIdentifier id

def parenthesize (wanted : Bool) (text : String) : String :=
  if wanted then "(" ++ text ++ ")" else text

def commaSeparated (items : List String) : String :=
  String.intercalate ", " items

namespace Expr

mutual

def render (s : Style) : Expr → String
  | literal value => s.literal value
  | column qualifier name => s.column qualifier name
  | parameter name => ":" ++ name
  | call name args => name ++ "(" ++ commaSeparated (renderAll s args) ++ ")"
  | caseWhen operand branches otherwise =>
    "CASE" ++ renderOption s " " operand ++ renderBranches s branches ++
      renderOption s " ELSE " otherwise ++ " END"
  | binary op left right =>
    let l := parenthesize (left.precedence < op.precedence) (render s left)
    let r := parenthesize (right.precedence ≤ op.precedence) (render s right)
    match op with
    | .concat => s.concat l r
    | op => l ++ " " ++ op.symbol ++ " " ++ r
  | unary op operand =>
    let inner := parenthesize (operand.precedence < op.precedence) (render s operand)
    match op with
    | .not => "NOT " ++ inner
    | .neg => if inner.toList.head? = some '-' then "- " ++ inner else "-" ++ inner
  | isNull operand negated =>
    let inner := parenthesize (operand.precedence ≤ 4) (render s operand)
    if negated then inner ++ " IS NOT NULL" else inner ++ " IS NULL"

def renderAll (s : Style) : List Expr → List String
  | [] => []
  | e :: es => render s e :: renderAll s es

/-- The expression, if there is one, after a lead. -/
def renderOption (s : Style) (lead : String) : Option Expr → String
  | none => ""
  | some e => lead ++ render s e

def renderBranches (s : Style) : List (Expr × Expr) → String
  | [] => ""
  | (a, b) :: rest =>
    " WHEN " ++ render s a ++ " THEN " ++ render s b ++ renderBranches s rest

end

theorem renderAll_eq_map (s : Style) (es : List Expr) : renderAll s es = es.map (render s) := by
  induction es with
  | nil => rfl
  | cons e es ih => simp [renderAll, ih]

def text (e : Expr) : String :=
  e.render .plain

end Expr

end Schemata
