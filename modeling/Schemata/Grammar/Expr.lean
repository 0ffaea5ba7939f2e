import Schemata.Expr
import Schemata.Grammar.Reader

/-!
Reading expressions, one level of the order of precedence after the other. Only parentheses,
calls and cases hold whole expressions, so a reader for these is all that the levels need.
-/

namespace Schemata.Grammar

open Reader

/-- A number with its sign; an integer has to fit in sixty-four bits. -/
def numberLiteral (negative : Bool) (l : Lexeme) : Reader Literal :=
  let sign := if negative then "-" else ""
  match l.token with
  | .decimal digits => return .decimal (sign ++ digits)
  | .integer digits =>
    let value : Int := if negative then -(digitsValue digits : Int) else digitsValue digits
    if -0x8000000000000000 ≤ value ∧ value < 0x8000000000000000 then return .integer value
    else refuse (.invalidInteger (sign ++ digits)) l.span
  | _ => refuseLexeme "literal" l

/-- One branch: `WHEN a THEN b`. -/
def whenBranch (nested : Reader Expr) : Reader (Expr × Expr) := do
  expectKeyword .when
  let condition ← nested
  expectKeyword .then
  let value ← nested
  return (condition, value)

def moreBranches (nested : Reader Expr) (ts : List Lexeme) :
    Except Refusal (List (Expr × Expr) × List Lexeme) :=
  if ts.head?.map (·.token) = some (.keyword .when) then
    match whenBranch nested ts with
    | .error e => .error e
    | .ok (b, rest) =>
      if rest.length < ts.length then
        match moreBranches nested rest with
        | .error e => .error e
        | .ok (bs, last) => .ok (b :: bs, last)
      else .ok ([b], rest)
  else .ok ([], ts)
termination_by ts.length

/-- A case after its first word. -/
def caseTail (nested : Reader Expr) : Reader Expr := do
  let operand ← if ← isAt (.keyword .when) then pure none else some <$> nested
  let first ← whenBranch nested
  let others ← moreBranches nested
  let otherwise ← if ← eatKeyword .else then some <$> nested else pure none
  expectKeyword .end
  return .caseWhen operand (first :: others) otherwise

/-- A column, maybe with a qualifier. -/
def columnTail (word : String) : Reader Expr := do
  if ← eatSymbol .dot then
    let (column, _) ← expectName "column name"
    return .column (some word) column
  else return .column none word

/-- A call or a column. -/
def nameTail (nested : Reader Expr) (word : String) : Reader Expr := do
  if ← eatSymbol .lparen then
    let args ← if ← isAt (.symbol .rparen) then pure [] else sepBy1 .comma nested
    expectSymbol .rparen
    return .call word args
  else columnTail word

def primary (nested : Reader Expr) : Reader Expr := do
  let l ← next "expression"
  match l.token with
  | .keyword .null => return .literal .null
  | .string value => return .literal (.string value)
  | .integer _ | .decimal _ => .literal <$> numberLiteral false l
  | .parameter name => return .parameter name
  | .symbol .lparen => do
    let inner ← nested
    expectSymbol .rparen
    return inner
  | .keyword .case => caseTail nested
  | .name word => nameTail nested word
  | .quotedName word => columnTail word
  | _ => refuseLexeme "expression" l

def isNumber : Token → Bool
  | .integer _ | .decimal _ => true
  | _ => false

/-- The operand that was read, under an operator. -/
def underUnary (op : UnaryOp) (read : Except Refusal (Expr × List Lexeme)) :
    Except Refusal (Expr × List Lexeme) :=
  read.map fun (operand, rest) => (.unary op operand, rest)

theorem underUnary_ok {op : UnaryOp} {read : Except Refusal (Expr × List Lexeme)} {e : Expr}
    {rest : List Lexeme} (h : underUnary op read = .ok (e, rest)) :
    ∃ operand, read = .ok (operand, rest) ∧ e = .unary op operand := by
  cases read with
  | error r => cases h
  | ok p =>
    cases h
    exact ⟨p.1, rfl, rfl⟩

/-- Minus signs before a primary; one right before a number becomes its sign. -/
def unaryLevel (nested : Reader Expr) : Reader Expr
  | ⟨.symbol .minus, _⟩ :: l :: rest =>
    if isNumber l.token then (Expr.literal <$> numberLiteral true l) rest
    else underUnary .neg (unaryLevel nested (l :: rest))
  | ⟨.symbol .minus, _⟩ :: [] => primary nested []
  | ts => primary nested ts

/-- Further operands of one level, joined to the left. -/
def chain (op? : Token → Option BinaryOp) (operand : Reader Expr) (left : Expr)
    (ts : List Lexeme) : Except Refusal (Expr × List Lexeme) :=
  match ts with
  | [] => .ok (left, [])
  | l :: rest =>
    match op? l.token with
    | none => .ok (left, l :: rest)
    | some op =>
      match operand rest with
      | .error e => .error e
      | .ok (right, rest') =>
        if rest'.length ≤ rest.length then chain op? operand (.binary op left right) rest'
        else .ok (.binary op left right, rest')
termination_by ts.length
decreasing_by simp only [List.length_cons]; omega

def chained (op? : Token → Option BinaryOp) (operand : Reader Expr) : Reader Expr := do
  let left ← operand
  chain op? operand left

def multiplicativeOp? : Token → Option BinaryOp
  | .symbol .star => some .multiply
  | .symbol .slash => some .divide
  | _ => none

def additiveOp? : Token → Option BinaryOp
  | .symbol .plus => some .plus
  | .symbol .minus => some .minus
  | .symbol .concat => some .concat
  | _ => none

def comparisonOp? : Token → Option BinaryOp
  | .symbol .eq => some .eq
  | .symbol .notEq | .symbol .bangEq => some .notEq
  | .symbol .lt => some .lt
  | .symbol .ltEq => some .ltEq
  | .symbol .gt => some .gt
  | .symbol .gtEq => some .gtEq
  | .keyword .like => some .like
  | _ => none

def andOp? : Token → Option BinaryOp
  | .keyword .and => some .and
  | _ => none

def orOp? : Token → Option BinaryOp
  | .keyword .or => some .or
  | _ => none

def multiplicativeLevel (nested : Reader Expr) : Reader Expr :=
  chained multiplicativeOp? (unaryLevel nested)

def additiveLevel (nested : Reader Expr) : Reader Expr :=
  chained additiveOp? (multiplicativeLevel nested)

/-- After `IS`: `[NOT] NULL`; true if negated. -/
def nullTest : Reader Bool := do
  let negated ← eatKeyword .not
  expectKeyword .null
  return negated

/-- Further comparisons and null tests, joined to the left. -/
def comparisonTail (operand : Reader Expr) (left : Expr) (ts : List Lexeme) :
    Except Refusal (Expr × List Lexeme) :=
  match ts with
  | [] => .ok (left, [])
  | l :: rest =>
    if l.token = .keyword .is then
      match nullTest rest with
      | .error e => .error e
      | .ok (negated, rest') =>
        if rest'.length ≤ rest.length then comparisonTail operand (.isNull left negated) rest'
        else .ok (.isNull left negated, rest')
    else
      match comparisonOp? l.token with
      | none => .ok (left, l :: rest)
      | some op =>
        match operand rest with
        | .error e => .error e
        | .ok (right, rest') =>
          if rest'.length ≤ rest.length then
            comparisonTail operand (.binary op left right) rest'
          else .ok (.binary op left right, rest')
termination_by ts.length
decreasing_by all_goals simp only [List.length_cons]; omega

def comparisonLevel (nested : Reader Expr) : Reader Expr := do
  let left ← additiveLevel nested
  comparisonTail (additiveLevel nested) left

/-- A comparison after any number of `NOT`s. -/
def notLevel (nested : Reader Expr) : Reader Expr
  | ⟨.keyword .not, _⟩ :: rest => underUnary .not (notLevel nested rest)
  | ts => comparisonLevel nested ts

def andLevel (nested : Reader Expr) : Reader Expr :=
  chained andOp? (notLevel nested)

def orLevel (nested : Reader Expr) : Reader Expr :=
  chained orOp? (andLevel nested)

/-- An expression in which whole expressions nest less than `depth` deep. -/
def exprWithin : Nat → Reader Expr
  | 0 => refuseEnd "expression"
  | depth + 1 => orLevel (exprWithin depth)

/-- An expression. Each nested one follows a token of the outer one, so there are more tokens
than levels of nesting. -/
def expr : Reader Expr := fun ts =>
  exprWithin ts.length ts

end Schemata.Grammar
