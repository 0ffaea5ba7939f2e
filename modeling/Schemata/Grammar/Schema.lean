import Schemata.Schema
import Schemata.Token.Lexer
import Schemata.Grammar.Table
import Schemata.Grammar.View

/-!
Reading a whole schema: statement after statement, with every mistake reported in one pass.
-/

namespace Schemata.Grammar

open Reader

/-- Adds what was read, unless an artifact of that kind has its name already. -/
def addOrDuplicate {α : Type} (kind : ArtifactKind) (name : String) (place : Span) (known : Bool)
    (add : α → Schema) (s : Schema) (a : α) : Recovering Schema :=
  if known then do
    Recovering.record (.duplicate kind name) place
    return s
  else return add a

/-- One statement with its semicolon. -/
def statement (s : Schema) : Recovering Schema := do
  expectKeyword .create
  let l ← next "TABLE, VIEW, or STATEMENT"
  match l.token with
  | .keyword .table =>
    let read ← table
    expectSymbol .semicolon
    match read with
    | none => return s
    | some (t, place) =>
      addOrDuplicate .table t.name place (s.findTable? t.name).isSome s.addTable s t
  | .keyword .view =>
    let read ← view
    expectSymbol .semicolon
    match read with
    | none => return s
    | some (v, place) =>
      addOrDuplicate .view v.name place (s.findView? v.name).isSome s.addView s v
  | .keyword .statement =>
    let (d, place) ← template
    expectSymbol .semicolon
    addOrDuplicate .statement d.name place (s.findStatement? d.name).isSome s.addStatement s d
  | _ => refuseLexeme (α := Schema) "TABLE, VIEW, or STATEMENT" l

/-- All statements. One that cannot be read is recorded and skipped. -/
def statements (s : Schema) (ts : List Lexeme) : List Refusal × Schema :=
  match ts with
  | [] => ([], s)
  | l :: rest =>
    match statement s (l :: rest) with
    | ⟨recorded, .ok (s', left)⟩ =>
      if left.length ≤ rest.length then
        let (more, last) := statements s' left
        (recorded ++ more, last)
      else (recorded, s')
    | ⟨recorded, .error e⟩ =>
      let (more, last) := statements s (skipStatementRest 0 rest)
      (recorded ++ e :: more, last)
termination_by ts.length
decreasing_by
  · simp only [List.length_cons]; omega
  · have := length_skipStatementRest_le 0 rest
    simp only [List.length_cons]; omega

/-- Where the last token ends. -/
def endOf (ts : List Lexeme) : Nat :=
  (ts.getLast?.map (·.span.stop)).getD 0

/-- The schema that a token list writes, or all mistakes in the order in which they are met. -/
def schemaOfLexemes (ts : List Lexeme) : Except (List Mistake) Schema :=
  match statements .empty ts with
  | ([], s) =>
    match s.build with
    | .ok s => .ok s
    | .error e => .error [⟨.invalidSchema e, ⟨0, 0⟩⟩]
  | (refusals, _) => .error (refusals.map (Refusal.locate (endOf ts)))

def strayMistakes (scanned : List Scanned) : List Mistake :=
  (scanned.filterMap Scanned.stray?).map fun (text, span) => ⟨.invalidToken text, span⟩

/-- The expression that a token list writes, to its end. -/
def exprOfLexemes (ts : List Lexeme) : Except Mistake Expr :=
  match (do
    let e ← expr
    if (← peek?).isSome then refuseHere (α := Unit) "end of expression"
    return e : Reader Expr) ts with
  | .ok (e, _) => .ok e
  | .error r => .error (r.locate (endOf ts))

end Schemata.Grammar

namespace Schemata

open Grammar

/-- The schema that a text writes, or its mistakes ordered by where they begin; of two mistakes at
one place a stray piece of text comes last. -/
def Schema.parse (source : String) : Except (List Mistake) Schema :=
  let scanned := scan source
  let stray := strayMistakes scanned
  match schemaOfLexemes (scanned.filterMap Scanned.lexeme?) with
  | .ok s => if stray.isEmpty then .ok s else .error stray
  | .error mistakes =>
    .error ((mistakes ++ stray).mergeSort fun a b => a.span.start ≤ b.span.start)

/-- The expression that a text writes. Stray pieces are reported alone. -/
def Expr.parse (source : String) : Except (List Mistake) Expr :=
  let scanned := scan source
  match strayMistakes scanned with
  | [] => (exprOfLexemes (scanned.filterMap Scanned.lexeme?)).mapError ([·])
  | stray => .error stray

end Schemata
