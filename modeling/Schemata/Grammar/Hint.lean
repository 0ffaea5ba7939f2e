import Schemata.Grammar.Dml

/-!
Reading hint blocks, and the optional clauses that follow a definition.
-/

namespace Schemata.Grammar

open Reader

def hintScope : Reader HintScope := do
  let l ← next "dialect name or ALL"
  match l.token with
  | .keyword .all => return .all
  | .name word =>
    match Dialect.ofKeyword? word with
    | some d => return .dialect d
    | none => refuse (.unknownDialect word) l.span
  | _ => refuseLexeme "dialect name or ALL" l

/-- A key that may stand on the target, with its place. -/
def hintKey (target : HintTarget) : Reader (HintKey × Span) := do
  let l ← next "hint key"
  match l.token with
  | .name word =>
    match HintKey.ofKeyword? word with
    | some key =>
      if key.allowedOn target then return (key, l.span)
      else refuse (.misplacedHint key target) l.span
    | none => refuse (.unknownHint word) l.span
  | _ => refuseLexeme "hint key" l

/-- A hint has a value exactly if its key takes one. -/
def hint (target : HintTarget) : Reader ScopedHint := do
  let scope ← hintScope
  let (key, place) ← hintKey target
  let value ← if ← eatSymbol .eq then some <$> expectString else pure none
  if !key.takesValue && value.isSome then refuse (.unexpectedHintValue key) place
  else
    match Hint.ofParts? key value with
    | some h => return ⟨scope, h⟩
    | none => refuse (.missingHintValue key) place

def hintBlock (target : HintTarget) : Recovering Hints := do
  expectKeyword .dbms
  expectKeyword .hints
  expectSymbol .lparen
  let hints ← Recovering.sepBy1 (fun (read : Hints) => do return read ++ [← hint target]) []
  expectSymbol .rparen
  return hints

/-- Reads clauses into `acc` until there is no further one. -/
def repeatClauses {σ : Type} (clause? : σ → Recovering (Option σ)) (acc : σ) : Recovering σ :=
  go acc
where
  go (acc : σ) (ts : List Lexeme) : Outcome σ :=
    match clause? acc ts with
    | ⟨recorded, .error e⟩ => ⟨recorded, .error e⟩
    | ⟨recorded, .ok (none, rest)⟩ => ⟨recorded, .ok (acc, rest)⟩
    | ⟨recorded, .ok (some acc', rest)⟩ =>
      if rest.length < ts.length then
        let later := go acc' rest
        ⟨recorded ++ later.recorded, later.result⟩
      else ⟨recorded, .ok (acc', rest)⟩
  termination_by ts.length

end Schemata.Grammar
