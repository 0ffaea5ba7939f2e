import Schemata.Grammar.Schema

/-! The loops of the readers are one loop, which takes items for as long as there is a further
one. -/
namespace Schemata.Grammar

open Reader

variable {α : Type}

/-- Items up to where there is no further one. -/
def many (item? : Reader (Option α)) (ts : List Lexeme) :
    Except Refusal (List α × List Lexeme) :=
  match item? ts with
  | .error e => .error e
  | .ok (none, rest) => .ok ([], rest)
  | .ok (some a, rest) =>
    if rest.length < ts.length then
      match many item? rest with
      | .error e => .error e
      | .ok (as, last) => .ok (a :: as, last)
    else .ok ([a], rest)
termination_by ts.length

/-- A further item after a separator, if the separator stands here. -/
def itemAfter? (sep : Symbol) (item : Reader α) : Reader (Option α) := do
  if ← eatSymbol sep then some <$> item else return none

/-- A further branch, if one begins here. -/
def whenBranch? (nested : Reader Expr) : Reader (Option (Expr × Expr)) := do
  if ← isAt (.keyword .when) then some <$> whenBranch nested else return none

theorem joins_eq_many : joins = many join? := by
  funext ts
  fun_induction joins ts <;> rw [many] <;> grind

theorem unions_eq_many : unions = many union? := by
  funext ts
  fun_induction unions ts <;> rw [many] <;> grind

theorem moreItems_eq_many (sep : Symbol) (item : Reader α) :
    moreItems sep item = many (itemAfter? sep item) := by
  have hnil : itemAfter? sep item [] = .ok (none, []) := rfl
  have hcons : ∀ l rest, itemAfter? sep item (l :: rest) =
      if l.token = .symbol sep then (item rest).map fun p => (some p.1, p.2)
      else .ok (none, l :: rest) := by
    intro l rest
    change (eatSymbol sep (l :: rest) >>= _) = _
    rw [eatSymbol, eat]
    split <;> rfl
  funext ts
  fun_induction moreItems sep item ts <;> rw [many] <;> grind [Except.map]

theorem moreBranches_eq_many (nested : Reader Expr) :
    moreBranches nested = many (whenBranch? nested) := by
  have hbranch : ∀ ts, whenBranch? nested ts =
      if ts.head?.map Lexeme.token = some (.keyword .when) then
        (whenBranch nested ts).map fun p => (some p.1, p.2)
      else .ok (none, ts) := by
    intro ts
    change (if decide (ts.head?.map Lexeme.token = some (Token.keyword .when)) = true then
      some <$> whenBranch nested else return none : Reader _) ts = _
    by_cases h : ts.head?.map Lexeme.token = some (.keyword .when)
    · rw [if_pos (decide_eq_true h), if_pos h]
      rfl
    · rw [if_neg (by simpa using h), if_neg h]
      rfl
  funext ts
  fun_induction moreBranches nested ts <;> rw [many] <;> grind [Except.map]

end Schemata.Grammar
