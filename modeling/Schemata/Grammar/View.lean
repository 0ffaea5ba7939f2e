import Schemata.View
import Schemata.Grammar.Hint

/-!
Reading selects and views.
-/

namespace Schemata.Grammar

open Reader

/-- A name with an alias, if one follows. -/
def tableRef : Reader TableRef := do
  let (table, _) ← expectName "table name"
  if ← eatKeyword .as then
    let (other, _) ← expectName "table alias"
    return ⟨table, some other⟩
  match (← peek?).bind Token.nameWord? with
  | some _ =>
    let (other, _) ← expectName "table alias"
    return ⟨table, some other⟩
  | none => return ⟨table, none⟩

/-- The kind of join that begins here, up to the word `JOIN`. -/
def joinKind? : Reader (Option JoinKind) := do
  match ← peek? with
  | some (.keyword .join) => return some .inner
  | some (.keyword .inner) =>
    discard (eatKeyword .inner)
    return some .inner
  | some (.keyword .left) =>
    discard (eatKeyword .left)
    discard (eatKeyword .outer)
    return some .left
  | _ => return none

/-- A join, if one begins here. -/
def join? : Reader (Option Join) := do
  match ← joinKind? with
  | none => return none
  | some kind =>
    expectKeyword .join
    let table ← tableRef
    expectKeyword .on
    let on ← expr
    return some ⟨kind, table, on⟩

def joins (ts : List Lexeme) : Except Refusal (List Join × List Lexeme) :=
  match join? ts with
  | .error e => .error e
  | .ok (none, rest) => .ok ([], rest)
  | .ok (some j, rest) =>
    if rest.length < ts.length then
      match joins rest with
      | .error e => .error e
      | .ok (js, last) => .ok (j :: js, last)
    else .ok ([j], rest)
termination_by ts.length

def select : Reader Select := do
  expectKeyword .select
  let items ← sepBy1 .comma expr
  expectKeyword .from
  let source ← tableRef
  let joined ← joins
  let filter ← optionalFilter
  return ⟨items, source, joined, filter⟩

/-- A further select, if a union begins here. -/
def union? : Reader (Option (UnionKind × Select)) := do
  if ← eatKeyword .union then
    let kind := if ← eatKeyword .all then UnionKind.all else .distinct
    let s ← select
    return some (kind, s)
  else return none

def unions (ts : List Lexeme) : Except Refusal (List (UnionKind × Select) × List Lexeme) :=
  match union? ts with
  | .error e => .error e
  | .ok (none, rest) => .ok ([], rest)
  | .ok (some u, rest) =>
    if rest.length < ts.length then
      match unions rest with
      | .error e => .error e
      | .ok (us, last) => .ok (u :: us, last)
    else .ok ([u], rest)
termination_by ts.length

def query : Reader Query := do
  let first ← select
  let others ← unions
  return ⟨first, others⟩

/-- A clause after the query, added to the draft; `none` if there is no further one. -/
def viewClause? (draft : ViewDraft) : Recovering (Option ViewDraft) := do
  match ← peek? with
  | some (.keyword .comment) =>
    expectKeyword .comment
    let comment ← expectString
    return some { draft with comment := some comment }
  | some (.keyword .dbms) =>
    let hints ← hintBlock .view
    return some { draft with hints }
  | _ => return none

/-- A view with the place of its name, or `none` if a mistake was recorded for it. -/
def view : Recovering (Option (View × Span)) := do
  let (name, place) ← expectName "view name"
  let columns ← columnList
  expectKeyword .as
  let q ← query
  let selects := (none, q.first) :: q.unions.map fun (kind, s) => (some kind, s)
  let (draft, clean) ← (repeatClauses viewClause? { name, columns, selects }).noting
  if !clean then return none
  match draft.build with
  | .ok v => return some (v, place)
  | .error e =>
    Recovering.record (.invalidSchema e) place
    return none

end Schemata.Grammar
