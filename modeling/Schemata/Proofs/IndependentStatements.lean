import Schemata.Proofs.StatementLocality

/-! Statements fail independently: after tokens that end with a complete statement, the next ones
are read as if they stood alone, whatever mistakes the first ones hold. -/
namespace Schemata

open Grammar

section Nesting

/-- How many parentheses are open after the tokens; `none` if one closes that was not opened. -/
def depthAfter? : Nat → List Lexeme → Option Nat
  | depth, [] => some depth
  | depth, l :: ts =>
    match l.token, depth with
    | .symbol .lparen, depth => depthAfter? (depth + 1) ts
    | .symbol .rparen, 0 => none
    | .symbol .rparen, depth + 1 => depthAfter? depth ts
    | _, depth => depthAfter? depth ts

/-- Parentheses are properly nested. -/
def Nested (ts : List Lexeme) : Prop :=
  depthAfter? 0 ts = some 0

instance (ts : List Lexeme) : Decidable (Nested ts) :=
  inferInstanceAs (Decidable (depthAfter? 0 ts = some 0))

def EndsStatement (ts : List Lexeme) : Prop :=
  ts.getLast?.map (·.token) = some (.symbol .semicolon)

instance (ts : List Lexeme) : Decidable (EndsStatement ts) :=
  inferInstanceAs (Decidable (ts.getLast?.map (·.token) = some (.symbol .semicolon)))

theorem EndsStatement.tail {l : Lexeme} {ts : List Lexeme} (h : EndsStatement (l :: ts))
    (hne : ts ≠ []) : EndsStatement ts := by
  rw [EndsStatement, List.getLast?_cons_of_ne_nil hne] at h
  exact h

theorem closing_of_depthAfter {depth : Nat} {ts : List Lexeme} (h : depthAfter? depth ts = some 0)
    (hend : EndsStatement ts) : Closing depth ts := by
  -- Only a semicolon can be the last token.
  have hnonempty : ∀ {l : Lexeme} {ts : List Lexeme}, EndsStatement (l :: ts) →
      l.token ≠ .symbol .semicolon → ts ≠ [] := by
    rintro l ts hend hl rfl
    exact hl (Option.some.inj hend)
  fun_induction depthAfter? depth ts with
  | case1 => cases hend
  | case2 l ts depth hl ih =>
    have hne : ts ≠ [] := hnonempty hend (by simp [hl])
    exact .opened hl (ih h (hend.tail hne))
  | case3 => cases h
  | case4 l ts depth hl ih =>
    have hne : ts ≠ [] := hnonempty hend (by simp [hl])
    exact .closed hl (ih h (hend.tail hne))
  | case5 l ts depth hopen hclose hcloses ih =>
    have hother : l.token ≠ .symbol .rparen := by
      intro hl
      cases depth with
      | zero => exact hclose hl rfl
      | succ depth => exact hcloses depth hl rfl
    by_cases hne : ts = []
    · subst hne
      cases h
      exact .last (Option.some.inj hend)
    · exact .other hopen hother (ih h (hend.tail hne))

end Nesting

section Turns

theorem skipStatementRest_create {more : List Lexeme} (h : more = [] ∨ StartsCreate more) :
    skipStatementRest 0 more = more := by
  rcases more with _ | ⟨l, more⟩
  · rfl
  · have hl : l.token = .keyword .create := Option.some.inj (h.resolve_left (List.cons_ne_nil _ _))
    simp [skipStatementRest, hl]

/-- After a mistake in a first token the next statement begins where it would without `more`. -/
theorem skipStatementRest_tail {l : Lexeme} {depth : Nat} {rest more : List Lexeme}
    (h : Closing depth (l :: rest)) (hmore : more = [] ∨ StartsCreate more) :
    skipStatementRest 0 (rest ++ more) = skipStatementRest 0 rest ++ more ∧
      (skipStatementRest 0 rest = [] ∨ ∃ d, Closing d (skipStatementRest 0 rest)) := by
  rcases h.tail with rfl | ⟨d, htail⟩
  · exact ⟨skipStatementRest_create hmore, Or.inl rfl⟩
  · exact skipStatementRest_append htail (Nat.zero_le d) more

/-- Statements are cut alike with and without those that follow. -/
theorem turns_append {ts more : List Lexeme} (h : ts = [] ∨ ∃ depth, Closing depth ts)
    (hmore : more = [] ∨ StartsCreate more) :
    turns (ts ++ more) = turns ts ++ turns more ∧
      ∀ turn ∈ turns ts, ∀ e ∈ turn.recorded, e.place.isSome := by
  -- Every turn takes a token, and leaves nothing or tokens that close again, at whatever depth.
  induction hn : ts.length using Nat.strongRecOn generalizing ts with
  | ind size ih =>
    rcases ts with _ | ⟨l, rest⟩
    · simp [turns]
    obtain ⟨depth, hclosing⟩ := h.resolve_left (List.cons_ne_nil _ _)
    have hshorter : ∀ {left : List Lexeme}, left.length ≤ rest.length → left.length < size :=
      fun hle => hn ▸ Nat.lt_succ_of_le hle
    have hsame := local_artifact (n := rest.length) ⟨depth, hclosing, Nat.le_refl _⟩ more
    rw [List.cons_append] at hsame ⊢
    rw [turns.eq_def (l :: rest), turns.eq_def (l :: (rest ++ more))]
    dsimp only
    generalize artifact (l :: rest) = o at hsame
    generalize artifact (l :: (rest ++ more)) = o' at hsame
    cases hsame with
    | refused hrecorded he =>
      obtain ⟨hskip, hleft⟩ := skipStatementRest_tail hclosing hmore
      have hlength := hshorter (length_skipStatementRest_le 0 rest)
      obtain ⟨hturns, hplaced⟩ := ih _ hlength hleft rfl
      dsimp only
      rw [hskip, hturns]
      refine ⟨rfl, List.forall_mem_cons.mpr ⟨?_, hplaced⟩⟩
      exact List.forall_mem_append.mpr ⟨hrecorded, List.forall_mem_singleton.mpr he⟩
    | @read recorded found left hrecorded hleft =>
      obtain ⟨hle, hclosed⟩ : left.length ≤ rest.length ∧ (left = [] ∨ ∃ d, Closing d left) := by
        rcases hleft with rfl | ⟨d, hwithin⟩
        · exact ⟨Nat.zero_le _, Or.inl rfl⟩
        · exact ⟨hwithin.2, Or.inr ⟨d, hwithin.1⟩⟩
      obtain ⟨hturns, hplaced⟩ := ih _ (hshorter hle) hclosed rfl
      simp only [if_pos hle, if_pos (length_append_le.mpr hle), hturns]
      exact ⟨rfl, List.forall_mem_cons.mpr ⟨hrecorded, hplaced⟩⟩

theorem run_placed {s : Schema} {events : List Turn}
    (h : ∀ turn ∈ events, ∀ e ∈ turn.recorded, e.place.isSome) :
    ∀ e ∈ (run s events).1, e.place.isSome := by
  induction events generalizing s with
  | nil => exact List.forall_mem_nil _
  | cons turn events ih =>
    rw [List.forall_mem_cons] at h
    simp only [run, List.forall_mem_append]
    refine ⟨⟨h.1, ?_⟩, ih h.2⟩
    obtain he | ⟨a, place, -, -, he⟩ | ⟨a, place, -, -, he⟩ := enter_cases s turn.found <;> rw [he]
    · exact List.forall_mem_nil _
    · exact List.forall_mem_singleton.mpr rfl
    · exact List.forall_mem_nil _

end Turns

section Schemas

variable {ts more : List Lexeme}

/-- Artifacts with other names are entered behind those that were read before. -/
theorem statements_append (h : Closing 0 ts) (hmore : more = [] ∨ StartsCreate more)
    (hapart : ∀ key ∈ (statements .empty more).2.keys, key ∉ (statements .empty ts).2.keys) :
    statements .empty (ts ++ more) =
      ((statements .empty ts).1 ++ (statements .empty more).1,
        (statements .empty ts).2 ++ (statements .empty more).2) := by
  simp only [statements_eq_run] at hapart ⊢
  rw [(turns_append (Or.inr ⟨0, h⟩) hmore).1, run_append]
  have hlater := run_known hapart
  rw [Schema.append_empty] at hlater
  rw [hlater]

theorem statements_placed (h : Closing 0 ts) : ∀ e ∈ (statements .empty ts).1, e.place.isSome := by
  rw [statements_eq_run]
  exact run_placed (turns_append (Or.inr ⟨0, h⟩) (Or.inl rfl)).2

theorem map_locate {refusals : List Refusal} (h : ∀ e ∈ refusals, e.place.isSome)
    (stop stop' : Nat) :
    refusals.map (Refusal.locate stop) = refusals.map (Refusal.locate stop') := by
  refine List.map_congr_left fun e he => ?_
  obtain ⟨place, hplace⟩ := Option.isSome_iff_exists.mp (h e he)
  simp [Refusal.locate, hplace]

/-- The mistakes that reading reports: none if it gives a schema. -/
def mistakes : Except (List Mistake) Schema → List Mistake
  | .ok _ => []
  | .error reported => reported

theorem endOf_append (hne : more ≠ []) : endOf (ts ++ more) = endOf more := by
  rw [endOf, endOf, List.getLast?_append_of_ne_nil _ hne]

/-- Mistakes of statements that are complete have their places, so those at the end of the input
belong to what follows. -/
theorem located_append (h : Closing 0 ts) (more : List Lexeme) :
    ((statements .empty ts).1 ++ (statements .empty more).1).map
        (Refusal.locate (endOf (ts ++ more))) =
      (statements .empty ts).1.map (Refusal.locate (endOf ts)) ++
        (statements .empty more).1.map (Refusal.locate (endOf more)) := by
  rw [List.map_append, map_locate (statements_placed h) _ (endOf ts)]
  by_cases hne : more = []
  · subst hne
    simp [statements]
  · rw [endOf_append hne]

/-- Complete statements with properly nested parentheses, and what follows from a `CREATE` on, are
read together as they are read apart: schemas without mistakes are joined, and otherwise exactly the
mistakes of both are reported, those of the first ones first. -/
theorem schemaOfLexemes_append (hnested : Nested ts) (hend : EndsStatement ts)
    (hmore : more = [] ∨ StartsCreate more)
    (hapart : ∀ key ∈ (statements .empty more).2.keys, key ∉ (statements .empty ts).2.keys) :
    schemaOfLexemes (ts ++ more) =
      match schemaOfLexemes ts, schemaOfLexemes more with
      | .ok s, .ok u =>
        .ok ⟨s.tables ++ u.tables, s.views ++ u.views, s.statements ++ u.statements⟩
      | first, later => .error (mistakes first ++ mistakes later) := by
  have hclosing : Closing 0 ts := closing_of_depthAfter hnested hend
  have hlocated := located_append hclosing more
  simp only [schemaOfLexemes_eq_run, statements_append hclosing hmore hapart]
  generalize statements .empty ts = first at hlocated ⊢
  generalize statements .empty more = later at hlocated ⊢
  obtain ⟨_ | ⟨e, refusals⟩, s⟩ := first <;> obtain ⟨_ | ⟨e', refusals'⟩, u⟩ := later
  · rfl
  · exact congrArg Except.error hlocated
  · exact congrArg Except.error hlocated
  · exact congrArg Except.error hlocated

end Schemas

namespace Sample

/-- Tokens at consecutive places. -/
def lexemesFrom (start : Nat) (tokens : List Token) : List Lexeme :=
  (tokens.zipIdx start).map fun (token, place) => ⟨token, ⟨place, place + 1⟩⟩

/-- A table with a column of no type, a statement that is none, and a statement in order. -/
def spoilt : List Lexeme :=
  lexemesFrom 0 [.keyword .create, .keyword .table, .name "Pen", .symbol .lparen, .name "Id",
    .keyword .integer, .symbol .comma, .name "Ink", .symbol .lparen, .symbol .semicolon,
    .symbol .rparen, .symbol .rparen, .symbol .semicolon, .name "Pen", .symbol .lparen,
    .symbol .semicolon, .symbol .rparen, .symbol .semicolon, .keyword .create,
    .keyword .statement, .name "Clear", .keyword .as, .keyword .delete, .keyword .from,
    .name "Pen", .symbol .semicolon]

/-- A statement in order, and one that ends too early. -/
def cutOff : List Lexeme :=
  lexemesFrom 26 [.keyword .create, .keyword .statement, .name "Wipe", .keyword .as,
    .keyword .delete, .keyword .from, .name "Pen", .symbol .semicolon, .keyword .create,
    .keyword .view, .name "Pens"]

end Sample

theorem spoilt_then_cutOff :
    Nested Sample.spoilt ∧ EndsStatement Sample.spoilt ∧ StartsCreate Sample.cutOff ∧
      schemaOfLexemes (Sample.spoilt ++ Sample.cutOff) =
        .error [⟨.unexpectedToken "data type" "'('", ⟨8, 9⟩⟩,
          ⟨.unexpectedToken "'CREATE'" "identifier 'Pen'", ⟨13, 14⟩⟩,
          ⟨.unexpectedEnd "'('", ⟨37, 37⟩⟩] := by
  have hfirst : schemaOfLexemes Sample.spoilt =
      .error [⟨.unexpectedToken "data type" "'('", ⟨8, 9⟩⟩,
        ⟨.unexpectedToken "'CREATE'" "identifier 'Pen'", ⟨13, 14⟩⟩] := by
    decide +kernel
  have hlater : schemaOfLexemes Sample.cutOff = .error [⟨.unexpectedEnd "'('", ⟨37, 37⟩⟩] := by
    decide +kernel
  have hnested : Nested Sample.spoilt := by decide
  have hend : EndsStatement Sample.spoilt := by decide
  have hstart : StartsCreate Sample.cutOff := rfl
  have hjoined := schemaOfLexemes_append hnested hend (Or.inr hstart) (by decide +kernel)
  rw [hfirst, hlater] at hjoined
  exact ⟨hnested, hend, hstart, hjoined⟩

end Schemata
