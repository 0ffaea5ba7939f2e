import Schemata.Proofs.SchemaReading

/-! The statement loop does two things that do not depend on each other: it cuts the tokens into
statements, whatever was declared before, and it enters the artifacts one after the other, whatever
tokens they come from. -/
namespace Schemata

open Grammar Reader

section Cutting

/-- An artifact with the place of its name, up to its semicolon; `none` if a mistake was recorded
for it. -/
def artifact : Recovering (Option (Artifact × Span)) := do
  expectKeyword .create
  let l ← next "TABLE, VIEW, or STATEMENT"
  match l.token with
  | .keyword .table =>
    let read ← table
    expectSymbol .semicolon
    return read.map fun (t, place) => (.table t, place)
  | .keyword .view =>
    let read ← view
    expectSymbol .semicolon
    return read.map fun (v, place) => (.view v, place)
  | .keyword .statement =>
    let (d, place) ← template
    expectSymbol .semicolon
    return some (.statement d, place)
  | _ => refuseLexeme (α := Option (Artifact × Span)) "TABLE, VIEW, or STATEMENT" l

/-- One turn of the loop: the mistakes in a statement, and what it declares. -/
structure Turn where
  recorded : List Refusal
  found : Option (Artifact × Span)

def turns (ts : List Lexeme) : List Turn :=
  match ts with
  | [] => []
  | l :: rest =>
    match artifact (l :: rest) with
    | ⟨recorded, .ok (found, left)⟩ =>
      if left.length ≤ rest.length then ⟨recorded, found⟩ :: turns left else [⟨recorded, found⟩]
    | ⟨recorded, .error e⟩ => ⟨recorded ++ [e], none⟩ :: turns (skipStatementRest 0 rest)
termination_by ts.length
decreasing_by
  · simp only [List.length_cons]; omega
  · have := length_skipStatementRest_le 0 rest
    simp only [List.length_cons]; omega

end Cutting

/-- The schema with what was found, and a mistake if an artifact of that kind has its name. -/
def enter (s : Schema) : Option (Artifact × Span) → List Refusal × Schema
  | none => ([], s)
  | some (a, place) =>
    if a.key ∈ s.keys then ([⟨.duplicate a.key.1 a.key.2, some place⟩], s) else ([], s.add a)

def run (s : Schema) : List Turn → List Refusal × Schema
  | [] => ([], s)
  | turn :: later =>
    let entered := enter s turn.found
    let (more, last) := run entered.2 later
    (turn.recorded ++ entered.1 ++ more, last)

section Entering

variable {α β γ : Type}

theorem recovering_bind_assoc (r : Recovering α) (f : α → Recovering β) (g : β → Recovering γ) :
    (r >>= f) >>= g = r >>= fun a => f a >>= g := by
  funext ts
  simp only [bind]
  cases r ts with
  | mk recorded result =>
    cases result with
    | error e => rfl
    | ok p =>
      dsimp only
      cases f p.1 p.2 with
      | mk later result => cases result <;> simp

/-- Enters what was found, and reads nothing. -/
def entering (s : Schema) (found : Option (Artifact × Span)) : Recovering Schema := fun ts =>
  ⟨(enter s found).1, .ok ((enter s found).2, ts)⟩

theorem entering_some {kind : ArtifactKind} {name : String} {place : Span} {known : Bool}
    {add : α → Schema} {s : Schema} {x : α} {a : Artifact} (hkey : a.key = (kind, name))
    (hknown : known = true ↔ (kind, name) ∈ s.keys) (hadd : add x = s.add a) :
    entering s (some (a, place)) = addOrDuplicate kind name place known add s x := by
  unfold addOrDuplicate entering
  simp only [enter, hkey]
  by_cases h : (kind, name) ∈ s.keys
  · simp only [if_pos h, if_pos (hknown.mpr h)]
    rfl
  · simp only [if_neg h, if_neg (mt hknown.mp h), hadd]
    rfl

/-- What a statement reads does not depend on the schema that it adds to. -/
theorem statement_eq (s : Schema) : statement s = artifact >>= entering s := by
  unfold statement artifact
  simp only [recovering_bind_assoc]
  congr 1
  funext _
  congr 1
  funext l
  obtain ⟨token, span⟩ := l
  -- Three words begin an artifact; on any other token both sides refuse.
  cases token with
  | keyword k =>
    cases k with
    | table =>
      simp only [recovering_bind_assoc]
      congr 1
      funext read
      congr 1
      funext _
      cases read with
      | none => rfl
      | some p => exact (entering_some (a := .table p.1) rfl Schema.findTable_isSome rfl).symm
    | view =>
      simp only [recovering_bind_assoc]
      congr 1
      funext read
      congr 1
      funext _
      cases read with
      | none => rfl
      | some p => exact (entering_some (a := .view p.1) rfl Schema.findView_isSome rfl).symm
    | statement =>
      simp only [recovering_bind_assoc]
      congr 1
      funext p
      congr 1
      funext _
      exact (entering_some (a := .statement p.1) rfl Schema.findStatement_isSome rfl).symm
    | _ => rfl
  | _ => rfl

variable {s : Schema} {ts left : List Lexeme} {recorded : List Refusal}

theorem statement_of_found {found : Option (Artifact × Span)}
    (h : artifact ts = ⟨recorded, .ok (found, left)⟩) :
    statement s ts = ⟨recorded ++ (enter s found).1, .ok ((enter s found).2, left)⟩ := by
  rw [statement_eq]
  simp only [bind, h]
  rfl

theorem statement_of_refused {e : Refusal} (h : artifact ts = ⟨recorded, .error e⟩) :
    statement s ts = ⟨recorded, .error e⟩ := by
  rw [statement_eq]
  simp only [bind, h]

end Entering

theorem statements_eq_run (s : Schema) (ts : List Lexeme) : statements s ts = run s (turns ts) := by
  fun_induction turns ts generalizing s with
  | case1 => rw [statements, run]
  | case2 l rest recorded found left hread hlength ih =>
    rw [statements, statement_of_found hread, run]
    simp only [if_pos hlength, ih]
  | case3 l rest recorded found left hread hlength =>
    rw [statements, statement_of_found hread, run, run]
    simp only [if_neg hlength, List.append_nil]
  | case4 l rest recorded e hread ih =>
    rw [statements, statement_of_refused hread, run]
    simp only [ih, enter, List.append_nil, List.append_assoc, List.singleton_append]

section Runs

variable {s : Schema}

theorem run_append (s : Schema) (first later : List Turn) :
    run s (first ++ later) =
      ((run s first).1 ++ (run (run s first).2 later).1, (run (run s first).2 later).2) := by
  induction first generalizing s with
  | nil => rfl
  | cons turn first ih => simp only [List.cons_append, run, ih, List.append_assoc]

theorem enter_cases (s : Schema) (found : Option (Artifact × Span)) :
    enter s found = ([], s) ∨
      (∃ a place, found = some (a, place) ∧ a.key ∈ s.keys ∧
        enter s found = ([⟨.duplicate a.key.1 a.key.2, some place⟩], s)) ∨
      ∃ a place, found = some (a, place) ∧ a.key ∉ s.keys ∧ enter s found = ([], s.add a) := by
  rcases found with _ | ⟨a, place⟩
  · exact Or.inl rfl
  · by_cases h : a.key ∈ s.keys
    · exact Or.inr (Or.inl ⟨a, place, rfl, h, if_pos h⟩)
    · exact Or.inr (Or.inr ⟨a, place, rfl, h, if_neg h⟩)

theorem nodup_map_concat {α : Type} {f : α → String} {xs : List α} {x : α}
    (h : (xs.map f).Nodup) (hx : f x ∉ xs.map f) : ((xs ++ [x]).map f).Nodup := by
  rw [List.map_append, List.nodup_append_comm]
  exact List.nodup_cons.mpr ⟨hx, h⟩

theorem build_add {a : Artifact} (h : s.build = .ok s) (hnew : a.key ∉ s.keys) :
    (s.add a).build = .ok (s.add a) := by
  rw [Schema.build_ok_iff] at h ⊢
  obtain ⟨ht, hv, hd⟩ := h
  cases a with
  | table t =>
    refine ⟨nodup_map_concat ht fun hmem => hnew ?_, hv, hd⟩
    simpa [Schema.keys, Schema.artifacts, Artifact.key] using hmem
  | view v =>
    refine ⟨ht, nodup_map_concat hv fun hmem => hnew ?_, hd⟩
    simpa [Schema.keys, Schema.artifacts, Artifact.key] using hmem
  | statement d =>
    refine ⟨ht, hv, nodup_map_concat hd fun hmem => hnew ?_⟩
    simpa [Schema.keys, Schema.artifacts, Artifact.key] using hmem

theorem build_run (h : s.build = .ok s) (events : List Turn) :
    (run s events).2.build = .ok (run s events).2 := by
  induction events generalizing s with
  | nil => exact h
  | cons turn events ih =>
    refine ih ?_
    obtain he | ⟨a, place, -, -, he⟩ | ⟨a, place, -, hnew, he⟩ := enter_cases s turn.found <;>
      rw [he]
    · exact h
    · exact h
    · exact build_add h hnew

theorem keys_subset_run (s : Schema) (events : List Turn) : s.keys ⊆ (run s events).2.keys := by
  induction events generalizing s with
  | nil => exact List.Subset.refl _
  | cons turn events ih =>
    refine List.Subset.trans ?_ (ih (enter s turn.found).2)
    obtain he | ⟨a, place, -, -, he⟩ | ⟨a, place, -, -, he⟩ := enter_cases s turn.found <;>
      rw [he]
    · exact List.Subset.refl _
    · exact List.Subset.refl _
    · exact fun key hkey => Schema.mem_keys_add.mpr (Or.inl hkey)

end Runs

namespace Schema

/-- The artifacts of one schema, then those of the other. -/
instance : Append Schema where
  append s u := ⟨s.tables ++ u.tables, s.views ++ u.views, s.statements ++ u.statements⟩

theorem append_eq (s u : Schema) :
    s ++ u = ⟨s.tables ++ u.tables, s.views ++ u.views, s.statements ++ u.statements⟩ :=
  rfl

theorem mem_keys_append {s u : Schema} {key : ArtifactKind × String} :
    key ∈ (s ++ u).keys ↔ key ∈ s.keys ∨ key ∈ u.keys := by
  simp only [append_eq, keys, artifacts, List.map_append, List.mem_append, or_assoc, or_comm,
    or_left_comm]

theorem append_add (s u : Schema) (a : Artifact) : (s ++ u).add a = s ++ u.add a := by
  cases a <;> simp [append_eq, add, addTable, addView, addStatement]

theorem append_empty (s : Schema) : s ++ Schema.empty = s := by
  simp [append_eq, empty]

end Schema

/-- Artifacts that are known already change nothing for artifacts with other names. -/
theorem enter_append {known s : Schema} {found : Option (Artifact × Span)}
    (h : ∀ key ∈ (enter s found).2.keys, key ∉ known.keys) :
    enter (known ++ s) found = ((enter s found).1, known ++ (enter s found).2) := by
  rcases found with _ | ⟨a, place⟩
  · rfl
  -- What is accepted is in the schema afterwards, so by `h` its name is not among the known ones.
  by_cases ha : a.key ∈ s.keys
  · have hboth : a.key ∈ (known ++ s).keys := Schema.mem_keys_append.mpr (Or.inr ha)
    simp only [enter, if_pos ha, if_pos hboth]
  · have hneither : a.key ∉ (known ++ s).keys := by
      rw [Schema.mem_keys_append, not_or]
      refine ⟨h a.key ?_, ha⟩
      simp only [enter, if_neg ha]
      exact Schema.mem_keys_add.mpr (Or.inr rfl)
    simp only [enter, if_neg ha, if_neg hneither, Schema.append_add]

theorem run_known {known s : Schema} {events : List Turn}
    (h : ∀ key ∈ (run s events).2.keys, key ∉ known.keys) :
    run (known ++ s) events = ((run s events).1, known ++ (run s events).2) := by
  induction events generalizing s with
  | nil => rfl
  | cons turn events ih =>
    have hentered := enter_append fun key hkey =>
      h key (keys_subset_run (enter s turn.found).2 events hkey)
    simp only [run, hentered, ih h]

/-- Reading adds artifacts with new names only, so the names stay apart whatever mistakes there
are. -/
theorem build_statements (ts : List Lexeme) :
    (statements .empty ts).2.build = .ok (statements .empty ts).2 := by
  rw [statements_eq_run]
  exact build_run rfl _

/-- What is read is given as it is, for the last check finds nothing. -/
theorem schemaOfLexemes_eq_run (ts : List Lexeme) :
    schemaOfLexemes ts =
      match statements .empty ts with
      | ([], s) => .ok s
      | (refusals, _) => .error (refusals.map (Refusal.locate (endOf ts))) := by
  have hbuild := build_statements ts
  unfold schemaOfLexemes
  cases hread : statements .empty ts with
  | mk refusals s =>
    rw [hread] at hbuild
    cases refusals with
    | nil =>
      dsimp only at hbuild ⊢
      rw [hbuild]
    | cons => rfl

end Schemata
