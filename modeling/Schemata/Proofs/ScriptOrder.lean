import Schemata.Proofs.FreshMigration
import Schemata.Proofs.PlanOrder

/-! Where the statements of a creation script stand. The script is made of parts, written phase
after phase, so that what two statements are written for tells which of them comes first. Primary
keys are there before every foreign key, but unique constraints are not. -/
namespace Schemata

/-- What a statement of the creation script is written for. -/
inductive Part where
  | header
  | table (t : Table)
  | primaryKey (t : Table)
  | foreignKey (t : Table) (f : ForeignKey)
  | unique (t : Table) (u : UniqueConstraint)
  | indexes (t : Table)
  | comments (t : Table)
  | view (v : View)
  | trigger (t : Table)
  | seed (d : DmlStatement)
  deriving DecidableEq

def Part.phase : Part → Nat
  | header => 0
  | table _ => 1
  | primaryKey _ => 2
  | foreignKey _ _ => 3
  | unique _ _ => 4
  | indexes _ => 5
  | comments _ => 6
  | view _ => 7
  | trigger _ => 8
  | seed _ => 9

/-- What is written for each element in turn, next to the element. -/
def labelAll {α : Type} (f : α → Emit) (items : List α) :
    Except GenerateError (List (α × Statement)) :=
  List.flatten <$> items.mapM fun a => List.map (Prod.mk a) <$> f a

section Labels

variable {α : Type} {f : α → Emit}

theorem labelAll_cons (f : α → Emit) (a : α) (l : List α) :
    labelAll f (a :: l) = f a >>= fun own => labelAll f l >>= fun rest =>
      .ok (own.map (Prod.mk a) ++ rest) := by
  unfold labelAll
  rw [List.mapM_cons]
  cases f a with
  | error e => rfl
  | ok own => cases l.mapM fun a => List.map (Prod.mk a) <$> f a <;> rfl

/-- Without its labels, the list is what is written. -/
theorem map_labelAll (f : α → Emit) (l : List α) :
    List.map Prod.snd <$> labelAll f l = emitAll f l := by
  induction l with
  | nil => rfl
  | cons a l ih =>
    rw [labelAll_cons, emitAll_cons, ← ih]
    cases f a with
    | error e => rfl
    | ok own =>
      cases labelAll f l with
      | error e => rfl
      | ok rest =>
        refine congrArg Except.ok ?_
        rw [List.map_append, List.map_map]
        exact congrArg (· ++ rest.map Prod.snd) (List.map_id own)

theorem labelAll_of_emitAll {l : List α} {out : List Statement} (h : emitAll f l = .ok out) :
    ∃ labelled, labelAll f l = .ok labelled ∧ labelled.map Prod.snd = out := by
  rw [← map_labelAll] at h
  cases hl : labelAll f l with
  | error e =>
    rw [hl] at h
    cases h
  | ok labelled =>
    rw [hl] at h
    exact ⟨labelled, rfl, Except.ok.inj h⟩

theorem mem_labelAll {l : List α} {labelled : List (α × Statement)}
    (h : labelAll f l = .ok labelled) {a : α} {x : Statement} :
    (a, x) ∈ labelled ↔ a ∈ l ∧ ∃ own, f a = .ok own ∧ x ∈ own := by
  induction l generalizing labelled with
  | nil =>
    cases h
    simp
  | cons b l ih =>
    rw [labelAll_cons] at h
    obtain ⟨own, hown, h⟩ := bind_ok_iff.mp h
    obtain ⟨rest, hrest, h⟩ := bind_ok_iff.mp h
    cases h
    rw [List.mem_append, ih hrest, List.mem_map]
    constructor
    · rintro (⟨y, hy, heq⟩ | ⟨ha, hwritten⟩)
      · cases heq
        exact ⟨List.mem_cons_self, own, hown, hy⟩
      · exact ⟨List.mem_cons_of_mem b ha, hwritten⟩
    · rintro ⟨ha, own', hown', hx⟩
      rcases List.mem_cons.mp ha with rfl | ha
      · rw [hown] at hown'
        cases hown'
        exact Or.inl ⟨x, hx, rfl⟩
      · exact Or.inr ⟨ha, own', hown', hx⟩

/-- Labels keep the order of the elements. -/
theorem labelAll_pairwise {R : α → α → Prop} {l : List α} (hl : l.Pairwise R)
    (hself : ∀ a ∈ l, R a a) {labelled : List (α × Statement)}
    (h : labelAll f l = .ok labelled) : labelled.Pairwise fun x y => R x.1 y.1 := by
  induction l generalizing labelled with
  | nil =>
    cases h
    exact .nil
  | cons a l ih =>
    rw [labelAll_cons] at h
    obtain ⟨own, hown, h⟩ := bind_ok_iff.mp h
    obtain ⟨rest, hrest, h⟩ := bind_ok_iff.mp h
    cases h
    obtain ⟨hfirst, hl⟩ := List.pairwise_cons.mp hl
    obtain ⟨haa, hself⟩ := List.forall_mem_cons.mp hself
    refine List.pairwise_append.mpr ⟨?_, ih hl hself hrest, ?_⟩
    · refine List.pairwise_map.mpr (List.pairwise_of_forall ?_)
      intro x y
      exact haa
    · rintro x hx ⟨b, y⟩ hy
      obtain ⟨_, _, rfl⟩ := List.mem_map.mp hx
      exact hfirst b ((mem_labelAll hrest).mp hy).1

end Labels

namespace Dialect

variable {d : Dialect} {s : Schema} {script : Script}

def partStatements (d : Dialect) (s : Schema) : Part → Emit
  | .header => .ok [d.fullHeader]
  | .table t => d.tableStatements s t
  | .primaryKey t => d.addPrimaryKey t.name t.primaryKey
  | .foreignKey t f => d.addForeignKey t.name f
  | .unique t u => d.addUnique t.name u
  | .indexes t => .ok (d.indexStatements t)
  | .comments t => .ok (d.comments t)
  | .view v => .ok (d.createView v)
  | .trigger t => .ok (d.createTrigger t)
  | .seed r => .ok [d.changeRows r.body]

/-- The keys that are written outside of their tables. -/
def keyParts (d : Dialect) (s : Schema) : List Part :=
  if d.capabilities.inlineForeignKeys then []
  else s.tables.map .primaryKey ++ s.tables.flatMap (fun t => t.foreignKeys.map (.foreignKey t)) ++
    s.tables.flatMap fun t => t.uniques.map (.unique t)

/-- The parts of the creation script, in the order in which they are written. -/
def parts (d : Dialect) (s : Schema) : List Part :=
  .header :: s.tables.map .table ++ d.keyParts s ++ s.tables.map .indexes ++
    s.tables.map .comments ++ s.views.map .view ++ s.tables.map .trigger ++
    (s.statements.filter fun r => !r.body.hasParameters).map .seed

/-- The creation script, each statement next to the part that it is written for. -/
def labelledScript (d : Dialect) (s : Schema) :
    Except GenerateError (List (Part × Statement)) := do
  s.resolve
  labelAll (d.partStatements s) (d.parts s)

theorem emitAll_keyParts (d : Dialect) (s : Schema) :
    emitAll (d.partStatements s) (d.keyParts s) = d.keyStatements s := by
  unfold keyParts keyStatements
  split
  · rfl
  · simp only [emitAll_append, emitAll_map, emitAll_flatMap, partStatements]
    cases emitAll (fun t => d.addPrimaryKey t.name t.primaryKey) s.tables with
    | error e => rfl
    | ok primaryKeys =>
      cases emitAll (fun t => emitAll (d.addForeignKey t.name) t.foreignKeys) s.tables with
      | error e => rfl
      | ok foreignKeys => rfl

theorem emitAll_parts {β : Type} {part : β → Part} {own : β → List Statement} (l : List β)
    (h : ∀ b, d.partStatements s (part b) = .ok (own b)) :
    emitAll (d.partStatements s) (l.map part) = .ok (l.flatMap own) := by
  rw [emitAll_map]
  exact emitAll_ok_of_forall fun b _ => h b

/-- The creation script is its parts, written one after the other. -/
theorem fullScript_eq_parts (d : Dialect) (s : Schema) :
    d.fullScript s = s.resolve >>= fun _ => emitAll (d.partStatements s) (d.parts s) := by
  have htables : emitAll (d.partStatements s) (s.tables.map .table) =
      emitAll (d.tableStatements s) s.tables := emitAll_map _ _ _
  have hindexes : emitAll (d.partStatements s) (s.tables.map .indexes) = _ :=
    emitAll_parts s.tables fun _ => rfl
  have hcomments : emitAll (d.partStatements s) (s.tables.map .comments) = _ :=
    emitAll_parts s.tables fun _ => rfl
  have hviews : emitAll (d.partStatements s) (s.views.map .view) = _ :=
    emitAll_parts s.views fun _ => rfl
  have htriggers : emitAll (d.partStatements s) (s.tables.map .trigger) = _ :=
    emitAll_parts s.tables fun _ => rfl
  have hseeds : emitAll (d.partStatements s)
      ((s.statements.filter fun r => !r.body.hasParameters).map .seed) =
        .ok (d.seedStatements s) := by
    rw [emitAll_parts _ fun _ => rfl, seedStatements, List.map_eq_flatMap]
  simp only [parts, emitAll_append, List.cons_append, emitAll_cons, htables, emitAll_keyParts,
    hindexes, hcomments, hviews, htriggers, hseeds, fullScript]
  cases s.resolve with
  | error e => rfl
  | ok _ =>
    cases emitAll (d.tableStatements s) s.tables with
    | error e => rfl
    | ok tables => cases d.keyStatements s <;> rfl

theorem labelledScript_of_fullScript (h : d.fullScript s = .ok script) :
    ∃ labelled, d.labelledScript s = .ok labelled ∧ labelled.map Prod.snd = script := by
  rw [fullScript_eq_parts] at h
  obtain ⟨_, hresolve, h⟩ := bind_ok_iff.mp h
  obtain ⟨labelled, hlabelled, hmap⟩ := labelAll_of_emitAll h
  exact ⟨labelled, bind_ok_iff.mpr ⟨(), hresolve, hlabelled⟩, hmap⟩

end Dialect

/-- In the order of the phases, none of them later than `n`. -/
def SortedTo (n : Nat) (l : List Part) : Prop :=
  l.Pairwise (fun a b => a.phase ≤ b.phase) ∧ ∀ a ∈ l, a.phase ≤ n

theorem SortedTo.append {m n : Nat} {l k : List Part} (hl : SortedTo m l) (hmn : m ≤ n)
    (hk : ∀ b ∈ k, b.phase = n) : SortedTo n (l ++ k) := by
  constructor
  · refine List.pairwise_append.mpr ⟨hl.1, ?_, ?_⟩
    · refine List.pairwise_of_forall_mem_list fun a ha b hb => ?_
      rw [hk a ha, hk b hb]
    · intro a ha b hb
      rw [hk b hb]
      exact (hl.2 a ha).trans hmn
  · intro a ha
    rcases List.mem_append.mp ha with ha | ha
    · exact (hl.2 a ha).trans hmn
    · exact (hk a ha).le

theorem phase_of_mem_map {β : Type} {part : β → Part} {l : List β} {n : Nat}
    (h : ∀ b, (part b).phase = n) : ∀ a ∈ l.map part, a.phase = n := by
  intro a ha
  obtain ⟨b, _, rfl⟩ := List.mem_map.mp ha
  exact h b

theorem phase_of_mem_flatMap {β γ : Type} {part : β → γ → Part} {l : List β} {items : β → List γ}
    {n : Nat} (h : ∀ b c, (part b c).phase = n) :
    ∀ a ∈ l.flatMap (fun b => (items b).map (part b)), a.phase = n := by
  intro a ha
  obtain ⟨b, _, ha⟩ := List.mem_flatMap.mp ha
  exact phase_of_mem_map (h b) a ha

namespace Dialect

theorem parts_sorted (d : Dialect) (s : Schema) : SortedTo 9 (d.parts s) := by
  have htables : SortedTo 1 (.header :: s.tables.map .table) :=
    SortedTo.append (l := [.header]) (m := 0) (by simp [SortedTo, Part.phase]) (by omega)
      (phase_of_mem_map fun _ => rfl)
  have hkeys : SortedTo 4 (.header :: s.tables.map .table ++ d.keyParts s) := by
    unfold keyParts
    split
    · exact htables.append (by omega) nofun
    · rw [← List.append_assoc, ← List.append_assoc]
      refine SortedTo.append ?_ (Nat.le_succ 3) (phase_of_mem_flatMap fun _ _ => rfl)
      refine SortedTo.append ?_ (Nat.le_succ 2) (phase_of_mem_flatMap fun _ _ => rfl)
      exact htables.append (Nat.le_succ 1) (phase_of_mem_map fun _ => rfl)
  refine SortedTo.append ?_ (Nat.le_succ 8) (phase_of_mem_map fun _ => rfl)
  refine SortedTo.append ?_ (Nat.le_succ 7) (phase_of_mem_map fun _ => rfl)
  refine SortedTo.append ?_ (Nat.le_succ 6) (phase_of_mem_map fun _ => rfl)
  refine SortedTo.append ?_ (Nat.le_succ 5) (phase_of_mem_map fun _ => rfl)
  exact hkeys.append (Nat.le_succ 4) (phase_of_mem_map fun _ => rfl)

end Dialect

/-- Both are written, and every statement for `a` stands before every statement for `b`. -/
def Precedes (labelled : List (Part × Statement)) (a b : Part) : Prop :=
  (∃ x, (a, x) ∈ labelled) ∧ (∃ y, (b, y) ∈ labelled) ∧
    ∀ (p q : Nat) (x y : Statement), labelled[p]? = some (a, x) → labelled[q]? = some (b, y) → p < q

theorem Precedes.asymm {labelled : List (Part × Statement)} {a b : Part}
    (h : Precedes labelled a b) : ¬ Precedes labelled b a := by
  rintro ⟨⟨y, hy⟩, ⟨x, hx⟩, hba⟩
  obtain ⟨p, hp⟩ := List.getElem?_of_mem hx
  obtain ⟨q, hq⟩ := List.getElem?_of_mem hy
  have hpq := h.2.2 p q x y hp hq
  have hqp := hba q p y x hq hp
  omega

/-- In a list that is sorted by a key, a smaller key stands earlier. -/
theorem position_lt {α : Type} (key : α → Nat) {l : List α}
    (hl : l.Pairwise fun a b => key a ≤ key b) {p q : Nat} {a b : α} (hp : l[p]? = some a)
    (hq : l[q]? = some b) (hab : key a < key b) : p < q := by
  obtain ⟨hp', rfl⟩ := List.getElem?_eq_some_iff.mp hp
  obtain ⟨hq', rfl⟩ := List.getElem?_eq_some_iff.mp hq
  by_contra hle
  rcases Nat.lt_or_ge q p with hqp | hpq
  · have := List.pairwise_iff_getElem.mp hl q p hq' hp' hqp
    omega
  · obtain rfl : p = q := by omega
    omega

/-- The step creates the primary key or a unique constraint of the table, or all of them. -/
def Step.MakesKey (table : String) : Step → Prop
  | createTable t => t.name = table
  | addPrimaryKey name _ => name = table
  | addUnique name _ => name = table
  | _ => False

theorem Step.MakesKey.phase_lt {table : String} {e : Step} (h : e.MakesKey table) :
    e.phase < 8 := by
  cases e <;> simp_all [MakesKey, phase]

/-- A plan creates keys before it adds foreign keys. -/
theorem makesKey_before_addForeignKey {old new : Schema} {recreate : RecreateOptions} {p q : Nat}
    {e : Step} {target table : String} {f : ForeignKey}
    (hp : (diff old new recreate)[p]? = some e) (he : e.MakesKey target)
    (hq : (diff old new recreate)[q]? = some (.addForeignKey table f)) : p < q :=
  position_lt Step.phase (Comparison.plan_sorted (c := ⟨old, new, recreate⟩)) hp hq he.phase_lt

namespace Dialect

section Keys

variable {d : Dialect} {s : Schema} {t : Table} (hd : d.capabilities.inlineForeignKeys = false)
include hd

theorem primaryKey_mem_parts (ht : t ∈ s.tables) : .primaryKey t ∈ d.parts s := by
  simp [parts, keyParts, hd, ht]

theorem foreignKey_mem_parts (ht : t ∈ s.tables) {f : ForeignKey} (hf : f ∈ t.foreignKeys) :
    .foreignKey t f ∈ d.parts s := by
  simp [parts, keyParts, hd, ht, hf]

theorem unique_mem_parts (ht : t ∈ s.tables) {u : UniqueConstraint} (hu : u ∈ t.uniques) :
    .unique t u ∈ d.parts s := by
  simp [parts, keyParts, hd, ht, hu]

end Keys

variable {d : Dialect} {s : Schema} {labelled : List (Part × Statement)} {a b : Part}

/-- A key that is written has a statement of its own. -/
theorem keyStatement_exists {own : List Statement} (ha : a.phase = 2 ∨ a.phase = 3 ∨ a.phase = 4)
    (h : d.partStatements s a = .ok own) : ∃ x, x ∈ own := by
  cases a <;> simp only [Part.phase] at ha <;> try omega
  case primaryKey t =>
    obtain ⟨_, _, h⟩ := bind_ok_iff.mp h
    cases h
    exact ⟨_, List.mem_cons_self⟩
  case foreignKey t f =>
    obtain ⟨_, _, h⟩ := bind_ok_iff.mp h
    obtain ⟨_, _, h⟩ := bind_ok_iff.mp h
    cases h
    exact ⟨_, List.mem_cons_self⟩
  case unique t u =>
    obtain ⟨_, _, h⟩ := bind_ok_iff.mp h
    cases h
    exact ⟨_, List.mem_cons_self⟩

theorem part_written (h : labelAll (d.partStatements s) (d.parts s) = .ok labelled)
    (ha : a ∈ d.parts s) (hkey : a.phase = 2 ∨ a.phase = 3 ∨ a.phase = 4) :
    ∃ x, (a, x) ∈ labelled := by
  have hmap := map_labelAll (d.partStatements s) (d.parts s)
  rw [h] at hmap
  obtain ⟨own, hown, _⟩ := emitAll_ok_mem hmap.symm ha
  obtain ⟨x, hx⟩ := keyStatement_exists hkey hown
  exact ⟨x, (mem_labelAll h).mpr ⟨ha, own, hown, hx⟩⟩

/-- Keys of an earlier phase stand before those of a later one. -/
theorem precedes_of_phase (h : d.labelledScript s = .ok labelled) (ha : a ∈ d.parts s)
    (hb : b ∈ d.parts s) (hlow : 2 ≤ a.phase) (hab : a.phase < b.phase) (hhigh : b.phase ≤ 4) :
    Precedes labelled a b := by
  obtain ⟨_, _, h⟩ := bind_ok_iff.mp h
  refine ⟨part_written h ha (by omega), part_written h hb (by omega), ?_⟩
  intro p q x y hp hq
  have hsorted : labelled.Pairwise fun x y => x.1.phase ≤ y.1.phase :=
    labelAll_pairwise (d.parts_sorted s).1 (fun _ _ => le_rfl) h
  exact position_lt (fun x => x.1.phase) hsorted hp hq hab

/-- Where keys are statements of their own, the creation script has a foreign key after the primary
key of its target and before all unique constraints of its target. So the keys that hold the target
column are there in time exactly if no unique constraint is among them. A plan, in contrast, always
creates all keys of the target before it adds the foreign key. -/
theorem foreignKey_after_keys_iff {script : Script}
    (hd : d.capabilities.inlineForeignKeys = false) (h : d.fullScript s = .ok script) :
    ∃ labelled, d.labelledScript s = .ok labelled ∧ labelled.map Prod.snd = script ∧
      ∀ t ∈ s.tables, ∀ f ∈ t.foreignKeys, ∃ target,
        s.findTable? f.reference.table = some target ∧
        Precedes labelled (.primaryKey target) (.foreignKey t f) ∧
        (∀ u ∈ target.uniques, Precedes labelled (.foreignKey t f) (.unique target u)) ∧
        ((∀ u ∈ target.uniques, f.reference.column ∈ u.columns →
            Precedes labelled (.unique target u) (.foreignKey t f)) ↔
          ∀ u ∈ target.uniques, f.reference.column ∉ u.columns) ∧
        ∀ (old : Schema) (recreate : RecreateOptions) (p q : Nat) (e : Step),
          (diff old s recreate)[p]? = some e → e.MakesKey target.name →
          (diff old s recreate)[q]? = some (.addForeignKey t.name f) → p < q := by
  obtain ⟨labelled, hlabelled, hmap⟩ := labelledScript_of_fullScript h
  refine ⟨labelled, hlabelled, hmap, fun t ht f hf => ?_⟩
  obtain ⟨_, hresolve, _⟩ := bind_ok_iff.mp h
  obtain ⟨target, hfind, _⟩ := Schema.foreignKey_target hresolve ht hf
  have htarget : target ∈ s.tables := List.mem_of_find?_eq_some hfind
  have hforeign := foreignKey_mem_parts hd ht hf
  have hunique : ∀ u ∈ target.uniques, Precedes labelled (.foreignKey t f) (.unique target u) :=
    fun u hu => precedes_of_phase hlabelled hforeign (unique_mem_parts hd htarget hu)
      (Nat.le_succ 2) (Nat.lt_succ_self 3) le_rfl
  refine ⟨target, hfind, ?_, hunique, ?_, ?_⟩
  · exact precedes_of_phase hlabelled (primaryKey_mem_parts hd htarget) hforeign le_rfl
      (Nat.lt_succ_self 2) (Nat.le_succ 3)
  · constructor
    · intro hkeys u hu hcolumn
      exact (hunique u hu).asymm (hkeys u hu hcolumn)
    · intro hnone u hu hcolumn
      exact absurd hcolumn (hnone u hu)
  · intro old recreate p q e hp he hq
    exact makesKey_before_addForeignKey hp he hq

end Dialect

namespace Sample

def email : UniqueConstraint := ⟨"UQ_Member_Email", ["Email"]⟩

def member : Table where
  name := "Member"
  columns := [
    { name := "Id", dataType := .integer, nullable := false },
    { name := "Email", dataType := .varchar 80, nullable := false }]
  primaryKey := ⟨"PK_Member", ["Id"]⟩
  uniques := [email]

def recipient : ForeignKey :=
  ⟨"FK_Letter_Recipient", "Recipient", { table := "Member", column := "Email" }⟩

/-- Letters go to an address, which is a key of the members but not their primary key. -/
def letter : Table where
  name := "Letter"
  columns := [
    { name := "Id", dataType := .integer, nullable := false },
    { name := "Recipient", dataType := .varchar 80, reference := some recipient.reference }]
  primaryKey := ⟨"PK_Letter", ["Id"]⟩

def mail : Schema := { tables := [member, letter] }

end Sample

/-- The foreign key is added before the unique constraint that its target column needs. -/
theorem address_keyed_too_late : ∃ script labelled,
    Dialect.postgreSql.fullScript Sample.mail = .ok script ∧
      Dialect.postgreSql.labelledScript Sample.mail = .ok labelled ∧
      labelled.map Prod.snd = script ∧ Sample.recipient ∈ Sample.letter.foreignKeys ∧
      Sample.email ∈ Sample.member.uniques ∧
      Sample.recipient.reference.column ∈ Sample.email.columns ∧
      Precedes labelled (.foreignKey Sample.letter Sample.recipient)
        (.unique Sample.member Sample.email) ∧
      ¬ Precedes labelled (.unique Sample.member Sample.email)
        (.foreignKey Sample.letter Sample.recipient) := by
  obtain ⟨script, hscript⟩ : ∃ script, Dialect.postgreSql.fullScript Sample.mail = .ok script :=
    exists_ok_of_isOk (by decide +kernel)
  obtain ⟨labelled, hlabelled, hmap, hkeys⟩ := Dialect.foreignKey_after_keys_iff rfl hscript
  have hforeign : Sample.recipient ∈ Sample.letter.foreignKeys := by decide
  have hunique : Sample.email ∈ Sample.member.uniques := List.mem_cons_self
  have hcolumn : Sample.recipient.reference.column ∈ Sample.email.columns := List.mem_cons_self
  obtain ⟨target, hfind, _, hlate, _, _⟩ :=
    hkeys Sample.letter (by decide) Sample.recipient hforeign
  cases hfind
  refine ⟨script, labelled, hscript, hlabelled, hmap, hforeign, hunique, hcolumn,
    hlate _ hunique, (hlate _ hunique).asymm⟩

end Schemata
