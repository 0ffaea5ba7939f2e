import Schemata.Proofs.ScriptOrder
import Schemata.Proofs.Wording
import Mathlib.Data.List.Basic

/-! Views in a creation script. They are created in the order of their declaration, one statement
each, whatever they read; and whether a schema resolves does not depend on that order. -/
namespace Schemata

namespace Statement

/-- Whether the statement is run and creates a view. -/
def createsView (x : Statement) : Bool :=
  x.kind == .plain && "CREATE VIEW ".toList.isPrefixOf x.sql.toList

theorem OpensWith.createsView_eq_false {openings : List String} {x : Statement}
    (h : x.OpensWith openings) (hpart : openings.all (partWays "CREATE VIEW ") = true) :
    x.createsView = false := by
  by_contra hview
  obtain ⟨hplain, hwords⟩ : x.kind = .plain ∧ "CREATE VIEW ".toList <+: x.sql.toList := by
    simpa [createsView] using hview
  exact h.not_begins hplain hpart hwords

end Statement

open Statement (createsView)

namespace Dialect

variable {d : Dialect} {s : Schema} {script : Script}

/-- The statement that creates a view, without the comment above it. -/
def viewStatement (d : Dialect) (v : View) : Statement :=
  .plain ("CREATE VIEW " ++ d.quote v.name ++ " (" ++ d.quotedList v.columns ++ ") AS\n" ++
    v.query.first.render d.plainStyle ++
    String.join (v.query.unions.map fun (kind, select) =>
      "\n" ++ kind.text ++ "\n" ++ select.render d.plainStyle) ++
    d.optionsClause "\n" v.hints)

theorem viewStatement_createsView (d : Dialect) (v : View) :
    (d.viewStatement v).createsView = true := by
  simp [createsView, viewStatement, Statement.plain, String.toList_append]

theorem filter_createView (d : Dialect) (v : View) :
    (d.createView v).filter createsView = [d.viewStatement v] := by
  have hview : [d.viewStatement v].filter createsView = [d.viewStatement v] :=
    List.filter_cons_of_pos (d.viewStatement_createsView v)
  have hcomment : (v.comment.map fun text =>
      Statement.comment (v.name ++ ": " ++ text)).toList.filter createsView = [] := by
    cases v.comment <;> rfl
  unfold createView
  rw [List.filter_append, hcomment, List.nil_append]
  exact hview

/-- The views that a part of the creation script creates. -/
def viewsOf : Part → List View
  | .view v => [v]
  | _ => []

theorem filter_partStatements {part : Part} {own : List Statement}
    (h : d.partStatements s part = .ok own) :
    own.filter createsView = (viewsOf part).map d.viewStatement := by
  have hnone : ∀ {openings : List String}, openings.all (Statement.partWays "CREATE VIEW ") = true →
      (∀ x ∈ own, x.OpensWith openings) → own.filter createsView = [] := fun hpart hown =>
    List.filter_eq_nil_iff.mpr fun x hx => by simp [(hown x hx).createsView_eq_false hpart]
  cases part with
  | header =>
    cases h
    rfl
  | table t =>
    obtain ⟨x, hx, h⟩ := bind_ok_iff.mp h
    cases h
    have hopens : ∀ y ∈ d.scriptComment t ++ [x], y.OpensWith ["CREATE TABLE "] := by
      intro y hy
      rcases List.mem_append.mp hy with hy | hy
      · exact (scriptComment_opens hy).mono (by decide)
      · cases List.mem_singleton.mp hy
        exact createTable_opens hx
    exact hnone (by decide) hopens
  | primaryKey t => exact hnone (by decide) fun y hy => addPrimaryKey_opens h hy
  | foreignKey t f => exact hnone (by decide) fun y hy => addForeignKey_opens h hy
  | unique t u => exact hnone (by decide) fun y hy => addUnique_opens h hy
  | indexes t =>
    cases h
    exact hnone (by decide) (List.forall_mem_map.mpr fun i _ => d.createIndex_opens t.name i)
  | comments t =>
    cases h
    exact hnone (by decide) fun y hy => comments_opens hy
  | view v =>
    cases h
    exact d.filter_createView v
  | trigger t =>
    cases h
    exact hnone (by decide) fun y hy => createTrigger_opens hy
  | seed r =>
    cases h
    exact hnone (by decide) (List.forall_mem_singleton.mpr (d.changeRows_opens r.body))

theorem filter_emitAll {parts : List Part} {out : List Statement}
    (h : emitAll (d.partStatements s) parts = .ok out) :
    out.filter createsView = (parts.flatMap viewsOf).map d.viewStatement := by
  induction parts generalizing out with
  | nil =>
    cases h
    rfl
  | cons part parts ih =>
    rw [emitAll_cons] at h
    obtain ⟨own, hown, h⟩ := bind_ok_iff.mp h
    obtain ⟨rest, hrest, h⟩ := bind_ok_iff.mp h
    cases h
    rw [List.filter_append, filter_partStatements hown, ih hrest, List.flatMap_cons,
      List.map_append]

theorem viewsOf_parts (d : Dialect) (s : Schema) : (d.parts s).flatMap viewsOf = s.views := by
  have hnone : ∀ {β : Type} (part : β → Part) (l : List β), (∀ b, viewsOf (part b) = []) →
      (l.map part).flatMap viewsOf = [] := by
    intro β part l h
    rw [List.flatMap_map]
    exact List.flatMap_eq_nil_iff.mpr fun b _ => h b
  have hkeys : (d.keyParts s).flatMap viewsOf = [] := by
    unfold keyParts
    split <;> simp [List.flatMap_assoc, List.flatMap_map, viewsOf]
  have hviews : (s.views.map .view).flatMap viewsOf = s.views := by
    rw [List.flatMap_map]
    exact List.flatMap_singleton' s.views
  rw [parts, List.cons_append, List.cons_append, List.cons_append, List.cons_append,
    List.cons_append, List.cons_append, List.flatMap_cons]
  simp only [List.flatMap_append, hkeys, hviews, hnone .table _ fun _ => rfl,
    hnone .indexes _ fun _ => rfl, hnone .comments _ fun _ => rfl, hnone .trigger _ fun _ => rfl,
    hnone .seed _ fun _ => rfl, List.append_nil]
  rfl

/-- The views of the script are the views of the schema, in the order of their declaration. -/
theorem filter_fullScript (h : d.fullScript s = .ok script) :
    script.filter createsView = s.views.map d.viewStatement := by
  rw [fullScript_eq_parts] at h
  obtain ⟨_, _, h⟩ := bind_ok_iff.mp h
  rw [filter_emitAll h, viewsOf_parts]

/-- The statement that creates the i-th view is the i-th statement that creates a view. -/
theorem viewStatement_position (h : d.fullScript s = .ok script) {i : Nat} {v : View}
    (hv : s.views[i]? = some v) : ∃ p, (script.findIdxs createsView)[i]? = some p ∧
      script[p]? = some (d.viewStatement v) := by
  have hfilter := filter_fullScript h
  have hi : i < (script.filter createsView).length := by
    rw [hfilter, List.length_map]
    exact (List.getElem?_eq_some_iff.mp hv).1
  have hi' : i < (script.findIdxs createsView).length := by
    rwa [List.length_findIdxs, List.countP_eq_length_filter]
  refine ⟨_, List.getElem?_eq_getElem hi', ?_⟩
  have hstatement : (script.filter createsView)[i] = d.viewStatement v := by
    have hmap : (s.views.map d.viewStatement)[i]? = some (d.viewStatement v) := by
      rw [List.getElem?_map, hv]
      rfl
    rw [← hfilter, List.getElem?_eq_getElem hi] at hmap
    exact Option.some.inj hmap
  rw [List.getElem_filter_eq_getElem_getElem_findIdxs hi] at hstatement
  rw [← hstatement]
  exact List.getElem?_eq_getElem _

end Dialect

namespace Schema

variable {s : Schema} {views : List View}

theorem findView_perm (hn : (s.views.map (·.name)).Nodup) (hp : views.Perm s.views)
    (name : String) : ({ s with views } : Schema).findView? name = s.findView? name := by
  have hn' : (views.map (·.name)).Nodup := (hp.map _).nodup_iff.mpr hn
  refine Option.ext fun v => ?_
  rw [findView?, findView?, find_key_eq_some_iff hn, find_key_eq_some_iff hn', hp.mem_iff]

theorem sourceColumns_perm (hn : (s.views.map (·.name)).Nodup) (hp : views.Perm s.views) :
    ({ s with views } : Schema).sourceColumns? = s.sourceColumns? := by
  funext name
  unfold sourceColumns?
  rw [findView_perm hn hp]
  rfl

/-- What a view reads is looked up by name, wherever it is declared. -/
theorem resolveView_perm (hn : (s.views.map (·.name)).Nodup) (hp : views.Perm s.views) (v : View) :
    Resolve.view { s with views } v = Resolve.view s v := by
  have hbind : ({ s with views } : Schema).bind = s.bind := by
    funext source t
    unfold Schema.bind
    rw [sourceColumns_perm hn hp]
  unfold Resolve.view Resolve.select
  rw [hbind]

/-- A schema resolves in whatever order its views are declared. -/
theorem resolve_perm (hn : (s.views.map (·.name)).Nodup) (hp : views.Perm s.views)
    (h : s.resolve = .ok ()) : ({ s with views } : Schema).resolve = .ok () := by
  obtain ⟨htables, hviews, hstatements⟩ := resolve_ok_iff.mp h
  refine resolve_ok_iff.mpr ⟨htables, fun v hv => ?_, hstatements⟩
  rw [resolveView_perm hn hp]
  exact hviews v (hp.mem_iff.mp hv)

end Schema

namespace Dialect

variable {d : Dialect} {s : Schema} {script : Script}

/-- A creation script creates each view once, in the order of declaration: of two views the one
that is declared first is created first, whichever of them reads the other. Declaring the views in
another order is accepted as well. -/
theorem views_created_as_declared (h : d.fullScript s = .ok script) :
    script.filter createsView = s.views.map d.viewStatement ∧
      (∀ (i j : Nat) (v w : View), s.views[i]? = some v → s.views[j]? = some w →
        ∃ p q, (script.findIdxs createsView)[i]? = some p ∧
          (script.findIdxs createsView)[j]? = some q ∧ script[p]? = some (d.viewStatement v) ∧
          script[q]? = some (d.viewStatement w) ∧ (q < p ↔ j < i)) ∧
      ((s.views.map (·.name)).Nodup → ∀ views : List View, views.Perm s.views →
        ({ s with views } : Schema).resolve = .ok ()) := by
  refine ⟨filter_fullScript h, ?_, ?_⟩
  · intro i j v w hv hw
    obtain ⟨p, hp, hstatement⟩ := viewStatement_position h hv
    obtain ⟨q, hq, hother⟩ := viewStatement_position h hw
    refine ⟨p, q, hp, hq, hstatement, hother, ?_⟩
    obtain ⟨hi, rfl⟩ := List.getElem?_eq_some_iff.mp hp
    obtain ⟨hj, rfl⟩ := List.getElem?_eq_some_iff.mp hq
    have hsorted : (script.findIdxs createsView).Pairwise (· < ·) := List.pairwise_findIdxs
    rw [List.pairwise_iff_getElem] at hsorted
    constructor
    · intro hlt
      by_contra hle
      rcases Nat.lt_or_ge i j with hij | hji
      · have := hsorted i j hi hj hij
        omega
      · obtain rfl : i = j := by omega
        omega
    · exact hsorted j i hj hi
  · intro hn views hp
    obtain ⟨_, hresolve, _⟩ := bind_ok_iff.mp h
    exact Schema.resolve_perm hn hp hresolve

end Dialect

namespace Sample

def entry : Table where
  name := "Entry"
  columns := [
    { name := "Id", dataType := .integer, nullable := false },
    { name := "Amount", dataType := .integer }]
  primaryKey := ⟨"PK_Entry", ["Id"]⟩

/-- A view of a single column of a table or view. -/
def columnView (name column source : String) : View :=
  ⟨name, [column], ⟨{ items := [.column none column], source := { table := source } }, []⟩, none,
    []⟩

def payments : View := columnView "Payments" "Amount" "Entry"

def totals : View := columnView "Totals" "Amount" "Payments"

/-- The view that reads another one is declared before it. -/
def ledger : Schema := { tables := [entry], views := [totals, payments] }

def mirror : View := columnView "Mirror" "Face" "Mirror"

end Sample

/-- The view that reads the other one is created first, and would be created last had it been
declared last. -/
theorem totals_created_before_payments :
    ∃ script, Dialect.postgreSql.fullScript Sample.ledger = .ok script ∧
      (∃ p q : Nat, script[p]? = some (Dialect.postgreSql.viewStatement Sample.payments) ∧
        script[q]? = some (Dialect.postgreSql.viewStatement Sample.totals) ∧ q < p) ∧
      ({ Sample.ledger with views := [Sample.payments, Sample.totals] } : Schema).resolve
        = .ok () := by
  obtain ⟨script, hscript⟩ : ∃ script, Dialect.postgreSql.fullScript Sample.ledger = .ok script :=
    exists_ok_of_isOk (by decide +kernel)
  obtain ⟨_, hpositions, horders⟩ := Dialect.views_created_as_declared hscript
  obtain ⟨p, q, _, _, hp, hq, hlt⟩ := hpositions 1 0 Sample.payments Sample.totals rfl rfl
  exact ⟨script, hscript, ⟨p, q, hp, hq, hlt.mpr Nat.zero_lt_one⟩,
    horders (by decide) [Sample.payments, Sample.totals] (List.Perm.swap ..)⟩

/-- A view is accepted that reads a view created after it, and so is one that reads itself. -/
theorem later_view_read :
    Sample.ledger.resolve = .ok () ∧ Sample.payments.name ∈ Sample.totals.referencedTables ∧
      (Dialect.postgreSql.fullScript Sample.ledger).map (List.filter createsView) =
        .ok [Dialect.postgreSql.viewStatement Sample.totals,
          Dialect.postgreSql.viewStatement Sample.payments] ∧
      Dialect.postgreSql.viewStatement Sample.totals ≠
        Dialect.postgreSql.viewStatement Sample.payments ∧
      Schema.resolve { views := [Sample.mirror] } = .ok () ∧
      Sample.mirror.name ∈ Sample.mirror.referencedTables := by
  refine ⟨?_, ?_, ?_, ?_, ?_, ?_⟩ <;> decide +kernel

end Schemata
