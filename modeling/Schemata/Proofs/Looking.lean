import Schemata.Command.Sources

/-!
Commands on files in memory, and those that only look at them: the search for sources and the
reading of a schema leave the world as it is, whatever they find.
-/

namespace Schemata

namespace World

variable {ε α β : Type}

/-- The result of a command, and the world that it leaves. -/
def exec (x : ExceptT ε (StateM World) α) (w : World) : Except ε α × World :=
  (x.run.run w).run

theorem exec_lift (x : StateM World α) (w : World) :
    exec (liftM x : ExceptT ε (StateM World) α) w = (.ok (x.run w).1, (x.run w).2) := rfl

theorem exec_liftExcept (x : Except ε α) (w : World) :
    exec (liftM x : ExceptT ε (StateM World) α) w = (x, w) := rfl

theorem exec_bind (x : ExceptT ε (StateM World) α) (f : α → ExceptT ε (StateM World) β)
    (w : World) : exec (x >>= f) w = match exec x w with
      | (.ok a, w') => exec (f a) w'
      | (.error e, w') => (.error e, w') := by
  simp only [exec, ExceptT.run_bind, StateT.run_bind]
  change ((match (x.run.run w).1 with
    | .ok a => (f a).run
    | .error e => pure (.error e) : StateM World (Except ε β)).run (x.run.run w).2).run = _
  cases x.run.run w with
  | mk r w' => cases r <;> rfl

/-- Two commands in a row end with a failure of the first one, or as the second one ends. -/
theorem exec_bind_eq_iff {x : ExceptT ε (StateM World) α} {f : α → ExceptT ε (StateM World) β}
    {w w' : World} {r : Except ε β} : exec (x >>= f) w = (r, w') ↔
      (∃ e, exec x w = (.error e, w') ∧ .error e = r) ∨
        ∃ a v, exec x w = (.ok a, v) ∧ exec (f a) v = (r, w') := by
  rw [exec_bind]
  generalize exec x w = first
  obtain ⟨first, v⟩ := first
  cases first with
  | error e =>
    constructor
    · intro h
      cases h
      exact .inl ⟨e, rfl, rfl⟩
    · rintro (⟨e', hx, rfl⟩ | ⟨a, v', hx, h⟩) <;> cases hx
      rfl
  | ok a =>
    constructor
    · intro h
      exact .inr ⟨a, v, rfl, h⟩
    · rintro (⟨e', hx, rfl⟩ | ⟨a', v', hx, h⟩) <;> cases hx
      exact h

theorem exec_bind_ok_iff {x : ExceptT ε (StateM World) α} {f : α → ExceptT ε (StateM World) β}
    {w w' : World} {b : β} : exec (x >>= f) w = (.ok b, w') ↔
      ∃ a v, exec x w = (.ok a, v) ∧ exec (f a) v = (.ok b, w') := by
  rw [exec_bind_eq_iff]
  simp

theorem exec_bind_error_iff {x : ExceptT ε (StateM World) α}
    {f : α → ExceptT ε (StateM World) β} {w w' : World} {e : ε} :
    exec (x >>= f) w = (.error e, w') ↔ exec x w = (.error e, w') ∨
      ∃ a v, exec x w = (.ok a, v) ∧ exec (f a) v = (.error e, w') := by
  rw [exec_bind_eq_iff]
  simp

theorem exec_mapM_lift (f : α → Except ε β) (l : List α) (w : World) :
    exec (l.mapM fun a => (liftM (f a) : ExceptT ε (StateM World) β)) w = (l.mapM f, w) := by
  induction l with
  | nil => rfl
  | cons a l ih =>
    rw [List.mapM_cons, List.mapM_cons, exec_bind]
    change (match (f a, w) with
      | (.ok b, v) => _
      | (.error e, v) => _) = _
    cases f a with
    | error e => rfl
    | ok b =>
      simp only [exec_bind, ih]
      cases l.mapM f <;> rfl

theorem run_update (f : FileTree → Except FileFault FileTree) (w : World) :
    (update f).run w = match f w.tree with
      | .ok tree => (.ok (), { w with tree })
      | .error e => (.error e, w) := by
  rw [update, StateT.run_bind, StateT.run_get]
  change ((match f w.tree with
    | .ok tree => do
      set { w with tree }
      return .ok ()
    | .error e => return .error e) : StateM World (Except FileFault Unit)).run w = _
  cases f w.tree with
  | ok tree => rfl
  | error e => rfl

theorem run_createDir (maxDepth : Nat) (path : String) (w : World) :
    ((ops maxDepth).createDir path).run w = match w.tree.createDir path with
      | .ok tree => (.ok (), { w with tree })
      | .error e => (.error e, w) :=
  run_update (fun t => t.createDir path) w

theorem run_write (maxDepth : Nat) (path text : String) (w : World) :
    ((ops maxDepth).write path text).run w = match w.tree.write path text with
      | .ok tree => (.ok (), { w with tree })
      | .error e => (.error e, w) :=
  run_update (fun t => t.write path text) w

/-- A computation that only looks at the world. -/
def OnlyLooks (x : ExceptT ε (StateM World) α) : Prop :=
  ∀ w, (exec x w).2 = w

namespace OnlyLooks

theorem pure (a : α) : OnlyLooks (Pure.pure a : ExceptT ε (StateM World) α) := by
  intro w
  rfl

theorem throw (e : ε) : OnlyLooks (MonadExcept.throw e : ExceptT ε (StateM World) α) := by
  intro w
  rfl

theorem liftExcept (x : Except ε α) : OnlyLooks (liftM x : ExceptT ε (StateM World) α) := by
  intro w
  rfl

theorem lift {x : StateM World α} (h : ∀ w, (x.run w).2 = w) :
    OnlyLooks (liftM x : ExceptT ε (StateM World) α) := by
  intro w
  rw [exec_lift, h]

theorem bind {x : ExceptT ε (StateM World) α} {f : α → ExceptT ε (StateM World) β}
    (hx : OnlyLooks x) (hf : ∀ a, OnlyLooks (f a)) : OnlyLooks (x >>= f) := by
  intro w
  have h := hx w
  rw [exec_bind]
  generalize exec x w = r at h
  obtain ⟨r, w'⟩ := r
  cases h
  cases r with
  | error e => rfl
  | ok a => exact hf a w'

theorem ite {c : Prop} [Decidable c] {x y : ExceptT ε (StateM World) α} (hx : OnlyLooks x)
    (hy : OnlyLooks y) : OnlyLooks (if c then x else y) := by
  by_cases hc : c
  · rwa [if_pos hc]
  · rwa [if_neg hc]

theorem mapM {f : α → ExceptT ε (StateM World) β} (h : ∀ a, OnlyLooks (f a)) (l : List α) :
    OnlyLooks (l.mapM f) := by
  induction l with
  | nil => exact pure []
  | cons a l ih =>
    rw [List.mapM_cons]
    apply bind (h a)
    intro b
    apply bind ih
    intro bs
    exact pure (b :: bs)

theorem filterM {f : α → ExceptT ε (StateM World) Bool} (h : ∀ a, OnlyLooks (f a)) (l : List α) :
    OnlyLooks (l.filterM f) := by
  have haux : ∀ found, OnlyLooks (l.filterAuxM f found) := by
    induction l with
    | nil => exact pure
    | cons a l ih =>
      intro found
      rw [List.filterAuxM]
      apply bind (h a)
      intro b
      apply ih
  apply bind (haux [])
  intro found
  exact pure _

end OnlyLooks

variable (maxDepth : Nat)

theorem looks_isFile (path : String) :
    OnlyLooks (liftM ((ops maxDepth).isFile path) : ExceptT ε (StateM World) Bool) :=
  .lift fun _ => rfl

theorem looks_isDir (path : String) :
    OnlyLooks (liftM ((ops maxDepth).isDir path) : ExceptT ε (StateM World) Bool) :=
  .lift fun _ => rfl

theorem looks_pathExists (path : String) :
    OnlyLooks (liftM ((ops maxDepth).pathExists path) : ExceptT ε (StateM World) Bool) :=
  .lift fun _ => rfl

theorem looks_list (path : String) :
    OnlyLooks (liftM ((ops maxDepth).list path) :
      ExceptT ε (StateM World) (Except FileFault (List String))) :=
  .lift fun _ => rfl

theorem looks_read (path : String) :
    OnlyLooks
      (liftM ((ops maxDepth).read path) : ExceptT ε (StateM World) (Except FileFault String)) :=
  .lift fun _ => rfl

end World

open World

/-! ### Looking for sources -/

namespace Glob

variable {again : String → List GlobPattern →
  ExceptT (String × FileFault) (StateM World) (List String)}

theorem looks_reach (h : ∀ path rest, OnlyLooks (again path rest)) (path : String)
    (rest : List GlobPattern) : OnlyLooks (reach again path rest) := by
  cases rest with
  | nil => exact .pure [path]
  | cons p rest => exact h path (p :: rest)

theorem looks_descend (h : ∀ path rest, OnlyLooks (again path rest)) (child name : String)
    (rest : List GlobPattern) : OnlyLooks (descend again child name rest) := by
  cases rest with
  | nil => exact .pure []
  | cons p rest => exact .ite (looks_reach h child rest) (.pure [])

theorem looks_visit (maxDepth : Nat) (h : ∀ path rest, OnlyLooks (again path rest))
    (child name : String) (p : GlobPattern) (rest : List GlobPattern) :
    OnlyLooks (visit (World.ops maxDepth) again child name p rest) := by
  rw [visit]
  apply OnlyLooks.ite
  · exact looks_descend h child name (p :: rest)
  · apply OnlyLooks.bind (looks_isDir maxDepth child)
    intro isDir
    have hinside : ∀ here rest, OnlyLooks (again child (p :: rest) >>= fun inside =>
        pure (here ++ inside)) := fun here rest =>
      .bind (h child (p :: rest)) fun inside => .pure (here ++ inside)
    apply OnlyLooks.ite
    · apply OnlyLooks.ite
      · exact .bind (.pure [child]) fun here => hinside here _
      · exact .bind (looks_descend h child name _) fun here => hinside here _
    · exact looks_descend h child name _

theorem looks_search (maxDepth fuel : Nat) (path : String) (pattern : List GlobPattern) :
    OnlyLooks (search (World.ops maxDepth) fuel path pattern) := by
  induction fuel generalizing path pattern with
  | zero => exact .pure []
  | succ fuel ih =>
    cases pattern with
    | nil => exact .pure []
    | cons p rest =>
      rw [search]
      cases p.literal? with
      | some name =>
        have hnext : ∀ found : Bool, OnlyLooks (if found then
            reach (search (World.ops maxDepth) fuel) (below path name) rest else pure []) :=
          fun found => .ite (looks_reach ih _ rest) (.pure [])
        apply OnlyLooks.ite
        · exact .bind (looks_isDir maxDepth path) hnext
        · exact .bind (looks_pathExists maxDepth _) hnext
      | none =>
        apply OnlyLooks.bind (looks_isDir maxDepth path)
        intro isDir
        apply OnlyLooks.ite
        · exact .pure []
        · apply OnlyLooks.bind (looks_list maxDepth path)
          intro names
          cases names with
          | error e => exact .throw (path, e)
          | ok names =>
            apply OnlyLooks.bind (.mapM (fun name => looks_reach ih _ rest) (dotNames p))
            intro dots
            apply OnlyLooks.bind (.mapM (fun name => looks_visit maxDepth ih _ name p rest) _)
            intro inside
            exact .pure (dots.flatten ++ inside.flatten)

theorem looks_paths (maxDepth : Nat) (pattern : String) (compiled : List GlobPattern) :
    OnlyLooks (paths (World.ops maxDepth) pattern compiled) := by
  apply OnlyLooks.bind (looks_search maxDepth _ _ compiled)
  intro found
  apply OnlyLooks.ite
  · exact .filterM (looks_isDir maxDepth) found
  · exact .pure found

end Glob

namespace Command

variable (maxDepth : Nat)

theorem looks_readFile (path : String) : OnlyLooks (readFile (World.ops maxDepth) path) := by
  apply OnlyLooks.bind (looks_read maxDepth path)
  intro text
  cases text with
  | ok text => exact .pure text
  | error fault => exact .throw (CommandError.unreadable path fault)

theorem looks_sourcesBelow (directory extension : String) :
    OnlyLooks (sourcesBelow (World.ops maxDepth) directory extension) := by
  rw [sourcesBelow]
  cases Glob.compile? (directory ++ "/**/*." ++ extension) with
  | none => exact .throw _
  | some compiled =>
    apply OnlyLooks.bind (.lift fun w => Glob.looks_paths maxDepth _ compiled w)
    intro found
    cases found with
    | ok found => exact .pure (found.mergeSort Path.le)
    | error e => exact .throw (CommandError.unreadable e.1 e.2)

theorem looks_findSources (extension : String) (found paths : List String) :
    OnlyLooks (findSources (World.ops maxDepth) extension found paths) := by
  induction paths generalizing found with
  | nil => exact .pure found
  | cons path paths ih =>
    rw [findSources]
    apply OnlyLooks.bind (looks_isFile maxDepth path)
    intro isFile
    apply OnlyLooks.ite (ih (addPath found path))
    apply OnlyLooks.bind (looks_isDir maxDepth path)
    intro isDir
    apply OnlyLooks.ite
    · apply OnlyLooks.bind (looks_sourcesBelow maxDepth path extension)
      intro below
      exact ih (below.foldl addPath found)
    · exact .throw (CommandError.noSources path)

theorem looks_readSources (paths : List String) :
    OnlyLooks (readSources (World.ops maxDepth) paths) := by
  induction paths with
  | nil => exact .pure []
  | cons path paths ih =>
    apply OnlyLooks.bind (looks_readFile maxDepth path)
    intro text
    apply OnlyLooks.bind ih
    intro files
    exact .pure (⟨path, text⟩ :: files)

theorem looks_loadSchema (config : Config) (paths : List String) :
    OnlyLooks (loadSchema (World.ops maxDepth) config paths) := by
  apply OnlyLooks.bind
  · apply OnlyLooks.bind (looks_findSources maxDepth config.sourceExtension [] paths)
    intro found
    have hread : OnlyLooks (readSources (World.ops maxDepth) found >>= fun files =>
        pure (⟨files⟩ : SourceSet)) :=
      .bind (looks_readSources maxDepth found) fun files => .pure (SourceSet.mk files)
    apply OnlyLooks.ite
    · exact .bind (.throw _) fun _ => hread
    · exact hread
  · intro sources
    exact .liftExcept (parseSources sources)

end Command

end Schemata
