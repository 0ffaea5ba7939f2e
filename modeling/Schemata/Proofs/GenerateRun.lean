import Schemata.Command.Run
import Schemata.Proofs.Emission
import Schemata.Proofs.Looking
import Schemata.Proofs.WrittenFiles

/-!
A generating command on files in memory. Everything that can go wrong with a request, its sources
or a script goes wrong while the command only looks; afterwards it makes a directory, sets one file
for each dialect, and fails only where the files do not let it.
-/

namespace Schemata

open World

namespace Command

variable (maxDepth : Nat)

theorem looks_prepareScripts (config : Config) (args : GenerateArgs) :
    OnlyLooks (prepareScripts (World.ops maxDepth) config args) := by
  apply OnlyLooks.bind (.liftExcept (chooseDialects args.generators config.dialect))
  intro dialects
  have hmake : OnlyLooks (loadSchema (World.ops maxDepth) config args.sources >>= fun schema =>
      dialects.mapM fun d => liftM (makeScript schema d)) :=
    .bind (looks_loadSchema maxDepth config args.sources) fun schema =>
      .mapM (fun d => .liftExcept (makeScript schema d)) dialects
  apply OnlyLooks.ite
  · exact .bind (.throw _) fun _ => hmake
  · exact hmake

theorem prepareScripts_ok {config : Config} {args : GenerateArgs} {w w' : World}
    {scripts : List DialectScript}
    (h : exec (prepareScripts (World.ops maxDepth) config args) w = (.ok scripts, w')) :
    w' = w ∧ ∃ dialects schema, chooseDialects args.generators config.dialect = .ok dialects ∧
      exec (loadSchema (World.ops maxDepth) config args.sources) w = (.ok schema, w) ∧
      dialects.mapM (makeScript schema) = .ok scripts := by
  have hw : w' = w := by
    have hlooks := looks_prepareScripts maxDepth config args w
    rwa [h] at hlooks
  refine ⟨hw, ?_⟩
  rw [prepareScripts, exec_bind_ok_iff] at h
  obtain ⟨dialects, v, hchoose, h⟩ := h
  rw [exec_liftExcept, Prod.mk.injEq] at hchoose
  obtain ⟨hchoose, rfl⟩ := hchoose
  by_cases hseveral : (args.outputFile.isSome && decide (dialects.length > 1)) = true
  · rw [if_pos hseveral] at h
    cases h
  rw [if_neg hseveral, exec_bind_ok_iff] at h
  obtain ⟨schema, v, hload, h⟩ := h
  have hv : v = w := by
    have hlooks := looks_loadSchema maxDepth config args.sources w
    rwa [hload] at hlooks
  subst hv
  rw [exec_mapM_lift, Prod.mk.injEq] at h
  exact ⟨dialects, schema, hchoose, hload, h.1⟩

/-! ### Writing scripts -/

/-- A computation that fails only where a file or directory cannot be written. -/
def OnlyUnwritable {α : Type} (x : ExceptT CommandError (StateM World) α) : Prop :=
  ∀ w w' e, exec x w = (.error e, w') → ∃ path fault, e = .unwritable path fault

namespace OnlyUnwritable

variable {α β : Type}

theorem lift (x : StateM World α) :
    OnlyUnwritable (liftM x : ExceptT CommandError (StateM World) α) := by
  intro w w' e h
  cases h

theorem pure (a : α) :
    OnlyUnwritable (Pure.pure a : ExceptT CommandError (StateM World) α) := by
  intro w w' e h
  cases h

theorem bind {x : ExceptT CommandError (StateM World) α}
    {f : α → ExceptT CommandError (StateM World) β} (hx : OnlyUnwritable x)
    (hf : ∀ a, OnlyUnwritable (f a)) : OnlyUnwritable (x >>= f) := by
  intro w w' e h
  rcases exec_bind_error_iff.mp h with h | ⟨a, v, -, h⟩
  · exact hx w w' e h
  · exact hf a v w' e h

end OnlyUnwritable

theorem exec_unwritable {path : String} {x : StateM World (Except FileFault Unit)} :
    OnlyUnwritable (do
      match ← (liftM x : ExceptT CommandError (StateM World) (Except FileFault Unit)) with
      | .ok () => return ()
      | .error fault => throw (.unwritable path fault)) := by
  apply OnlyUnwritable.bind (.lift x)
  intro r w w' e h
  cases r with
  | ok u => cases h
  | error fault =>
    cases h
    exact ⟨path, fault, rfl⟩

theorem onlyUnwritable_makeDirectory (path : String) :
    OnlyUnwritable (makeDirectory (World.ops maxDepth) path) :=
  exec_unwritable

theorem onlyUnwritable_writeFile (path text : String) :
    OnlyUnwritable (writeFile (World.ops maxDepth) path text) :=
  exec_unwritable

theorem onlyUnwritable_status (s : Settings) (line : String) :
    OnlyUnwritable (status (World.ops maxDepth) s line) := by
  rw [status]
  split
  · exact .lift _
  · exact .pure ()

theorem onlyUnwritable_writeScript (s : Settings) (args : GenerateArgs) (script : DialectScript) :
    OnlyUnwritable (writeScript (World.ops maxDepth) s args script) := by
  rw [writeScript]
  cases args.target? script.dialect with
  | none => exact .lift _
  | some path =>
    apply OnlyUnwritable.bind (onlyUnwritable_writeFile maxDepth path script.text)
    intro _
    exact onlyUnwritable_status maxDepth s _

theorem onlyUnwritable_writeScripts (s : Settings) (args : GenerateArgs)
    (scripts : List DialectScript) :
    OnlyUnwritable (writeScripts (World.ops maxDepth) s args scripts) := by
  induction scripts with
  | nil => exact .pure ()
  | cons script scripts ih =>
    apply OnlyUnwritable.bind (onlyUnwritable_writeScript maxDepth s args script)
    intro _
    exact ih

/-- What is said when the scripts have gone to files. -/
def reportScripts (fs : FileOps (StateM World)) (s : Settings) (args : GenerateArgs)
    (scripts : List DialectScript) : ExceptT CommandError (StateM World) Unit := do
  if args.outputFile.isSome || args.outputDir.isSome then
    match s.format with
    | .human => success fs s (toString scripts.length ++ " script(s) written")
    | .json => printJson fs (scriptsJson args scripts)
    | .plain => pure ()

/-- What is done with scripts that have all been made. -/
def deliverScripts (fs : FileOps (StateM World)) (s : Settings) (args : GenerateArgs)
    (scripts : List DialectScript) : ExceptT CommandError (StateM World) Unit := do
  match args.outputDir with
  | some dir => makeDirectory fs dir
  | none => pure ()
  writeScripts fs s args scripts
  reportScripts fs s args scripts

theorem runGenerate_eq (fs : FileOps (StateM World)) (s : Settings) (config : Config)
    (args : GenerateArgs) : runGenerate fs s config args =
      prepareScripts fs config args >>= deliverScripts fs s args := rfl

theorem onlyUnwritable_reportScripts (s : Settings) (args : GenerateArgs)
    (scripts : List DialectScript) :
    OnlyUnwritable (reportScripts (World.ops maxDepth) s args scripts) := by
  rw [reportScripts]
  split
  · split
    · exact onlyUnwritable_status maxDepth s _
    · exact .lift _
    · exact .pure ()
  · exact .pure ()

theorem onlyUnwritable_deliverScripts (s : Settings) (args : GenerateArgs)
    (scripts : List DialectScript) :
    OnlyUnwritable (deliverScripts (World.ops maxDepth) s args scripts) := by
  have hrest : OnlyUnwritable (writeScripts (World.ops maxDepth) s args scripts >>= fun _ =>
      reportScripts (World.ops maxDepth) s args scripts) :=
    .bind (onlyUnwritable_writeScripts maxDepth s args scripts) fun _ =>
      onlyUnwritable_reportScripts maxDepth s args scripts
  rw [deliverScripts]
  cases args.outputDir with
  | none => exact hrest
  | some dir => exact .bind (onlyUnwritable_makeDirectory maxDepth dir) fun _ => hrest

/-- A run that fails for any other reason than an unwritable file has only looked. -/
theorem runGenerate_error {s : Settings} {config : Config} {args : GenerateArgs} {w w' : World}
    {e : CommandError}
    (h : exec (runGenerate (World.ops maxDepth) s config args) w = (.error e, w'))
    (he : ∀ path fault, e ≠ .unwritable path fault) : w' = w := by
  rw [runGenerate_eq, exec_bind_error_iff] at h
  rcases h with h | ⟨scripts, v, -, h⟩
  · have hlooks := looks_prepareScripts maxDepth config args w
    rwa [h] at hlooks
  · obtain ⟨path, fault, rfl⟩ := onlyUnwritable_deliverScripts maxDepth s args scripts v w' e h
    exact absurd rfl (he path fault)

/-! ### The files after a run -/

/-- The name of the file of a dialect. -/
def scriptName (d : Dialect) : String :=
  d.id ++ ".sql"

theorem isFileName_scriptName (d : Dialect) : Path.IsFileName (scriptName d) := by
  cases d <;> constructor <;> decide

theorem scriptName_injective {d d' : Dialect} (h : scriptName d = scriptName d') : d = d' := by
  have hall : ∀ a ∈ Dialect.all, ∀ b ∈ Dialect.all, scriptName a = scriptName b → a = b := by
    decide
  exact hall d d.mem_all d' d'.mem_all h

theorem exec_status_tree (s : Settings) (line : String) (w : World) :
    (exec (status (World.ops maxDepth) s line) w).2.tree = w.tree := by
  rw [status]
  split <;> rfl

theorem exec_reportScripts_tree (s : Settings) (args : GenerateArgs)
    (scripts : List DialectScript) (w : World) :
    (exec (reportScripts (World.ops maxDepth) s args scripts) w).2.tree = w.tree := by
  rw [reportScripts]
  split
  · split
    · exact exec_status_tree maxDepth s _ w
    · rfl
    · rfl
  · rfl

theorem run_ensureDir (path : String) (w : World) :
    ((World.ops maxDepth).ensureDir path).run w = match w.tree.createDir path with
      | .ok tree => (.ok (), { w with tree })
      | .error e => (if w.tree.isDir path then .ok () else .error e, w) := by
  rw [FileOps.ensureDir, StateT.run_bind, run_createDir]
  cases w.tree.createDir path with
  | ok tree => rfl
  | error e => rfl

theorem files_createDir {t t' : FileTree} {path : String} (h : t.createDir path = .ok t') :
    t'.files = t.files := by
  rw [FileTree.createDir, bind_ok_iff] at h
  obtain ⟨place, -, h⟩ := h
  split at h
  · cases h
  · cases h
    rfl

theorem ensureDirs_empty (w : World) :
    ((World.ops maxDepth).ensureDirs "").run w = (.error .notFound, w) := by
  rfl

theorem files_ensureDir (path : String) (w : World) :
    (((World.ops maxDepth).ensureDir path).run w).2.tree.files = w.tree.files := by
  rw [run_ensureDir]
  cases hc : w.tree.createDir path with
  | ok tree => exact files_createDir hc
  | error e => rfl

/-- Making directories leaves the files as they are. -/
theorem files_ensureFirst (paths : List String) (w : World) :
    (((World.ops maxDepth).ensureFirst paths).run w).2.tree.files = w.tree.files := by
  induction paths generalizing w with
  | nil => rfl
  | cons path above ih =>
    rw [FileOps.ensureFirst, StateT.run_bind]
    have hfirst := files_ensureDir maxDepth path w
    generalize ((World.ops maxDepth).ensureDir path).run w = first at hfirst
    obtain ⟨first, v⟩ := first
    cases first with
    | ok u => exact hfirst
    | error fault =>
      cases fault with
      | notFound =>
        have habove := ih v
        change ((StateT.run (do
          match ← (World.ops maxDepth).ensureFirst above with
          | .ok () => (World.ops maxDepth).ensureDir path
          | .error e => return .error e) v).2).tree.files = _
        rw [StateT.run_bind]
        generalize ((World.ops maxDepth).ensureFirst above).run v = rest at habove
        obtain ⟨rest, v'⟩ := rest
        cases rest with
        | error e => exact habove.trans hfirst
        | ok u => exact (files_ensureDir maxDepth path v').trans (habove.trans hfirst)
      | _ => exact hfirst

theorem exec_makeDirectory {dir : String} {w w' : World}
    (h : exec (makeDirectory (World.ops maxDepth) dir) w = (.ok (), w')) :
    dir ≠ "" ∧ w'.tree.files = w.tree.files := by
  rw [makeDirectory, exec_bind_ok_iff] at h
  obtain ⟨r, v, hr, h⟩ := h
  have hfiles := files_ensureFirst maxDepth (dir :: Path.ancestors dir) w
  rw [exec_lift, Prod.mk.injEq] at hr
  cases r with
  | error fault => cases h
  | ok u =>
    cases h
    constructor
    · rintro rfl
      rw [ensureDirs_empty] at hr
      cases hr.1
    · rw [← hr.2]
      exact hfiles

theorem exec_writeFile {path text : String} {w w' : World}
    (h : exec (writeFile (World.ops maxDepth) path text) w = (.ok (), w')) :
    ∃ tree, w.tree.write path text = .ok tree ∧ w' = { w with tree } := by
  rw [writeFile, exec_bind_ok_iff] at h
  obtain ⟨r, v, hr, h⟩ := h
  rw [exec_lift, run_write, Prod.mk.injEq] at hr
  cases ht : w.tree.write path text with
  | error fault =>
    rw [ht] at hr
    cases hr.1
    cases h
  | ok tree =>
    rw [ht] at hr
    cases hr.1
    cases h
    exact ⟨tree, rfl, hr.2.symm⟩

/-- One script sets one file. -/
theorem exec_writeScript {s : Settings} {args : GenerateArgs} {script : DialectScript}
    {dir : String} {w w' : World} (hdir : args.outputDir = some dir)
    (hfile : args.outputFile = none) (hd : dir ≠ "")
    (h : exec (writeScript (World.ops maxDepth) s args script) w = (.ok (), w')) :
    ∃ base, w.tree.DirectoryAt dir base ∧ w'.tree.DirectoryAt dir base ∧
      (Path.join dir (scriptName script.dialect)).utf8ByteSize ≤ FileTree.maxPathSize ∧
      w'.tree = w.tree.setFile (base ++ [scriptName script.dialect]) script.text := by
  have htarget : args.target? script.dialect =
      some (Path.join dir (scriptName script.dialect)) := by
    rw [GenerateArgs.target?, hfile, hdir]
    rfl
  rw [writeScript, htarget, exec_bind_ok_iff] at h
  obtain ⟨⟨⟩, v, hwrite, hstatus⟩ := h
  have htree : w'.tree = v.tree := by
    have hkept := exec_status_tree maxDepth s
      ("  " ++ script.dialect.productName ++ " .... " ++
        Path.join dir (scriptName script.dialect)) v
    rwa [hstatus] at hkept
  obtain ⟨tree, ht, rfl⟩ := exec_writeFile maxDepth hwrite
  obtain ⟨base, hbase, hplace, hs, rfl⟩ := FileTree.write_join hd (isFileName_scriptName _) ht
  rw [htree]
  exact ⟨base, hbase, hbase.setFile hplace, hs, rfl⟩

/-- A tree with the files of some scripts in a directory. -/
def setScripts (base : List String) (t : FileTree) (scripts : List DialectScript) : FileTree :=
  scripts.foldl (fun t script => t.setFile (base ++ [scriptName script.dialect]) script.text) t

theorem lookup_setScripts_of_ne {base place : List String} {scripts : List DialectScript}
    {t : FileTree} (h : ∀ script ∈ scripts, place ≠ base ++ [scriptName script.dialect]) :
    (setScripts base t scripts).files.lookup place = t.files.lookup place := by
  induction scripts generalizing t with
  | nil => rfl
  | cons script scripts ih =>
    rw [List.forall_mem_cons] at h
    rw [setScripts, List.foldl_cons]
    exact (ih h.2).trans (FileTree.lookup_setFile_ne h.1)

theorem lookup_setScripts {base : List String} {scripts : List DialectScript} {t : FileTree}
    {d : Dialect} {text : String} (hmem : ∃ script ∈ scripts, script.dialect = d)
    (htext : ∀ script ∈ scripts, script.dialect = d → script.text = text) :
    (setScripts base t scripts).files.lookup (base ++ [scriptName d]) = some text := by
  induction scripts generalizing t with
  | nil =>
    obtain ⟨script, hscript, -⟩ := hmem
    cases hscript
  | cons first scripts ih =>
    rw [List.forall_mem_cons] at htext
    rw [setScripts, List.foldl_cons]
    -- The last script of the dialect decides what is in its file.
    by_cases hlater : ∃ script ∈ scripts, script.dialect = d
    · exact ih hlater htext.2
    · have hfirst : first.dialect = d := by
        obtain ⟨script, hscript, hd⟩ := hmem
        rcases List.mem_cons.mp hscript with rfl | hscript
        · exact hd
        · exact absurd ⟨script, hscript, hd⟩ hlater
      rw [← htext.1 hfirst, hfirst]
      rw [← FileTree.lookup_setFile_self t (base ++ [scriptName d]) first.text]
      apply lookup_setScripts_of_ne
      intro other hother he
      rw [List.append_cancel_left_eq, List.singleton_inj] at he
      exact hlater ⟨other, hother, (scriptName_injective he).symm⟩

/-- The scripts are written one by one, all into the same directory. -/
theorem exec_writeScripts {s : Settings} {args : GenerateArgs} {scripts : List DialectScript}
    {dir : String} {base : List String} {w w' : World} (hdir : args.outputDir = some dir)
    (hfile : args.outputFile = none) (hd : dir ≠ "") (hbase : w.tree.DirectoryAt dir base)
    (h : exec (writeScripts (World.ops maxDepth) s args scripts) w = (.ok (), w')) :
    w'.tree.DirectoryAt dir base ∧ w'.tree = setScripts base w.tree scripts ∧
      ∀ script ∈ scripts,
        (Path.join dir (scriptName script.dialect)).utf8ByteSize ≤ FileTree.maxPathSize := by
  induction scripts generalizing w with
  | nil =>
    cases h
    exact ⟨hbase, rfl, by simp⟩
  | cons script scripts ih =>
    rw [writeScripts, exec_bind_ok_iff] at h
    obtain ⟨⟨⟩, v, hfirst, h⟩ := h
    obtain ⟨base', hbase', hv, hsize, htree⟩ := exec_writeScript maxDepth hdir hfile hd hfirst
    have heq : base' = base := Except.ok.inj (hbase'.1.symm.trans hbase.1)
    subst heq
    obtain ⟨hend, htree', hsizes⟩ := ih hv h
    rw [htree] at htree'
    exact ⟨hend, htree', List.forall_mem_cons.mpr ⟨hsize, hsizes⟩⟩

/-! ### Requests -/

/-- A dialect is asked for under one of the names that are given, or else the configured one. -/
def GenerateArgs.Requests (args : GenerateArgs) (config : Config) (d : Dialect) : Prop :=
  ∃ name ∈ if args.generators.isEmpty then config.dialect.toList else args.generators,
    Dialect.ofName? name = some d

theorem mem_foldl_insert {α : Type} [DecidableEq α] {a : α} (chosen l : List α) :
    a ∈ l.foldl (fun chosen b => if b ∈ chosen then chosen else chosen ++ [b]) chosen ↔
      a ∈ chosen ∨ a ∈ l := by
  induction l generalizing chosen with
  | nil => simp
  | cons b l ih =>
    rw [List.foldl_cons, ih, List.mem_cons]
    by_cases hb : b ∈ chosen
    · rw [if_pos hb]
      constructor
      · rintro (h | h)
        · exact .inl h
        · exact .inr (.inr h)
      · rintro (h | rfl | h)
        · exact .inl h
        · exact .inl hb
        · exact .inr h
    · rw [if_neg hb, List.mem_append, List.mem_singleton, or_assoc]

theorem chooseDialects_ok {args : GenerateArgs} {config : Config} {dialects : List Dialect}
    (h : chooseDialects args.generators config.dialect = .ok dialects) :
    dialects ≠ [] ∧ ∀ d, d ∈ dialects ↔ args.Requests config d := by
  rw [chooseDialects, bind_ok_iff] at h
  obtain ⟨named, hnamed, h⟩ := h
  by_cases hempty : named.isEmpty
  · rw [if_pos hempty] at h
    cases h
  rw [if_neg hempty] at h
  cases h
  have hmem : ∀ d, d ∈ named ↔ args.Requests config d := by
    intro d
    constructor
    · intro hd
      obtain ⟨name, hname, hd⟩ := mem_of_mapM_ok hnamed hd
      cases ho : Dialect.ofName? name with
      | none => simp [ho] at hd
      | some d' =>
        rw [ho] at hd
        cases hd
        exact ⟨name, hname, ho⟩
    · rintro ⟨name, hname, ho⟩
      obtain ⟨d', hd', hd⟩ := mapM_ok_mem hnamed hname
      rw [ho] at hd
      cases hd
      exact hd'
  have hfold : ∀ d, d ∈ named.foldl (fun chosen b => if b ∈ chosen then chosen else chosen ++ [b])
      [] ↔ d ∈ named := by
    intro d
    rw [mem_foldl_insert]
    simp
  constructor
  · cases named with
    | nil => simp at hempty
    | cons d named => exact List.ne_nil_of_mem ((hfold d).mpr List.mem_cons_self)
  · intro d
    exact (hfold d).trans (hmem d)

theorem makeScript_ok {schema : Schema} {d : Dialect} {script : DialectScript}
    (h : makeScript schema d = .ok script) : script.dialect = d ∧
      ∃ full, d.fullScript schema = .ok full ∧ script.text = full.render d.delimiter := by
  rw [makeScript] at h
  cases hfull : d.fullScript schema with
  | error e => simp [hfull] at h
  | ok full =>
    rw [hfull] at h
    cases h
    exact ⟨rfl, full, rfl, rfl⟩

theorem Level.has_of_value {l : Level} {id : OptionId} (h : (l.value? id).isSome) :
    l.has id = true := by
  obtain ⟨text, ht⟩ := Option.isSome_iff_exists.mp h
  obtain ⟨entry, hentry, -⟩ := List.mem_flatMap.mp (List.mem_of_getLast? ht)
  rw [List.mem_filter] at hentry
  exact List.any_eq_true.mpr ⟨entry, hentry⟩

theorem Level.finish_ok {layout : Layout} {configVariable : Option String} {l l' : Level}
    (h : l.finish layout configVariable = .ok l') :
    ¬ (l'.has .outputFile = true ∧ l'.has .outputDir = true) := by
  rw [Level.finish, bind_ok_iff] at h
  obtain ⟨settled, -, h⟩ := h
  intro hboth
  by_cases hc : (!settled.has .config && decide (configVariable = some "")) = true
  · rw [if_pos hc] at h
    cases h
  by_cases hq : (settled.has .quiet && settled.has .verbose) = true
  · rw [if_neg hc, if_pos hq] at h
    cases h
  by_cases ho : (settled.has .outputFile && settled.has .outputDir) = true
  · rw [if_neg hc, if_neg hq, if_pos ho] at h
    cases h
  rw [if_neg hc, if_neg hq, if_neg ho] at h
  cases h
  rw [Bool.and_eq_true] at ho
  exact ho hboth

theorem commandOf_generate {name : String} {l : Level} {args : GenerateArgs}
    (h : commandOf name l = .ok (.generate args)) :
    args.outputFile = l.value? .outputFile ∧ args.outputDir = l.value? .outputDir := by
  rw [commandOf.eq_def] at h
  split at h
  · split at h <;> cases h
  · obtain ⟨sources, -, h⟩ := bind_ok_iff.mp h
    cases h
    exact ⟨rfl, rfl⟩
  · obtain ⟨version, -, h⟩ := bind_ok_iff.mp h
    obtain ⟨fromSources, -, h⟩ := bind_ok_iff.mp h
    obtain ⟨toSources, -, h⟩ := bind_ok_iff.mp h
    cases h
  · split at h <;> cases h
  · cases h

/-- Either a file or a directory can be asked for on the command line. -/
theorem not_both_outputs {configVariable : Option String} {line : List String} {s : Settings}
    {args : GenerateArgs} (h : readArgs configVariable line = .ok (s, .generate args))
    (hdir : args.outputDir.isSome) : args.outputFile = none := by
  rw [readArgs, bind_ok_iff] at h
  obtain ⟨⟨top, command⟩, -, h⟩ := h
  split at h
  · cases h
  · obtain ⟨⟨own, _⟩, -, h⟩ := bind_ok_iff.mp h
    obtain ⟨own', hfinish, h⟩ := bind_ok_iff.mp h
    obtain ⟨action, haction, h⟩ := bind_ok_iff.mp h
    obtain ⟨top', -, h⟩ := bind_ok_iff.mp h
    cases h
    obtain ⟨hf, hd⟩ := commandOf_generate haction
    rw [hd] at hdir
    cases hfile : args.outputFile with
    | none => rfl
    | some file =>
      have hhas : own'.has .outputFile = true := Level.has_of_value (by rw [← hf, hfile]; rfl)
      exact absurd ⟨hhas, Level.has_of_value hdir⟩ (Level.finish_ok hfinish)
  · obtain ⟨top', -, h⟩ := bind_ok_iff.mp h
    cases h

/-! ### Whole runs -/

section Run

variable {maxDepth} {s : Settings} {config : Config} {args : GenerateArgs} {w w' : World}
  {dir : String} {scripts : List DialectScript}

theorem exists_directory (hdir : args.outputDir = some dir) (hfile : args.outputFile = none)
    (hd : dir ≠ "") (hne : scripts ≠ [])
    (h : exec (writeScripts (World.ops maxDepth) s args scripts) w = (.ok (), w')) :
    ∃ base, w.tree.DirectoryAt dir base := by
  cases scripts with
  | nil => exact absurd rfl hne
  | cons script scripts =>
    rw [writeScripts, exec_bind_ok_iff] at h
    obtain ⟨⟨⟩, v, hfirst, -⟩ := h
    obtain ⟨base, hbase, -⟩ := exec_writeScript maxDepth hdir hfile hd hfirst
    exact ⟨base, hbase⟩

/-- Scripts that are delivered to a directory are set in it, and no other file changes. -/
theorem deliverScripts_ok (hdir : args.outputDir = some dir) (hfile : args.outputFile = none)
    (hne : scripts ≠ [])
    (h : exec (deliverScripts (World.ops maxDepth) s args scripts) w = (.ok (), w')) :
    ∃ base tree, tree.files = w.tree.files ∧ w'.tree = setScripts base tree scripts ∧
      dir ≠ "" ∧ w'.tree.DirectoryAt dir base ∧ ∀ script ∈ scripts,
        (Path.join dir (scriptName script.dialect)).utf8ByteSize ≤ FileTree.maxPathSize := by
  rw [deliverScripts, hdir, exec_bind_ok_iff] at h
  obtain ⟨⟨⟩, made, hmake, h⟩ := h
  obtain ⟨hd, hfiles⟩ := exec_makeDirectory maxDepth hmake
  rw [exec_bind_ok_iff] at h
  obtain ⟨⟨⟩, written, hwrite, hreport⟩ := h
  have htree : w'.tree = written.tree := by
    have hkept := exec_reportScripts_tree maxDepth s args scripts written
    rwa [hreport] at hkept
  obtain ⟨base, hbase⟩ := exists_directory hdir hfile hd hne hwrite
  obtain ⟨hend, hset, hsizes⟩ := exec_writeScripts maxDepth hdir hfile hd hbase hwrite
  rw [htree]
  exact ⟨base, made.tree, hfiles, hset, hd, hend, hsizes⟩

/-- Every script is of a dialect that is asked for, and each such dialect has its script. -/
theorem scripts_of_requests {schema : Schema} {dialects : List Dialect}
    (hchoose : chooseDialects args.generators config.dialect = .ok dialects)
    (hmake : dialects.mapM (makeScript schema) = .ok scripts) :
    scripts ≠ [] ∧ (∀ script ∈ scripts, args.Requests config script.dialect ∧
      makeScript schema script.dialect = .ok script) ∧
      ∀ d, args.Requests config d → ∃ script ∈ scripts, script.dialect = d := by
  obtain ⟨hne, hmem⟩ := chooseDialects_ok hchoose
  have hall : ∀ d ∈ dialects, ∃ script ∈ scripts, script.dialect = d := by
    intro d hd
    obtain ⟨script, hscript, hd⟩ := mapM_ok_mem hmake hd
    exact ⟨script, hscript, (makeScript_ok hd).1⟩
  refine ⟨?_, ?_, ?_⟩
  · obtain ⟨d, hd⟩ := List.exists_mem_of_ne_nil dialects hne
    obtain ⟨script, hscript, -⟩ := hall d hd
    exact List.ne_nil_of_mem hscript
  · intro script hscript
    obtain ⟨d, hd, hscript⟩ := mem_of_mapM_ok hmake hscript
    obtain ⟨rfl, -⟩ := makeScript_ok hscript
    exact ⟨(hmem _).mp hd, hscript⟩
  · intro d hd
    exact hall d ((hmem d).mpr hd)

/-- A run into a directory that succeeds has made every script, and every file is the one of a
dialect that was asked for or as it was. -/
theorem runGenerate_ok (hdir : args.outputDir = some dir) (hfile : args.outputFile = none)
    (h : exec (runGenerate (World.ops maxDepth) s config args) w = (.ok (), w')) :
    ∃ schema base,
      exec (loadSchema (World.ops maxDepth) config args.sources) w = (.ok schema, w) ∧
      w'.tree.DirectoryAt dir base ∧
      (∀ d, args.Requests config d → ∃ full, d.fullScript schema = .ok full ∧
        w'.tree.files.lookup (base ++ [scriptName d]) = some (full.render d.delimiter) ∧
        w'.tree.read (Path.join dir (scriptName d)) = .ok (full.render d.delimiter)) ∧
      ∀ place, (∀ d, args.Requests config d → place ≠ base ++ [scriptName d]) →
        w'.tree.files.lookup place = w.tree.files.lookup place := by
  rw [runGenerate_eq, exec_bind_ok_iff] at h
  obtain ⟨scripts, v, hprepare, hdeliver⟩ := h
  obtain ⟨rfl, dialects, schema, hchoose, hload, hmake⟩ := prepareScripts_ok maxDepth hprepare
  obtain ⟨hne, hscripts, hrequests⟩ := scripts_of_requests hchoose hmake
  obtain ⟨base, tree, hfiles, hset, hd, hend, hsizes⟩ := deliverScripts_ok hdir hfile hne hdeliver
  refine ⟨schema, base, hload, hend, ?_, ?_⟩
  · intro d hreq
    obtain ⟨script, hscript, rfl⟩ := hrequests d hreq
    obtain ⟨-, full, hfull, -⟩ := makeScript_ok (hscripts script hscript).2
    have htext : ∀ other ∈ scripts, other.dialect = script.dialect →
        other.text = full.render script.dialect.delimiter := by
      intro other hother hsame
      obtain ⟨-, full', hfull', htext⟩ := makeScript_ok (hscripts other hother).2
      rw [hsame, hfull] at hfull'
      rw [htext, hsame, Except.ok.inj hfull']
    have hlookup : w'.tree.files.lookup (base ++ [scriptName script.dialect]) =
        some (full.render script.dialect.delimiter) := by
      rw [hset]
      exact lookup_setScripts ⟨script, hscript, rfl⟩ htext
    exact ⟨full, hfull, hlookup,
      hend.read_join hd (isFileName_scriptName _) (hsizes script hscript) hlookup⟩
  · intro place hplace
    rw [hset, ← hfiles]
    apply lookup_setScripts_of_ne
    intro script hscript
    exact hplace script.dialect (hscripts script hscript).1

end Run

/-- A generating run leaves the world as it found it, unless a file or directory could not be
written. If it succeeds in a directory, the file of each dialect that was asked for holds the script
of this dialect, no two dialects have the same file, and no other file has changed. -/
theorem generate_all_or_nothing (s : Settings) (config : Config) (args : GenerateArgs)
    (w : World) :
    (∀ e w', exec (runGenerate (World.ops maxDepth) s config args) w = (.error e, w') →
      (∀ path fault, e ≠ .unwritable path fault) → w' = w) ∧
    (∀ dir w', args.outputDir = some dir → args.outputFile = none →
      exec (runGenerate (World.ops maxDepth) s config args) w = (.ok (), w') →
      ∃ schema base,
        exec (loadSchema (World.ops maxDepth) config args.sources) w = (.ok schema, w) ∧
        w'.tree.DirectoryAt dir base ∧
        (∀ d, args.Requests config d → ∃ full, d.fullScript schema = .ok full ∧
          w'.tree.files.lookup (base ++ [d.id ++ ".sql"]) = some (full.render d.delimiter) ∧
          w'.tree.read (Path.join dir (d.id ++ ".sql")) = .ok (full.render d.delimiter)) ∧
        (∀ d d' : Dialect, d ≠ d' → base ++ [d.id ++ ".sql"] ≠ base ++ [d'.id ++ ".sql"]) ∧
        ∀ place, (∀ d, args.Requests config d → place ≠ base ++ [d.id ++ ".sql"]) →
          w'.tree.files.lookup place = w.tree.files.lookup place) ∧
    ∀ configVariable line s', readArgs configVariable line = .ok (s', .generate args) →
      args.outputDir.isSome → args.outputFile = none := by
  refine ⟨?_, ?_, ?_⟩
  · intro e w' h he
    exact runGenerate_error maxDepth h he
  · intro dir w' hdir hfile h
    obtain ⟨schema, base, hload, hend, hwritten, hkept⟩ := runGenerate_ok hdir hfile h
    refine ⟨schema, base, hload, hend, hwritten, ?_, hkept⟩
    intro d d' hne hsame
    rw [List.append_cancel_left_eq, List.singleton_inj] at hsame
    exact hne (scriptName_injective hsame)
  · intro configVariable line s' h hdir
    exact not_both_outputs h hdir

namespace Sample

/-- A source that not every dialect can express, and a file that nobody asked for. -/
def site : World :=
  { tree := FileTree.ofPaths ["out"]
      [("a.meta", "CREATE TABLE T (A INTEGER PRIMARY KEY REFERENCES T (A) ON UPDATE CASCADE);"),
       ("out/notes.txt", "kept")] }

def siteArgs (generators : List String) : GenerateArgs :=
  { sources := ["a.meta"], generators, outputDir := some "out" }

theorem site_refused :
    (exec (runGenerate (World.ops 3) {} {} (siteArgs ["pg", "oracle"])) site).1 =
      .error (.generation
        (.unsupportedOperation .oracle "ON UPDATE CASCADE" "foreign key FK_T_A")) := by
  decide +kernel

theorem site_written :
    (exec (runGenerate (World.ops 3) {} {} (siteArgs ["pg", "mysql", "postgres"])) site).1 =
      .ok () := by
  decide +kernel

end Sample

/-- The first dialect could have been written, the second one not; two names of one dialect are one
request. -/
theorem site_all_or_nothing :
    (∃ e w', exec (runGenerate (World.ops 3) {} {} (Sample.siteArgs ["pg", "oracle"]))
        Sample.site = (.error e, w') ∧ (∀ path fault, e ≠ .unwritable path fault) ∧
        w' = Sample.site) ∧
    (∃ w' schema base full, exec (runGenerate (World.ops 3) {} {}
        (Sample.siteArgs ["pg", "mysql", "postgres"])) Sample.site = (.ok (), w') ∧
        w'.tree.DirectoryAt "out" base ∧ Dialect.postgreSql.fullScript schema = .ok full ∧
        w'.tree.read "out/postgresql.sql" = .ok (full.render Dialect.postgreSql.delimiter) ∧
        base ++ ["postgresql.sql"] ≠ base ++ ["mysql.sql"]) ∧
    readArgs none ["generate", "--sql", "a.meta", "-g", "pg,mysql,postgres", "-d", "out"] =
      .ok ({}, .generate (Sample.siteArgs ["pg", "mysql", "postgres"])) ∧
    (Sample.siteArgs ["pg", "mysql", "postgres"]).outputFile = none := by
  have hline : readArgs none
      ["generate", "--sql", "a.meta", "-g", "pg,mysql,postgres", "-d", "out"] =
      .ok ({}, .generate (Sample.siteArgs ["pg", "mysql", "postgres"])) := by decide +kernel
  refine ⟨?_, ?_, hline, ?_⟩
  · refine ⟨_, _, Prod.ext Sample.site_refused rfl, by simp, ?_⟩
    exact (generate_all_or_nothing 3 {} {} (Sample.siteArgs ["pg", "oracle"]) Sample.site).1 _ _
      (Prod.ext Sample.site_refused rfl) (by simp)
  · have hrun := generate_all_or_nothing 3 {} {} (Sample.siteArgs ["pg", "mysql", "postgres"])
      Sample.site
    obtain ⟨schema, base, -, hend, hwritten, hapart, -⟩ :=
      hrun.2.1 "out" _ rfl rfl (Prod.ext Sample.site_written rfl)
    obtain ⟨full, hfull, -, hread⟩ := hwritten .postgreSql ⟨"pg", by decide, by decide +kernel⟩
    exact ⟨_, schema, base, full, Prod.ext Sample.site_written rfl, hend, hfull, hread,
      hapart .postgreSql .mySql (by decide)⟩
  · exact (generate_all_or_nothing 3 {} {} (Sample.siteArgs ["pg", "mysql", "postgres"])
      Sample.site).2.2 none _ {} hline rfl

end Command

end Schemata
