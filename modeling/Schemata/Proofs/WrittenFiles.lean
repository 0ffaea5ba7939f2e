import Mathlib.Tactic.SplitIfs
import Schemata.FileSystem
import Schemata.Proofs.Built

/-!
What a written file does to a tree: the text is found at its place, every other file stays as it
is, and the ways through directories lead where they led before.
-/

namespace Schemata

/-! ### Paths below a directory -/

theorem splitOnChar_of_not_mem {separator : Char} {cs : List Char} (h : separator ∉ cs) :
    splitOnChar separator cs = [cs] := by
  induction cs with
  | nil => rfl
  | cons c cs ih =>
    rw [List.mem_cons, not_or] at h
    rw [splitOnChar, if_neg (Ne.symm h.1), ih h.2]

theorem splitOnChar_append (separator : Char) (cs ds : List Char) :
    splitOnChar separator (cs ++ separator :: ds) =
      splitOnChar separator cs ++ splitOnChar separator ds := by
  induction cs with
  | nil => simp [splitOnChar]
  | cons c cs ih =>
    by_cases hc : c = separator
    · simp [splitOnChar, hc, ih]
    · cases hs : splitOnChar separator cs with
      | nil => exact absurd hs (splitOnChar_ne_nil separator cs)
      | cons piece pieces => simp [splitOnChar, hc, ih, hs]

namespace Path

/-- A name that can only be the one of a file: no separator in it, no dots alone, not too long, and
not the name of the null device. -/
structure IsFileName (name : String) : Prop where
  noSlash : '/' ∉ name.toList
  notDots : name ∉ ["", ".", ".."]
  notNull : name ≠ "null"
  short : name.utf8ByteSize ≤ FileTree.maxNameSize

variable {dir name : String}

theorem join_eq (hd : dir ≠ "") (hn : '/' ∉ name.toList) :
    join dir name = dir ++ if dir.toList.getLast? = some '/' then name else "/" ++ name := by
  have hrel : isAbsolute name = false := by
    rw [isAbsolute, beq_eq_false_iff_ne]
    intro h
    exact hn (List.mem_of_head? h)
  rw [join, hrel, if_neg Bool.false_ne_true]
  split
  · rename_i hl
    rw [List.getLast?_eq_none_iff, String.toList_eq_nil_iff] at hl
    contradiction
  · rename_i hl
    rw [if_pos hl]
  · rename_i c hc hl
    rw [if_neg (by rw [hl]; simpa using hc), String.append_assoc]

theorem join_ne_empty (hd : dir ≠ "") (hn : '/' ∉ name.toList) : join dir name ≠ "" := by
  rw [join_eq hd hn]
  intro h
  exact hd (String.append_eq_empty_iff.mp h).1

theorem isAbsolute_join (hd : dir ≠ "") (hn : '/' ∉ name.toList) :
    isAbsolute (join dir name) = isAbsolute dir := by
  cases hl : dir.toList with
  | nil => exact absurd (String.toList_eq_nil_iff.mp hl) hd
  | cons c cs => rw [join_eq hd hn, isAbsolute, isAbsolute, String.toList_append, hl]; rfl

theorem size_le_join (hd : dir ≠ "") (hn : '/' ∉ name.toList) :
    dir.utf8ByteSize ≤ (join dir name).utf8ByteSize := by
  rw [join_eq hd hn, String.utf8ByteSize_append]
  omega

/-- The pieces that lead to a directory, with which the paths below it begin. -/
theorem exists_folder (hd : dir ≠ "") :
    ∃ folder, (splitText '/' dir = folder ∨ splitText '/' dir = folder ++ [""]) ∧
      ∀ name : String, '/' ∉ name.toList → splitText '/' (join dir name) = folder ++ [name] := by
  by_cases hl : dir.toList.getLast? = some '/'
  · obtain ⟨front, hf⟩ := List.getLast?_eq_some_iff.mp hl
    refine ⟨(splitOnChar '/' front).map String.ofList, .inr ?_, ?_⟩
    · simp [splitText, hf, splitOnChar_append, splitOnChar]
    · intro name hn
      rw [join_eq hd hn, if_pos hl, splitText, String.toList_append, hf, List.append_assoc,
        List.singleton_append, splitOnChar_append, splitOnChar_of_not_mem hn]
      simp
  · refine ⟨splitText '/' dir, .inl rfl, ?_⟩
    intro name hn
    rw [join_eq hd hn, if_neg hl, splitText, String.toList_append, String.toList_append,
      show "/".toList = ['/'] from rfl, List.singleton_append, splitOnChar_append,
      splitOnChar_of_not_mem hn]
    simp [splitText]

end Path

namespace FileTree

/-! ### Files that are set -/

theorem lookup_setFile_self (t : FileTree) (place : List String) (text : String) :
    (t.setFile place text).files.lookup place = some text := by
  have hgone : (t.files.filter fun f => f.1 != place).lookup place = none := by
    rw [List.lookup_eq_none_iff]
    intro f hf
    rw [bne_comm]
    exact (List.mem_filter.mp hf).2
  simp [setFile, List.lookup_append, hgone]

theorem lookup_filter_ne {place other : List String} (h : other ≠ place)
    (files : List (List String × String)) :
    (files.filter fun f => f.1 != place).lookup other = files.lookup other := by
  induction files with
  | nil => rfl
  | cons f files ih =>
    obtain ⟨key, text⟩ := f
    by_cases hk : key = place
    · have hne : (other == key) = false := beq_eq_false_iff_ne.mpr (hk ▸ h)
      simp [List.lookup_cons, hk, ih, hk ▸ hne]
    · simp [List.lookup_cons, hk, ih]

theorem lookup_setFile_ne {t : FileTree} {place other : List String} {text : String}
    (h : other ≠ place) : (t.setFile place text).files.lookup other = t.files.lookup other := by
  have hlast : [(place, text)].lookup other = none := by
    rw [List.lookup_cons, beq_eq_false_iff_ne.mpr h]
    rfl
  rw [setFile, List.lookup_append, lookup_filter_ne h, hlast, Option.or_none]

theorem entry_setFile_ne {t : FileTree} {place other : List String} {text : String}
    (h : other ≠ place) : entry? (t.setFile place text) other = t.entry? other := by
  unfold entry?
  rw [lookup_setFile_ne h]
  rfl

/-- Where no directory is replaced, every directory is still there. -/
theorem isDirectory_setFile {t : FileTree} {place other : List String} {text : String}
    (hp : t.entry? place ≠ some .directory) (ho : t.entry? other = some .directory) :
    entry? (t.setFile place text) other = some .directory := by
  have hne : other ≠ place := by
    intro h
    exact hp (h ▸ ho)
  rw [entry_setFile_ne hne, ho]

/-! ### Ways through directories -/

theorem walk_append (t : FileTree) (place pieces more : List String) :
    t.walk place (pieces ++ more) = (t.walk place pieces >>= fun p => t.walk p more) := by
  induction pieces generalizing place with
  | nil => rfl
  | cons piece pieces ih =>
    simp only [List.cons_append, walk]
    cases t.entry? place with
    | none => rfl
    | some entry =>
      cases entry with
      | file text => rfl
      | nullDevice => rfl
      | directory =>
        simp only [ih]
        split_ifs <;> rfl

theorem walk_setFile {t : FileTree} {place start found pieces : List String} {text : String}
    (hp : t.entry? place ≠ some .directory) (h : t.walk start pieces = .ok found) :
    (t.setFile place text).walk start pieces = .ok found := by
  induction pieces generalizing start with
  | nil => exact h
  | cons piece pieces ih =>
    -- Only directories are left on the way, and those are all still there.
    have hdir : t.entry? start = some .directory := by
      rw [walk] at h
      cases he : t.entry? start with
      | none => simp [he] at h
      | some entry => cases entry <;> simp_all
    rw [walk, isDirectory_setFile hp hdir]
    rw [walk, hdir] at h
    simp only at h ⊢
    split_ifs at h ⊢
    · exact ih h
    · exact ih h
    · exact ih h

theorem walk_stay {t : FileTree} {place found : List String} {piece : String}
    (hs : piece = "" ∨ piece = ".") :
    t.walk place [piece] = .ok found ↔ found = place ∧ t.entry? place = some .directory := by
  rw [walk]
  cases t.entry? place with
  | none => simp
  | some entry => cases entry <;> simp [hs, walk, eq_comm]

theorem walk_name {t : FileTree} {place : List String} {name : String}
    (hn : Path.IsFileName name) (hd : t.entry? place = some .directory) :
    t.walk place [name] = .ok (place ++ [name]) := by
  have hdots := hn.notDots
  simp only [List.mem_cons, List.not_mem_nil, or_false, not_or] at hdots
  simp [walk, hd, hdots, Nat.not_lt.mpr hn.short]

/-- A path leads to a directory at a place. -/
def DirectoryAt (t : FileTree) (dir : String) (base : List String) : Prop :=
  t.follow dir (splitText '/' dir) = .ok base ∧ t.entry? base = some .directory

theorem DirectoryAt.setFile {t : FileTree} {dir text : String} {base place : List String}
    (h : t.DirectoryAt dir base) (hp : t.entry? place ≠ some .directory) :
    (t.setFile place text).DirectoryAt dir base := by
  obtain ⟨hf, hb⟩ := h
  refine ⟨?_, isDirectory_setFile hp hb⟩
  rw [follow] at hf ⊢
  split_ifs at hf ⊢ <;> exact walk_setFile hp hf

/-- It does not matter to a directory whether its path ends in a slash. -/
theorem walk_folder_iff {t : FileTree} {start base pieces folder : List String}
    (hf : pieces = folder ∨ pieces = folder ++ [""]) :
    t.walk start pieces = .ok base ∧ t.entry? base = some .directory ↔
      t.walk start folder = .ok base ∧ t.entry? base = some .directory := by
  rcases hf with rfl | rfl
  · rfl
  · rw [walk_append, bind_ok_iff]
    simp only [walk_stay (.inl rfl)]
    constructor
    · rintro ⟨⟨place, hw, rfl, -⟩, hd⟩
      exact ⟨hw, hd⟩
    · intro h
      exact ⟨⟨base, h.1, rfl, h.2⟩, h.2⟩

section Below

variable {t t' : FileTree} {dir name text : String} {base : List String}

theorem directoryAt_iff {start folder : List String} (hd : dir ≠ "")
    (hs : dir.utf8ByteSize ≤ maxPathSize)
    (hf : splitText '/' dir = folder ∨ splitText '/' dir = folder ++ [""])
    (hstart : start = if Path.isAbsolute dir then ["/"] else []) :
    t.DirectoryAt dir base ↔ t.walk start folder = .ok base ∧ t.entry? base = some .directory := by
  rw [DirectoryAt, follow, if_neg hd, if_neg (Nat.not_lt.mpr hs), ← hstart, walk_folder_iff hf]

/-- A file below a directory is at the place of the directory with one more name. -/
theorem DirectoryAt.follow_join (h : t.DirectoryAt dir base) (hd : dir ≠ "")
    (hn : Path.IsFileName name) (hs : (Path.join dir name).utf8ByteSize ≤ maxPathSize) :
    t.follow (Path.join dir name) (splitText '/' (Path.join dir name)) =
      .ok (base ++ [name]) := by
  obtain ⟨folder, hf, hj⟩ := Path.exists_folder hd
  have hsize := Nat.le_trans (Path.size_le_join hd hn.noSlash) hs
  obtain ⟨hw, hb⟩ := (directoryAt_iff hd hsize hf rfl).mp h
  rw [follow, if_neg (Path.join_ne_empty hd hn.noSlash), if_neg (Nat.not_lt.mpr hs),
    Path.isAbsolute_join hd hn.noSlash, hj name hn.noSlash, walk_append, hw]
  exact walk_name hn hb

/-- A path below a directory that can be followed up to its last name leads to the directory. -/
theorem follow_join_here {folder : List String} (hd : dir ≠ "") (hn : '/' ∉ name.toList)
    (hf : splitText '/' dir = folder ∨ splitText '/' dir = folder ++ [""])
    (h : t.follow (Path.join dir name) (folder ++ ["."]) = .ok base) :
    (Path.join dir name).utf8ByteSize ≤ maxPathSize ∧ t.DirectoryAt dir base := by
  rw [follow, if_neg (Path.join_ne_empty hd hn), Path.isAbsolute_join hd hn] at h
  by_cases hs : maxPathSize < (Path.join dir name).utf8ByteSize
  · simp [hs] at h
  rw [if_neg hs, walk_append, bind_ok_iff] at h
  obtain ⟨place, hw, hstay⟩ := h
  obtain ⟨rfl, hentry⟩ := (walk_stay (.inr rfl)).mp hstay
  have hsize := Nat.le_trans (Path.size_le_join hd hn) (Nat.not_lt.mp hs)
  exact ⟨Nat.not_lt.mp hs, (directoryAt_iff hd hsize hf rfl).mpr ⟨hw, hentry⟩⟩

theorem entry_ne_nullDevice (t : FileTree) (base : List String) (hn : Path.IsFileName name) :
    t.entry? (base ++ [name]) ≠ some .nullDevice := by
  have hplace : base ++ [name] ≠ ["/", "dev", "null"] := by
    intro h
    have hlast := congrArg List.getLast? h
    rw [List.getLast?_concat] at hlast
    exact hn.notNull (Option.some.inj hlast)
  unfold entry?
  cases t.files.lookup (base ++ [name]) with
  | some text => simp
  | none =>
    simp only [if_neg hplace]
    split_ifs <;> simp

/-- Writing below a directory sets one file, at a place where no directory was. -/
theorem write_join (hd : dir ≠ "") (hn : Path.IsFileName name)
    (h : t.write (Path.join dir name) text = .ok t') :
    ∃ base, t.DirectoryAt dir base ∧ t.entry? (base ++ [name]) ≠ some .directory ∧
      (Path.join dir name).utf8ByteSize ≤ maxPathSize ∧ t' = t.setFile (base ++ [name]) text := by
  obtain ⟨folder, hf, hj⟩ := Path.exists_folder hd
  have hname : name ≠ "" := by
    intro he
    exact hn.notDots (by simp [he])
  have hpieces : (Path.pieces (Path.join dir name)).dropLast = folder := by
    rw [Path.pieces, hj name hn.noSlash]
    simp [hname]
  rw [write, hpieces, bind_ok_iff] at h
  obtain ⟨base, hbase, h⟩ := h
  obtain ⟨hs, hdir⟩ := follow_join_here hd hn.noSlash hf hbase
  have hfile : namesDirectory (Path.join dir name) = false := by
    simpa [namesDirectory, hj name hn.noSlash] using hn.notDots
  have hlast : (splitText '/' (Path.join dir name)).getLast?.toList = [name] := by
    simp [hj name hn.noSlash]
  rw [hfile, hlast, walk_name hn hdir.2] at h
  simp only [Bool.false_eq_true, if_false, bind, Except.bind, throw, throwThe,
    MonadExceptOf.throw, pure, Except.pure] at h
  have hnull := entry_ne_nullDevice t base hn
  cases he : t.entry? (base ++ [name]) with
  | none =>
    rw [he] at h
    exact ⟨base, hdir, by simp [he], hs, (Except.ok.inj h).symm⟩
  | some entry =>
    cases entry with
    | file old =>
      rw [he] at h
      exact ⟨base, hdir, by simp [he], hs, (Except.ok.inj h).symm⟩
    | directory => simp [he] at h
    | nullDevice => exact absurd he hnull

/-- What has been written below a directory can be read there. -/
theorem DirectoryAt.read_join (h : t.DirectoryAt dir base) (hd : dir ≠ "")
    (hn : Path.IsFileName name) (hs : (Path.join dir name).utf8ByteSize ≤ maxPathSize)
    (ht : t.files.lookup (base ++ [name]) = some text) :
    t.read (Path.join dir name) = .ok text := by
  have hentry : t.entry? (base ++ [name]) = some (.file text) := by
    unfold entry?
    rw [ht]
  rw [read, stat, h.follow_join hd hn hs]
  simp [bind, Except.bind, hentry, pure, Except.pure]

end Below

end FileTree
end Schemata
