import Schemata.SourceSet
import Schemata.Proofs.Scanning

/-! Files that are read as one text keep their tokens. The line feed after each file is a gap that
ends a line, and no piece of a text goes on over it but a string or a block comment. -/
namespace Schemata

def Span.shift (n : Nat) (s : Span) : Span :=
  ⟨n + s.start, n + s.stop⟩

namespace Scanned

/-- The same token or stray piece, `n` bytes further on. -/
def shift (n : Nat) : Scanned → Scanned
  | lexeme l => lexeme ⟨l.token, l.span.shift n⟩
  | stray text span => stray text (span.shift n)

/-- A string or a block comment that the text leaves without its end. -/
def isLeftOpen : Scanned → Bool
  | lexeme _ => false
  | stray text _ => ['\''].isPrefixOf text.toList || ['/', '*'].isPrefixOf text.toList

end Scanned

/-- Every string and every block comment has its end. -/
def Terminated (text : String) : Prop :=
  ∀ x ∈ scan text, x.isLeftOpen = false

instance (text : String) : Decidable (Terminated text) :=
  inferInstanceAs (Decidable (∀ x ∈ scan text, x.isLeftOpen = false))

theorem Piece.scanned_shift (p : Piece) (n start : Nat) (w : List Char) :
    p.scanned (n + start) w = (p.scanned start w).map (Scanned.shift n) := by
  cases p <;> simp [scanned, Scanned.shift, Span.shift, Nat.add_assoc]

theorem scanFrom_shift (n start : Nat) (cs : List Char) :
    scanFrom (n + start) cs = (scanFrom start cs).map (Scanned.shift n) := by
  induction cs using cut_induction generalizing start with
  | nil => simp [scanFrom]
  | cut p w rest hcut ih =>
    rw [hcut.heads.scanFrom, hcut.heads.scanFrom, List.map_append, p.scanned_shift, Nat.add_assoc,
      ih]

theorem OpensText.isLeftOpen {w : List Char} (h : OpensText w) (span : Span) :
    (Scanned.stray (String.ofList w) span).isLeftOpen = true := by
  rw [Scanned.isLeftOpen, Bool.or_eq_true, List.isPrefixOf_iff_prefix,
    List.isPrefixOf_iff_prefix, String.toList_ofList]
  exact h

/-- Before a line feed a text without an open end makes what it makes alone. -/
theorem scanFrom_line {cs : List Char} {start : Nat}
    (h : ∀ x ∈ scanFrom start cs, x.isLeftOpen = false) (more : List Char) :
    scanFrom start (cs ++ '\n' :: more) =
      scanFrom start cs ++ scanFrom (start + byteLength cs + 1) more := by
  induction cs using cut_induction generalizing start with
  | nil =>
    have hline : ∀ c ∈ ['\n'], isGap c = true := List.forall_mem_singleton.mpr rfl
    rw [scanFrom, List.nil_append, List.nil_append, byteLength_nil, Nat.add_zero]
    exact scanFrom_blank hline start more
  | cut p w rest hcut ih =>
    rw [hcut.heads.scanFrom, List.forall_mem_append] at h
    have hopen : ¬ (p = .stray ∧ OpensText w) := by
      rintro ⟨rfl, hw⟩
      have hclosed := h.1 _ (List.mem_singleton_self _)
      rw [hw.isLeftOpen] at hclosed
      cases hclosed
    rw [List.append_assoc, hcut.scanFrom hopen (.line rest more), ih h.2, hcut.heads.scanFrom,
      List.append_assoc, byteLength_append, Nat.add_assoc start]

theorem SourceSet.text_cons (f : SourceFile) (files : List SourceFile) :
    (SourceSet.mk (f :: files)).text.toList =
      f.text.toList ++ '\n' :: (SourceSet.mk files).text.toList := by
  rw [text, List.map_cons, String.join_cons, String.toList_append, String.toList_append,
    List.append_assoc]
  rfl

theorem scanFrom_files {files : List SourceFile} (h : ∀ f ∈ files, Terminated f.text)
    (offset : Nat) :
    scanFrom offset (SourceSet.mk files).text.toList =
      (placeFrom offset files).flatMap fun f => (scan f.text).map (Scanned.shift f.offset) := by
  induction files generalizing offset with
  | nil => simp [placeFrom, scanFrom, SourceSet.text]
  | cons f files ih =>
    obtain ⟨hf, hfiles⟩ := List.forall_mem_cons.mp h
    have hfile : scanFrom offset f.text.toList = (scan f.text).map (Scanned.shift offset) :=
      scanFrom_shift offset 0 f.text.toList
    have hopen : ∀ x ∈ scanFrom offset f.text.toList, x.isLeftOpen = false := by
      rw [hfile, List.forall_mem_map]
      intro x hx
      cases x with
      | lexeme l => rfl
      | stray text span => exact hf (.stray text span) hx
    rw [SourceSet.text_cons, scanFrom_line hopen, ih hfiles, placeFrom, List.flatMap_cons, hfile,
      byteLength_toList]

/-- Files in which every string and every block comment has its end make, read as one text, the
tokens and stray pieces that each of them makes by itself, each in its place. -/
theorem scan_files_apart {s : SourceSet} (h : ∀ f ∈ s.files, Terminated f.text) :
    scan s.text = s.placed.flatMap fun f => (scan f.text).map (Scanned.shift f.offset) :=
  scanFrom_files h 0

namespace Sample

/-- Each of these files ends with something that the start of the next one could go on with. -/
def fragments : SourceSet where
  files := [
    ⟨"bounds.meta", "Size <"⟩, ⟨"sum.meta", "= 1."⟩, ⟨"rate.meta", "5 -- it's"⟩,
    ⟨"empty.meta", ""⟩, ⟨"note.meta", "/* b */ -"⟩, ⟨"minus.meta", "- 'a'"⟩,
    ⟨"name.meta", "'b' \"Code"⟩, ⟨"end.meta", "\" :"⟩]

end Sample

theorem fragments_stay_apart :
    (∀ f ∈ Sample.fragments.files, Terminated f.text) ∧
    (scan Sample.fragments.text).length = 13 ∧
    scan Sample.fragments.text =
      Sample.fragments.placed.flatMap fun f => (scan f.text).map (Scanned.shift f.offset) :=
  ⟨by decide +kernel, by decide +kernel, scan_files_apart (by decide +kernel)⟩

end Schemata
