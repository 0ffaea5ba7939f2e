import Schemata.Proofs.CombinedText
import Schemata.Proofs.MistakePlaces
import Schemata.Proofs.StatementRun
import Mathlib.Data.List.Pairwise

/-! Mistakes in files that are read as one text. Each one lies in the text, begins before its last
line feed, and is shown once, in the file that it begins in. -/
namespace Schemata

open Grammar

/-! ### Places in a text -/

section Ends

variable {c : Char} {cs : List Char} {t : Token} {n : Nat}

theorem EndsOpen.last_ne (h : EndsOpen cs) : cs.getLast? ≠ some '\n' := by
  obtain ⟨c, hlast, hc⟩ := h
  rw [hlast]
  rintro ⟨⟩
  cases hc

theorem take_takeWhile (p : Char → Bool) (cs : List Char) :
    cs.take (cs.takeWhile p).length = cs.takeWhile p :=
  (List.prefix_iff_eq_take.mp (List.takeWhile_prefix p)).symm

theorem endsOpen_word (h : isNameStart c = true) (cs : List Char) :
    EndsOpen (c :: cs.takeWhile isNameChar) :=
  IsWord.endsOpen ⟨c, _, rfl, h, mem_takeWhile _ cs⟩

/-- A number is written with the characters that it takes. -/
theorem numberPiece_text (h : numberPiece c cs = (.token t, n)) :
    t = .integer (String.ofList (c :: cs.take n)) ∨
      t = .decimal (String.ofList (c :: cs.take n)) := by
  unfold numberPiece at h
  dsimp only at h
  split at h
  · split at h
    · cases h
      exact .inr rfl
    · cases h
      exact .inl (by rw [take_takeWhile])
  · cases h
    exact .inl (by rw [take_takeWhile])

theorem endsOpen_number (hc : c.isDigit = true) (h : numberPiece c cs = (.token t, n)) :
    EndsOpen (c :: cs.take n) := by
  have hvalid : t.Valid := numberPiece_valid hc (by rw [h])
  rcases numberPiece_text h with rfl | rfl
  · rw [Token.Valid, String.toList_ofList] at hvalid
    exact hvalid.endsOpen
  · rw [Token.Valid, String.toList_ofList] at hvalid
    exact hvalid.endsOpen

theorem last_string (h : stringLength? cs = some n) : (cs.take n).getLast? = some '\'' := by
  fun_induction stringLength? cs generalizing n with
  | case1 => cases h
  | case2 cs ih =>
    obtain ⟨m, hm, rfl⟩ := Option.map_eq_some_iff.mp h
    simp [List.getLast?_cons, ih hm]
  | case3 cs hcs =>
    cases h
    rfl
  | case4 c cs _ hc ih =>
    obtain ⟨m, hm, rfl⟩ := Option.map_eq_some_iff.mp h
    simp [List.getLast?_cons, ih hm]

theorem last_quotedName (h : quotedNamePiece cs = (.token t, n)) :
    (cs.take n).getLast? = some '"' := by
  unfold quotedNamePiece at h
  split at h
  · rename_i d ds
    split at h
    · dsimp only at h
      split at h
      · rename_i last hlast
        cases h
        have hclose : (d :: ds)[(d :: ds.takeWhile isNameChar).length]? = some '"' := by
          rw [← List.head?_drop, hlast]
          rfl
        rw [List.take_add_one, hclose]
        exact List.getLast?_concat
      · cases h
    · cases h
  · cases h

theorem endsOpen_parameter (h : parameterPiece cs = (.token t, n)) : EndsOpen (cs.take n) := by
  unfold parameterPiece at h
  split at h
  · rename_i d ds
    split at h
    · rename_i hd
      cases h
      rw [List.length_cons, List.take_succ_cons, take_takeWhile]
      exact endsOpen_word hd ds
    · cases h
  · cases h

theorem last_cons {w : List Char} {d : Char} (h : w.getLast? = some d) (c : Char) :
    (c :: w).getLast? = some d := by
  rw [List.getLast?_cons, h]
  rfl

/-- No token ends with a line feed. -/
theorem last_of_token (h : piece c cs = (.token t, n)) :
    (c :: cs.take n).getLast? ≠ some '\n' := by
  unfold piece at h
  split at h
  · cases h
  split at h
  · rename_i hc
    cases h
    rw [take_takeWhile]
    exact (endsOpen_word hc cs).last_ne
  split at h
  · rename_i hc
    exact (endsOpen_number hc h).last_ne
  split at h
  case h_1 => cases h
  case h_2 =>
    unfold commentPiece at h
    split at h <;> cases h
  case h_3 =>
    unfold stringPiece at h
    split at h
    · rename_i m hm
      cases h
      rw [last_cons (last_string hm)]
      decide
    · cases h
  case h_4 =>
    rw [last_cons (last_quotedName h)]
    decide
  case h_5 =>
    obtain ⟨d, hlast, hd⟩ := endsOpen_parameter h
    rw [last_cons hlast]
    rintro ⟨⟩
    cases hd
  all_goals cases h <;> simp

end Ends

section Places

/-- Between two characters of the text, or at one of its ends, `n` bytes have gone by. -/
def Boundary (cs : List Char) (n : Nat) : Prop :=
  ∃ before after, cs = before ++ after ∧ byteLength before = n

theorem Boundary.le {cs : List Char} {n : Nat} (h : Boundary cs n) : n ≤ byteLength cs := by
  obtain ⟨before, after, rfl, rfl⟩ := h
  rw [byteLength_append]
  exact Nat.le_add_right _ _

theorem append_of_byteLength_le {as bs cs ds : List Char} (h : as ++ bs = cs ++ ds)
    (hle : byteLength as ≤ byteLength cs) : ∃ between, cs = as ++ between ∧ bs = between ++ ds := by
  rcases List.append_eq_append_iff.mp h with ⟨between, rfl, rfl⟩ | ⟨between, rfl, rfl⟩
  · exact ⟨between, rfl, rfl⟩
  · have hempty : between = [] := by
      by_contra hne
      have hpos := byteLength_pos hne
      rw [byteLength_append] at hle
      omega
    subst hempty
    exact ⟨[], by simp, by simp⟩

/-- A place in a text that lies in a part of it is a place in the part. -/
theorem Boundary.inside {head cs tail : List Char} {n : Nat} (h : Boundary (head ++ cs ++ tail) n)
    (hle : byteLength head ≤ n) (hlen : n ≤ byteLength head + byteLength cs) :
    Boundary cs (n - byteLength head) := by
  obtain ⟨before, after, heq, rfl⟩ := h
  rw [List.append_assoc] at heq
  obtain ⟨skipped, rfl, hrest⟩ := append_of_byteLength_le heq hle
  rw [byteLength_append] at hlen
  obtain ⟨left, rfl, -⟩ := append_of_byteLength_le hrest.symm (by omega)
  exact ⟨skipped, left, rfl, by rw [byteLength_append]; omega⟩

/-- The span begins before the end of the text, and it has its ends where characters have theirs. -/
structure Span.Fits (span : Span) (cs : List Char) : Prop where
  begins : span.start < byteLength cs
  ordered : span.start ≤ span.stop
  start : Boundary cs span.start
  stop : Boundary cs span.stop

/-- The span takes `part` out of the text. -/
def Span.Cuts (span : Span) (text part : String) : Prop :=
  ∃ before after, text = before ++ part ++ after ∧ before.utf8ByteSize = span.start ∧
    (before ++ part).utf8ByteSize = span.stop

/-- Spans that end before the text does. -/
def region (cs : List Char) : Region where
  Contains span := span.Fits cs ∧ span.stop < byteLength cs
  cover := by
    rintro s t ⟨hs, hsEnd⟩ ⟨ht, htEnd⟩
    have hstart : Boundary cs (min s.start t.start) := by
      rcases Nat.le_total s.start t.start with h | h
      · rw [Nat.min_eq_left h]
        exact hs.start
      · rw [Nat.min_eq_right h]
        exact ht.start
    have hstop : Boundary cs (max s.stop t.stop) := by
      rcases Nat.le_total s.stop t.stop with h | h
      · rw [Nat.max_eq_right h]
        exact ht.stop
      · rw [Nat.max_eq_left h]
        exact hs.stop
    have hordered := hs.ordered
    refine ⟨⟨?_, ?_, hstart, hstop⟩, Nat.max_lt.mpr ⟨hsEnd, htEnd⟩⟩
    · exact Nat.lt_of_le_of_lt (Nat.min_le_left _ _) hs.begins
    · exact Nat.le_trans (Nat.min_le_left _ _) (Nat.le_trans hordered (Nat.le_max_left _ _))

variable {cs : List Char} {start : Nat}

/-- Whatever is scanned was cut off the text somewhere. -/
theorem mem_scanFrom {x : Scanned} (h : x ∈ scanFrom start cs) :
    ∃ p before w after, cs = before ++ w ++ after ∧ Heads p w after ∧
      x ∈ p.scanned (start + byteLength before) w := by
  induction cs using cut_induction generalizing start with
  | nil => simp [scanFrom] at h
  | cut p w rest hcut ih =>
    rw [hcut.heads.scanFrom, List.mem_append] at h
    rcases h with h | h
    · exact ⟨p, [], w, rest, rfl, hcut.heads, h⟩
    · obtain ⟨p', before, w', after, rfl, hheads, hx⟩ := ih h
      refine ⟨p', w ++ before, w', after, by simp, hheads, ?_⟩
      rwa [byteLength_append, ← Nat.add_assoc]

theorem fits_of_heads {p : Piece} {before w after : List Char} (h : Heads p w after) :
    Span.Fits ⟨byteLength before, byteLength before + byteLength w⟩ (before ++ w ++ after) := by
  obtain ⟨c, more, rfl, -⟩ := h
  have hpos := byteLength_pos (List.cons_ne_nil c more)
  refine ⟨?_, Nat.le_add_right _ _, ⟨before, c :: more ++ after, by simp, rfl⟩,
    ⟨before ++ c :: more, after, rfl, byteLength_append _ _⟩⟩
  simp only [byteLength_append]
  omega

/-- In a text that ends with a line feed the tokens end before the text does. -/
theorem lexeme_in {text : String} (hend : text.toList.getLast? = some '\n') :
    TokensIn (region text.toList) ((scan text).filterMap Scanned.lexeme?) := by
  intro l hl
  obtain ⟨x, hx, hxl⟩ := List.mem_filterMap.mp hl
  obtain ⟨p, before, w, after, heq, hheads, hin⟩ := mem_scanFrom hx
  cases p with
  | gap => cases hin
  | stray =>
    obtain rfl := List.mem_singleton.mp hin
    cases hxl
  | token t =>
    obtain rfl := List.mem_singleton.mp hin
    cases hxl
    rw [heq] at hend ⊢
    rw [Nat.zero_add]
    refine ⟨fits_of_heads hheads, ?_⟩
    have hafter : after ≠ [] := by
      rintro rfl
      obtain ⟨c, more, rfl, hpiece⟩ := hheads
      have hlast := last_of_token hpiece
      rw [List.append_nil, List.take_length] at hlast
      rw [List.append_nil, List.getLast?_append_of_ne_nil _ (List.cons_ne_nil c more)] at hend
      exact hlast hend
    have hpos := byteLength_pos hafter
    simp only [byteLength_append]
    omega

theorem stray_fits {text : String} {m : Mistake} (h : m ∈ strayMistakes (scan text)) :
    m.span.Fits text.toList := by
  obtain ⟨⟨_, span⟩, hmem, rfl⟩ := List.mem_map.mp h
  obtain ⟨x, hx, hstray⟩ := List.mem_filterMap.mp hmem
  obtain ⟨p, before, w, after, heq, hheads, hin⟩ := mem_scanFrom hx
  rw [heq]
  cases p with
  | gap => cases hin
  | token t =>
    obtain rfl := List.mem_singleton.mp hin
    cases hstray
  | stray =>
    obtain rfl := List.mem_singleton.mp hin
    cases hstray
    rw [Nat.zero_add]
    exact fits_of_heads hheads

/-- A mistake without a place is put at the end of the last token. -/
theorem endOf_fits {ls : List Lexeme} (hls : TokensIn (region cs) ls) (hne : cs ≠ []) :
    Span.Fits ⟨endOf ls, endOf ls⟩ cs := by
  cases hlast : ls.getLast? with
  | none =>
    have hzero : endOf ls = 0 := by rw [endOf, hlast]; rfl
    have hstart : Boundary cs 0 := ⟨[], cs, rfl, rfl⟩
    rw [hzero]
    exact ⟨byteLength_pos hne, Nat.le_refl _, hstart, hstart⟩
  | some l =>
    have hstop : endOf ls = l.span.stop := by rw [endOf, hlast]; rfl
    obtain ⟨hfits, hend⟩ := hls l (List.mem_of_getLast? hlast)
    rw [hstop]
    exact ⟨hend, Nat.le_refl _, hfits.stop, hfits.stop⟩

theorem locate_fits {e : Refusal} {stop : Nat} (h : e.In (region cs))
    (hstop : Span.Fits ⟨stop, stop⟩ cs) : (e.locate stop).span.Fits cs := by
  cases hplace : e.place with
  | none =>
    rw [Refusal.locate, hplace]
    exact hstop
  | some place =>
    rw [Refusal.locate, hplace]
    exact (h place hplace).1

theorem schemaOfLexemes_error {ls : List Lexeme} {found : List Mistake}
    (h : schemaOfLexemes ls = .error found) :
    found = (statements .empty ls).1.map (Refusal.locate (endOf ls)) := by
  rw [schemaOfLexemes_eq_run] at h
  cases hread : statements .empty ls with
  | mk refusals schema =>
    rw [hread] at h
    cases refusals with
    | nil => cases h
    | cons e es => exact (Except.error.inj h).symm

/-- Every mistake in a text that ends with a line feed lies in the text. -/
theorem mistake_fits {text : String} (hend : text.toList.getLast? = some '\n')
    {found : List Mistake} (h : Schema.parse text = .error found) :
    ∀ m ∈ found, m.span.Fits text.toList := by
  have hne : text.toList ≠ [] := by
    intro hempty
    rw [hempty] at hend
    cases hend
  have htokens := lexeme_in hend
  rw [Schema.parse] at h
  cases hread : schemaOfLexemes ((scan text).filterMap Scanned.lexeme?) with
  | ok schema =>
    simp only [hread] at h
    split at h
    · cases h
    · cases h
      exact fun m hm => stray_fits hm
  | error reported =>
    simp only [hread] at h
    cases h
    intro m hm
    rcases List.mem_append.mp (List.mem_mergeSort.mp hm) with hm | hm
    · rw [schemaOfLexemes_error hread] at hm
      obtain ⟨e, he, rfl⟩ := List.mem_map.mp hm
      exact locate_fits (refusals_in htokens e he) (endOf_fits htokens hne)
    · exact stray_fits hm

end Places

/-! ### Files in the combined text -/

section Files

/-- The byte `n` of the combined text belongs to the file or is the line feed after it. -/
def PlacedFile.holds (f : PlacedFile) (n : Nat) : Bool :=
  f.offset ≤ n ∧ n ≤ f.offset + f.length

theorem PlacedFile.holds_iff {f : PlacedFile} {n : Nat} :
    f.holds n = true ↔ f.offset ≤ n ∧ n ≤ f.offset + f.length :=
  decide_eq_true_iff

variable {offset : Nat} {files : List SourceFile} {f : PlacedFile}

theorem map_placeFrom (offset : Nat) (files : List SourceFile) :
    (placeFrom offset files).map PlacedFile.toSourceFile = files := by
  induction files generalizing offset with
  | nil => rfl
  | cons f files ih => rw [placeFrom, List.map_cons, ih]

theorem offset_le (h : f ∈ placeFrom offset files) : offset ≤ f.offset := by
  induction files generalizing offset with
  | nil => cases h
  | cons g files ih =>
    rcases List.mem_cons.mp h with rfl | h
    · exact Nat.le_refl _
    · have hlater := ih h
      omega

/-- Each file and its line feed end before the next file begins. -/
theorem placeFrom_apart (offset : Nat) (files : List SourceFile) :
    (placeFrom offset files).Pairwise fun f f' => f.offset + f.length < f'.offset := by
  induction files generalizing offset with
  | nil => exact .nil
  | cons g files ih => exact List.pairwise_cons.mpr ⟨fun f hf => offset_le hf, ih _⟩

/-- The text of each file stands at its offset. -/
theorem text_at_offset (h : f ∈ placeFrom offset files) :
    ∃ head tail, (SourceSet.mk files).text.toList = head ++ f.text.toList ++ tail ∧
      offset + byteLength head = f.offset := by
  induction files generalizing offset with
  | nil => cases h
  | cons g files ih =>
    rw [SourceSet.text_cons]
    rcases List.mem_cons.mp h with rfl | h
    · exact ⟨[], _, rfl, rfl⟩
    · obtain ⟨head, tail, heq, hoffset⟩ := ih h
      refine ⟨g.text.toList ++ '\n' :: head, tail, by simp [heq], ?_⟩
      have hline : '\n'.utf8Size = 1 := rfl
      rw [byteLength_append, byteLength_cons, byteLength_toList, hline]
      omega

theorem exists_holds {n : Nat} (hle : offset ≤ n)
    (hlt : n < offset + byteLength (SourceSet.mk files).text.toList) :
    ∃ f ∈ placeFrom offset files, f.holds n = true := by
  induction files generalizing offset with
  | nil => exact absurd hlt (Nat.not_lt.mpr hle)
  | cons g files ih =>
    have hline : '\n'.utf8Size = 1 := rfl
    rw [SourceSet.text_cons, byteLength_append, byteLength_cons, byteLength_toList, hline] at hlt
    by_cases h : n ≤ offset + g.text.utf8ByteSize
    · exact ⟨⟨g, offset⟩, List.mem_cons_self, PlacedFile.holds_iff.mpr ⟨hle, h⟩⟩
    · obtain ⟨f, hf, hn⟩ := @ih (offset + g.text.utf8ByteSize + 1) (by omega) (by omega)
      exact ⟨f, List.mem_cons_of_mem _ hf, hn⟩

theorem last_text (hne : files ≠ []) : (SourceSet.mk files).text.toList.getLast? = some '\n' := by
  induction files with
  | nil => exact absurd rfl hne
  | cons f files ih =>
    rw [SourceSet.text_cons, List.getLast?_append_of_ne_nil _ (List.cons_ne_nil _ _)]
    cases files with
    | nil => rfl
    | cons g files => exact last_cons (ih (List.cons_ne_nil g files)) _

variable {s : SourceSet}

theorem eq_of_holds {f' : PlacedFile} (hf : f ∈ s.placed) (hf' : f' ∈ s.placed) {n : Nat}
    (h : f.holds n = true) (h' : f'.holds n = true) : f = f' := by
  have hapart : s.placed.Pairwise fun f f' => ¬ (f.holds n = true ∧ f'.holds n = true) :=
    (placeFrom_apart 0 s.files).imp fun {f f'} hlt ⟨hn, hn'⟩ => by
      rw [PlacedFile.holds_iff] at hn hn'
      omega
  have : Std.Symm fun f f' : PlacedFile => ¬ (f.holds n = true ∧ f'.holds n = true) :=
    ⟨fun _ _ hnot hboth => hnot hboth.symm⟩
  by_contra hne
  exact hapart.forall hf hf' hne ⟨h, h'⟩

/-- A span is found in the file that holds its start. -/
theorem locate_of_holds (hf : f ∈ s.placed) {span : Span} (h : f.holds span.start = true) :
    s.locate? span = some (f, ⟨span.start - f.offset,
      min span.stop (f.offset + f.length) - f.offset⟩) := by
  obtain ⟨hle, hlen⟩ := PlacedFile.holds_iff.mp h
  obtain ⟨before, after, hplaced⟩ := List.append_of_mem hf
  have hapart := placeFrom_apart 0 s.files
  rw [← SourceSet.placed, hplaced, List.pairwise_append, List.pairwise_cons] at hapart
  have hfind : s.placed.reverse.find? (fun f => f.offset ≤ span.start) = some f := by
    rw [hplaced, List.reverse_append, List.reverse_cons, List.append_assoc,
      List.find?_eq_some_iff_append]
    refine ⟨decide_eq_true hle, after.reverse, before.reverse, rfl, fun f' hf' => ?_⟩
    have hlater := hapart.2.1.1 f' (List.mem_reverse.mp hf')
    simp only [Bool.not_eq_true', decide_eq_false_iff_not]
    omega
  rw [SourceSet.locate?, hfind]
  rfl

end Files

/-! ### Groups -/

section Groups

variable {α : Type} {entries : List (String × Located α)} {paths : List String} {path : String}

theorem Path.same_iff {a b : String} : Path.same a b = true ↔ Path.parts a = Path.parts b :=
  beq_iff_eq

theorem Path.same_trans {a b c : String} (hab : Path.same a b = true)
    (hbc : Path.same b c = true) : Path.same a c = true :=
  same_iff.mpr ((same_iff.mp hab).trans (same_iff.mp hbc))

theorem Path.same_symm {a b : String} (h : Path.same a b = true) : Path.same b a = true :=
  same_iff.mpr (same_iff.mp h).symm

/-- What the entries, each with its path, say about one path. -/
def groupOf (entries : List (String × Located α)) (path : String) : FileGroup α :=
  ⟨path, (entries.filter fun e => Path.same path e.1).map (·.2)⟩

/-- One path for each group of the entries. -/
structure Heading (paths : List String) (entries : List (String × Located α)) : Prop where
  apart : paths.Pairwise fun p q => Path.same p q = false
  used : ∀ p ∈ paths, ∃ e ∈ entries, e.1 = p
  covers : ∀ e ∈ entries, ∃ p ∈ paths, Path.same p e.1 = true

theorem groupOf_same (item : Located α) {p : String} (h : Path.same p path = true) :
    groupOf (entries ++ [(path, item)]) p =
      { groupOf entries p with items := (groupOf entries p).items ++ [item] } := by
  simp [groupOf, h]

theorem groupOf_other (item : Located α) {p : String} (h : Path.same p path = false) :
    groupOf (entries ++ [(path, item)]) p = groupOf entries p := by
  simp [groupOf, h]

theorem map_groupOf_other (item : Located α) (h : ∀ p ∈ paths, Path.same p path = false) :
    paths.map (groupOf (entries ++ [(path, item)])) = paths.map (groupOf entries) :=
  List.map_congr_left fun p hp => groupOf_other item (h p hp)

/-- An item joins the only group of its path. -/
theorem addToGroup_known (item : Located α)
    (hapart : paths.Pairwise fun p q => Path.same p q = false)
    (h : ∃ p ∈ paths, Path.same p path = true) :
    SourceSet.addToGroup path item (paths.map (groupOf entries)) =
      paths.map (groupOf (entries ++ [(path, item)])) := by
  induction paths with
  | nil => simp at h
  | cons p paths ih =>
    obtain ⟨hp, hapart⟩ := List.pairwise_cons.mp hapart
    rw [List.map_cons, List.map_cons]
    by_cases hsame : Path.same p path = true
    · have hothers : ∀ q ∈ paths, Path.same q path = false := fun q hq =>
        Bool.eq_false_iff.mpr fun hq' => Bool.eq_false_iff.mp (hp q hq)
          (Path.same_trans hsame (Path.same_symm hq'))
      rw [groupOf_same item hsame, map_groupOf_other item hothers]
      exact if_pos hsame
    · have hlater : ∃ q ∈ paths, Path.same q path = true := by
        obtain ⟨q, hq, hq'⟩ := h
        rcases List.mem_cons.mp hq with rfl | hq
        · exact absurd hq' hsame
        · exact ⟨q, hq, hq'⟩
      rw [groupOf_other item (Bool.eq_false_iff.mpr hsame), ← ih hapart hlater]
      exact if_neg hsame

/-- An item with a new path opens a group at the end. -/
theorem addToGroup_new (item : Located α) (h : ∀ p ∈ paths, Path.same p path = false)
    (hcovers : ∀ e ∈ entries, ∃ p ∈ paths, Path.same p e.1 = true) :
    SourceSet.addToGroup path item (paths.map (groupOf entries)) =
      (paths ++ [path]).map (groupOf (entries ++ [(path, item)])) := by
  have hfirst : groupOf (entries ++ [(path, item)]) path = ⟨path, [item]⟩ := by
    have hnone : entries.filter (fun e => Path.same path e.1) = [] := by
      refine List.filter_eq_nil_iff.mpr fun e he hsame => ?_
      obtain ⟨p, hp, hpe⟩ := hcovers e he
      exact Bool.eq_false_iff.mp (h p hp) (Path.same_trans hpe (Path.same_symm hsame))
    rw [groupOf_same item (Path.same_iff.mpr rfl), groupOf, hnone]
    rfl
  rw [List.map_append, map_groupOf_other item h, List.map_singleton, hfirst]
  clear hcovers hfirst
  induction paths with
  | nil => rfl
  | cons p paths ih =>
    obtain ⟨hp, hlater⟩ := List.forall_mem_cons.mp h
    rw [List.map_cons, List.cons_append, ← ih hlater]
    exact if_neg (Bool.eq_false_iff.mp hp)

theorem Heading.add (h : Heading paths entries) (path : String) (item : Located α) :
    ∃ paths', Heading paths' (entries ++ [(path, item)]) ∧
      SourceSet.addToGroup path item (paths.map (groupOf entries)) =
        paths'.map (groupOf (entries ++ [(path, item)])) := by
  have hused : ∀ p ∈ paths, ∃ e ∈ entries ++ [(path, item)], e.1 = p := fun p hp =>
    (h.used p hp).imp fun _ he => ⟨List.mem_append_left _ he.1, he.2⟩
  by_cases hknown : ∃ p ∈ paths, Path.same p path = true
  · refine ⟨paths, ⟨h.apart, hused, ?_⟩, addToGroup_known item h.apart hknown⟩
    exact List.forall_mem_append.mpr ⟨h.covers, List.forall_mem_singleton.mpr hknown⟩
  · have hnone : ∀ p ∈ paths, Path.same p path = false := fun p hp =>
      Bool.eq_false_iff.mpr fun hsame => hknown ⟨p, hp, hsame⟩
    refine ⟨paths ++ [path], ⟨?_, ?_, ?_⟩, addToGroup_new item hnone h.covers⟩
    · refine List.pairwise_append.mpr ⟨h.apart, List.pairwise_singleton _ _, fun p hp q hq => ?_⟩
      rw [List.mem_singleton.mp hq]
      exact hnone p hp
    · refine List.forall_mem_append.mpr ⟨hused, List.forall_mem_singleton.mpr ?_⟩
      exact ⟨_, List.mem_append_right _ (List.mem_singleton_self _), rfl⟩
    · refine List.forall_mem_append.mpr ⟨fun e he => ?_, List.forall_mem_singleton.mpr ?_⟩
      · obtain ⟨p, hp, hpe⟩ := h.covers e he
        exact ⟨p, List.mem_append_left _ hp, hpe⟩
      · exact ⟨path, List.mem_append_right _ (List.mem_singleton_self _), Path.same_iff.mpr rfl⟩

theorem items_addToGroup (path : String) (item : Located α) (groups : List (FileGroup α)) :
    ((SourceSet.addToGroup path item groups).flatMap (·.items)).Perm
      (groups.flatMap (·.items) ++ [item]) := by
  induction groups with
  | nil => exact .refl _
  | cons g groups ih =>
    unfold SourceSet.addToGroup
    split
    · rw [List.flatMap_cons, List.flatMap_cons, List.append_assoc, List.append_assoc]
      exact List.perm_append_comm.append_left _
    · rw [List.flatMap_cons, List.flatMap_cons, List.append_assoc]
      exact ih.append_left _

/-- Puts the entries into groups, one after the other. -/
def grouped (entries : List (String × Located α)) : List (FileGroup α) :=
  entries.foldl (fun groups e => SourceSet.addToGroup e.1 e.2 groups) []

theorem grouped_concat (entries : List (String × Located α)) (e : String × Located α) :
    grouped (entries ++ [e]) = SourceSet.addToGroup e.1 e.2 (grouped entries) := by
  rw [grouped, List.foldl_append]
  rfl

/-- After each entry the groups are those of the entries so far. -/
theorem exists_heading (entries : List (String × Located α)) :
    ∃ paths, Heading paths entries ∧ grouped entries = paths.map (groupOf entries) := by
  induction entries using List.reverseRecOn with
  | nil => exact ⟨[], ⟨.nil, List.forall_mem_nil _, List.forall_mem_nil _⟩, rfl⟩
  | append_singleton entries e ih =>
    obtain ⟨paths, hheading, heq⟩ := ih
    rw [grouped_concat, heq]
    exact hheading.add e.1 e.2

theorem items_grouped (entries : List (String × Located α)) :
    ((grouped entries).flatMap (·.items)).Perm (entries.map (·.2)) := by
  induction entries using List.reverseRecOn with
  | nil => exact .refl _
  | append_singleton entries e ih =>
    rw [grouped_concat, List.map_append]
    exact (items_addToGroup e.1 e.2 (grouped entries)).trans (ih.append_right _)

end Groups

/-! ### Mistakes in their files -/

section Mistakes

variable {s : SourceSet} {found : List Mistake} {f : PlacedFile} {m : Mistake}

/-- A mistake with the path of its file. -/
def SourceSet.entry? (s : SourceSet) (m : Mistake) : Option (String × Located Mistake) :=
  (s.locate? m.span).map fun (f, span) => (f.path, ⟨span, m⟩)

theorem mistakesByFile_eq_grouped (s : SourceSet) (found : List Mistake) :
    s.mistakesByFile found = grouped (found.filterMap s.entry?) := by
  rw [SourceSet.mistakesByFile, grouped, List.foldl_filterMap]
  congr 1
  funext groups m
  rw [SourceSet.entry?]
  cases s.locate? m.span <;> rfl

/-- The part of a mistake's span that lies in its file. -/
def PlacedFile.place (f : PlacedFile) (m : Mistake) : Located Mistake :=
  ⟨⟨m.span.start - f.offset, min m.span.stop (f.offset + f.length) - f.offset⟩, m⟩

theorem entry_of_holds (hf : f ∈ s.placed) (h : f.holds m.span.start = true) :
    s.entry? m = some (f.path, f.place m) := by
  rw [SourceSet.entry?, locate_of_holds hf h]
  rfl

/-- Every mistake has a file. -/
def InFiles (s : SourceSet) (found : List Mistake) : Prop :=
  ∀ m ∈ found, ∃ f ∈ s.placed, f.holds m.span.start = true

theorem items_entries (h : InFiles s found) :
    (found.filterMap s.entry?).map (·.2.item) = found := by
  induction found with
  | nil => rfl
  | cons m found ih =>
    obtain ⟨⟨f, hf, hm⟩, hlater⟩ := List.forall_mem_cons.mp h
    rw [List.filterMap_cons_some (entry_of_holds hf hm), List.map_cons, ih hlater]
    rfl

/-- No two files have one path. -/
def DistinctPaths (s : SourceSet) : Prop :=
  s.files.Pairwise fun f f' => Path.same f.path f'.path = false

theorem DistinctPaths.eq_of_same (h : DistinctPaths s) {f' : PlacedFile} (hf : f ∈ s.placed)
    (hf' : f' ∈ s.placed) (hsame : Path.same f.path f'.path = true) : f = f' := by
  have hapart : s.placed.Pairwise fun f f' => ¬ Path.same f.path f'.path = true := by
    rw [DistinctPaths, ← map_placeFrom 0 s.files, List.pairwise_map] at h
    exact h.imp Bool.eq_false_iff.mp
  have : Std.Symm fun f f' : PlacedFile => ¬ Path.same f.path f'.path = true :=
    ⟨fun _ _ hnot hsame => hnot (Path.same_symm hsame)⟩
  by_contra hne
  exact hapart.forall hf hf' hne hsame

theorem DistinctPaths.same_iff_holds (h : DistinctPaths s) {f' : PlacedFile} (hf : f ∈ s.placed)
    (hf' : f' ∈ s.placed) {n : Nat} (hn : f'.holds n = true) :
    Path.same f.path f'.path = f.holds n := by
  rw [Bool.eq_iff_iff]
  constructor
  · intro hsame
    rw [h.eq_of_same hf hf' hsame]
    exact hn
  · intro hholds
    rw [eq_of_holds hf hf' hholds hn]
    exact Path.same_iff.mpr rfl

/-- With paths of their own, files have groups of their own. -/
theorem groupOf_file (h : DistinctPaths s) (hf : f ∈ s.placed) (hfound : InFiles s found) :
    groupOf (found.filterMap s.entry?) f.path =
      ⟨f.path, (found.filter fun m => f.holds m.span.start).map f.place⟩ := by
  rw [groupOf]
  congr 1
  induction found with
  | nil => rfl
  | cons m found ih =>
    obtain ⟨⟨f', hf', hm⟩, hlater⟩ := List.forall_mem_cons.mp hfound
    rw [List.filterMap_cons_some (entry_of_holds hf' hm), List.filter_cons, List.filter_cons,
      h.same_iff_holds hf hf' hm]
    split
    · rename_i hholds
      obtain rfl := eq_of_holds hf hf' hholds hm
      rw [List.map_cons, List.map_cons, ih hlater]
    · exact ih hlater

theorem Boundary.cut {cs : List Char} {n n' : Nat} (h : Boundary cs n) (h' : Boundary cs n')
    (hle : n ≤ n') : ∃ before part after, cs = before ++ part ++ after ∧ byteLength before = n ∧
      byteLength (before ++ part) = n' := by
  obtain ⟨before, rest, rfl, rfl⟩ := h
  obtain ⟨whole, after, heq, rfl⟩ := h'
  obtain ⟨part, rfl, rfl⟩ := append_of_byteLength_le heq hle
  exact ⟨before, part, after, by simp, rfl, rfl⟩

theorem Span.cuts_of_toList {span : Span} {text : String} {before part after : List Char}
    (h : text.toList = before ++ part ++ after) (hstart : byteLength before = span.start)
    (hstop : byteLength (before ++ part) = span.stop) : span.Cuts text (String.ofList part) := by
  refine ⟨String.ofList before, String.ofList after, ?_, ?_, ?_⟩
  · rw [← String.toList_inj, h]
    simp
  · rw [← byteLength_toList, String.toList_ofList, hstart]
  · rw [← byteLength_toList, ← hstop]
    simp

/-- The entry says where its mistake begins in the file. It stays in the file, and if the mistake
does so too, the entry shows the same text. -/
structure PlacedFile.Shows (f : PlacedFile) (text : String) (entry : Located Mistake) : Prop where
  start : f.offset + entry.span.start = entry.item.span.start
  ordered : entry.span.start ≤ entry.span.stop
  inside : entry.span.stop ≤ f.length
  same : entry.item.span.stop ≤ f.offset + f.length →
    ∃ part, entry.item.span.Cuts text part ∧ entry.span.Cuts f.text part

/-- What a span takes out of the combined text, it takes out of a file that it lies in. -/
theorem cuts_file (hf : f ∈ s.placed) {span : Span} (h : span.Fits s.text.toList)
    (hstart : f.offset ≤ span.start) (hstop : span.stop ≤ f.offset + f.length) :
    ∃ part, span.Cuts s.text part ∧
      (Span.mk (span.start - f.offset) (span.stop - f.offset)).Cuts f.text part := by
  obtain ⟨head, tail, htext, hoffset⟩ := text_at_offset hf
  have hordered := h.ordered
  have hfirst := h.start
  have hlast := h.stop
  rw [htext] at hfirst hlast
  rw [Nat.zero_add] at hoffset
  rw [← hoffset] at hstart hstop ⊢
  rw [PlacedFile.length, ← byteLength_toList] at hstop
  obtain ⟨before, part, after, hfile, hbefore, hpart⟩ :=
    (hfirst.inside hstart (by omega)).cut (hlast.inside (by omega) hstop) (by omega)
  have hwhole : s.text.toList = head ++ before ++ part ++ (after ++ tail) := by
    rw [htext, hfile]
    simp
  refine ⟨String.ofList part, Span.cuts_of_toList hwhole ?_ ?_, Span.cuts_of_toList hfile ?_ ?_⟩
  · rw [byteLength_append, hbefore]
    omega
  · rw [List.append_assoc, byteLength_append, hpart]
    omega
  · exact hbefore
  · exact hpart

theorem shows_place (hf : f ∈ s.placed) (hm : m.span.Fits s.text.toList)
    (h : f.holds m.span.start = true) : f.Shows s.text (f.place m) := by
  obtain ⟨hle, hlen⟩ := PlacedFile.holds_iff.mp h
  have hordered := hm.ordered
  refine ⟨Nat.add_sub_cancel' hle, ?_, ?_, fun hstop => ?_⟩
  · exact Nat.sub_le_sub_right (Nat.le_min.mpr ⟨hordered, hlen⟩) _
  · exact Nat.sub_le_iff_le_add'.mpr (Nat.min_le_right _ _)
  · have hmin : min m.span.stop (f.offset + f.length) = m.span.stop := Nat.min_eq_left hstop
    rw [PlacedFile.place, hmin]
    exact cuts_file hf hm hle hstop

/-- Mistakes found in files with different paths lie in the combined text. They are all put into
groups, each of them once. A group has the path of a file and holds the mistakes that begin in the
file, in their order and with their places in it. -/
theorem mistakes_in_their_files {s : SourceSet} {found : List Mistake} (hfiles : s.files ≠ [])
    (hpaths : DistinctPaths s) (h : s.parse = .error found) :
    (∀ m ∈ found, m.span.start ≤ m.span.stop ∧ m.span.stop ≤ s.text.utf8ByteSize) ∧
      ((s.mistakesByFile found).flatMap fun g => g.items.map (·.item)).Perm found ∧
      ((s.mistakesByFile found).Pairwise fun g g' => Path.same g.path g'.path = false) ∧
      ∀ g ∈ s.mistakesByFile found, ∃ f ∈ s.placed, g.path = f.path ∧
        g.items.map (·.item) = found.filter (fun m => f.holds m.span.start) ∧
        ∀ entry ∈ g.items, f.Shows s.text entry := by
  have hfits := mistake_fits (last_text hfiles) h
  have hin : InFiles s found := fun m hm => by
    refine exists_holds (Nat.zero_le _) ?_
    rw [Nat.zero_add]
    exact (hfits m hm).begins
  rw [mistakesByFile_eq_grouped]
  obtain ⟨paths, hheading, hgroups⟩ := exists_heading (found.filterMap s.entry?)
  refine ⟨fun m hm => ⟨(hfits m hm).ordered, ?_⟩, ?_, ?_, ?_⟩
  · rw [← byteLength_toList]
    exact (hfits m hm).stop.le
  · have hperm := (items_grouped (found.filterMap s.entry?)).map (·.item)
    rw [List.map_flatMap, List.map_map] at hperm
    exact hperm.trans (.of_eq (items_entries hin))
  · rw [hgroups, List.pairwise_map]
    exact hheading.apart
  · intro g hg
    rw [hgroups] at hg
    obtain ⟨path, hpath, rfl⟩ := List.mem_map.mp hg
    obtain ⟨e, he, rfl⟩ := hheading.used path hpath
    obtain ⟨m, hm, hentry⟩ := List.mem_filterMap.mp he
    obtain ⟨f, hf, hholds⟩ := hin m hm
    rw [entry_of_holds hf hholds] at hentry
    cases hentry
    rw [groupOf_file hpaths hf hin]
    refine ⟨f, hf, rfl, ?_, List.forall_mem_map.mpr fun m hm => ?_⟩
    · rw [List.map_map]
      exact List.map_id _
    · obtain ⟨hmem, hholds⟩ := List.mem_filter.mp hm
      exact shows_place hf (hfits m hmem) hholds

namespace Sample

/-- A string without an end runs from one file into the next one, and an empty file holds none of
the mistakes. -/
def spoiltFiles : SourceSet where
  files := [
    ⟨"a.meta", "CREATE x é"⟩, ⟨"empty.meta", ""⟩, ⟨"b.meta", "; CREATE 'it"⟩, ⟨"c.meta", "s"⟩]

def spoiltFilesMistakes : List Mistake := [
  ⟨.unexpectedToken "TABLE, VIEW, or STATEMENT" "identifier 'x'", ⟨7, 8⟩⟩,
  ⟨.invalidToken "é", ⟨9, 11⟩⟩,
  ⟨.unexpectedEnd "TABLE, VIEW, or STATEMENT", ⟨21, 21⟩⟩,
  ⟨.invalidToken "'it\ns\n", ⟨22, 28⟩⟩]

end Sample

theorem spoiltFiles_grouped :
    Sample.spoiltFiles.files ≠ [] ∧ DistinctPaths Sample.spoiltFiles ∧
      Sample.spoiltFiles.parse = .error Sample.spoiltFilesMistakes ∧
      ((Sample.spoiltFiles.mistakesByFile Sample.spoiltFilesMistakes).map fun g =>
        (g.path, g.items.map (·.span))) =
        [("a.meta", [⟨7, 8⟩, ⟨9, 11⟩]), ("b.meta", [⟨8, 8⟩, ⟨9, 12⟩])] ∧
      ((Sample.spoiltFiles.mistakesByFile Sample.spoiltFilesMistakes).flatMap fun g =>
        g.items.map (·.item)).Perm Sample.spoiltFilesMistakes := by
  have hpaths : DistinctPaths Sample.spoiltFiles := by
    unfold DistinctPaths
    decide +kernel
  have hread : schemaOfLexemes ((scan Sample.spoiltFiles.text).filterMap Scanned.lexeme?) =
      .error [⟨.unexpectedToken "TABLE, VIEW, or STATEMENT" "identifier 'x'", ⟨7, 8⟩⟩,
        ⟨.unexpectedEnd "TABLE, VIEW, or STATEMENT", ⟨21, 21⟩⟩] := by decide +kernel
  have hstray : strayMistakes (scan Sample.spoiltFiles.text) =
      [⟨.invalidToken "é", ⟨9, 11⟩⟩, ⟨.invalidToken "'it\ns\n", ⟨22, 28⟩⟩] := by decide +kernel
  have hparse : Sample.spoiltFiles.parse = .error Sample.spoiltFilesMistakes := by
    rw [SourceSet.parse, Schema.parse]
    simp only [hread, hstray, List.cons_append, List.nil_append]
    refine congrArg Except.error ?_
    simp [List.mergeSort, List.MergeSort.Internal.splitInTwo, Sample.spoiltFilesMistakes]
  refine ⟨by decide, hpaths, hparse, by decide +kernel, ?_⟩
  exact (mistakes_in_their_files (by decide) hpaths hparse).2.1

end Mistakes

end Schemata
