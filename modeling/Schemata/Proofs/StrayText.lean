import Schemata.Proofs.ElementMistakes
import Schemata.Proofs.IndependentStatements
import Schemata.Proofs.Scanning

/-! Stray pieces of a text are as good as blanks to the grammar. With spaces in their place the text
has the same tokens at the same places, so that it has the same mistakes but for the stray pieces
themselves. -/
namespace Schemata

open Grammar

/-! ### Blanks in place of stray pieces -/

section Blanks

/-- Whether the byte `n` belongs to a stray piece. -/
def Scanned.strayAt (n : Nat) : Scanned → Bool
  | lexeme _ => false
  | stray _ span => span.start ≤ n && n < span.stop

/-- A text that begins at byte `start`, with as many spaces as a character has bytes in place of
each one where `blank` holds. -/
def blankOut (blank : Nat → Bool) (start : Nat) : List Char → List Char
  | [] => []
  | c :: cs =>
    (if blank start then List.replicate c.utf8Size ' ' else [c]) ++
      blankOut blank (start + c.utf8Size) cs

/-- The text with spaces in place of its stray pieces. -/
def withoutStrays (source : String) : String :=
  String.ofList (blankOut (fun n => (scan source).any (Scanned.strayAt n)) 0 source.toList)

variable {blank : Nat → Bool} {start : Nat}

theorem blankOut_append (as bs : List Char) :
    blankOut blank start (as ++ bs) =
      blankOut blank start as ++ blankOut blank (start + byteLength as) bs := by
  induction as generalizing start with
  | nil => rfl
  | cons a as ih =>
    rw [List.cons_append, blankOut, blankOut, ih, List.append_assoc, byteLength_cons, Nat.add_assoc]

theorem blankOut_of_all {w : List Char}
    (h : ∀ n, start ≤ n → n < start + byteLength w → blank n = true) :
    blankOut blank start w = List.replicate (byteLength w) ' ' := by
  induction w generalizing start with
  | nil => rfl
  | cons c w ih =>
    rw [byteLength_cons] at h
    have hc : blank start = true := h start (Nat.le_refl _) (by have := c.utf8Size_pos; omega)
    have hw := @ih (start + c.utf8Size) fun n hn hlt => h n (by omega) (by omega)
    rw [blankOut, if_pos hc, hw, byteLength_cons, List.replicate_add]

theorem blankOut_of_none {w : List Char}
    (h : ∀ n, start ≤ n → n < start + byteLength w → blank n = false) :
    blankOut blank start w = w := by
  induction w generalizing start with
  | nil => rfl
  | cons c w ih =>
    rw [byteLength_cons] at h
    have hc : blank start = false := h start (Nat.le_refl _) (by have := c.utf8Size_pos; omega)
    have hw := @ih (start + c.utf8Size) fun n hn hlt => h n (by omega) (by omega)
    rw [blankOut, if_neg (Bool.eq_false_iff.mp hc), hw, List.singleton_append]

theorem not_strayAt_of_lt {n : Nat} {xs : List Scanned} (h : ∀ x ∈ xs, n < x.start) :
    xs.any (Scanned.strayAt n) = false := by
  rw [List.any_eq_false]
  intro x hx
  have hlt := h x hx
  cases x with
  | lexeme l => exact Bool.false_ne_true
  | stray text span =>
    have hbefore : ¬ span.start ≤ n := Nat.not_le.mpr hlt
    simp [Scanned.strayAt, hbefore]

theorem byteLength_spaces (n : Nat) : byteLength (List.replicate n ' ') = n := by
  induction n with
  | zero => rfl
  | succ n ih =>
    rw [List.replicate_succ, byteLength_cons, ih, Nat.add_comm]
    rfl

theorem Heads.not_gap {w rest : List Char} (h : Heads .stray w rest) :
    ∀ c, (w ++ rest).head? = some c → isGap c = false := by
  obtain ⟨c, more, rfl, hpiece⟩ := h
  rintro _ ⟨⟩
  by_contra hgap
  unfold piece at hpiece
  rw [if_pos (Bool.not_eq_false _ ▸ hgap)] at hpiece
  cases hpiece

/-- Blanks say the same as a text that begins with something stray, which is nothing. -/
theorem Agrees.blanks {cs more : List Char} {n : Nat} (hn : 0 < n)
    (h : ∀ c, cs.head? = some c → isGap c = false) (hcs : cs ≠ []) :
    Agrees cs (List.replicate n ' ' ++ more) where
  upToGap := by
    refine ⟨[], _, List.nil_prefix, rfl, fun c hc => ?_⟩
    obtain ⟨n, rfl⟩ := Nat.exists_eq_succ_of_ne_zero (Nat.ne_of_gt hn)
    cases hc
    rfl
  lineEnd := by
    obtain ⟨c, cs, rfl⟩ := List.exists_cons_of_ne_nil hcs
    intro hline
    have hgap := h c rfl
    rw [hline c rfl] at hgap
    cases hgap

/-- One piece after the other: a stray piece becomes a blank that agrees with it, and any other
piece is followed by a text that agrees with the one that followed it before. -/
theorem scanFrom_blankOut {cs : List Char}
    (h : ∀ n, start ≤ n → blank n = (scanFrom start cs).any (Scanned.strayAt n)) :
    scanFrom start (blankOut blank start cs) =
        ((scanFrom start cs).filterMap Scanned.lexeme?).map Scanned.lexeme ∧
      Agrees cs (blankOut blank start cs) := by
  induction cs using cut_induction generalizing start with
  | nil => exact ⟨by simp [scanFrom, blankOut], .refl _⟩
  | cut p w rest hcut ih =>
    have hscan := hcut.heads.scanFrom start
    have hlater : ∀ n, start + byteLength w ≤ n →
        blank n = (scanFrom (start + byteLength w) rest).any (Scanned.strayAt n) := by
      intro n hn
      have hpiece : (p.scanned start w).any (Scanned.strayAt n) = false := by
        cases p <;> simp [Piece.scanned, Scanned.strayAt]
        omega
      rw [h n (by omega), hscan, List.any_append, hpiece, Bool.false_or]
    have hinside : ∀ n, start ≤ n → n < start + byteLength w →
        blank n = (p.scanned start w).any (Scanned.strayAt n) := by
      intro n hn hlt
      have hrest : (scanFrom (start + byteLength w) rest).any (Scanned.strayAt n) = false :=
        not_strayAt_of_lt fun x hx =>
          Nat.lt_of_lt_of_le hlt ((scanFrom_ordered (start + byteLength w) rest).1 x hx)
      rw [h n hn, hscan, List.any_append, hrest, Bool.or_false]
    obtain ⟨htokens, hagrees⟩ := ih hlater
    rw [blankOut_append]
    by_cases hp : p = .stray
    · subst hp
      have hblank : blankOut blank start w = List.replicate (byteLength w) ' ' :=
        blankOut_of_all fun n hn hlt => by
          rw [hinside n hn hlt]
          simp [Piece.scanned, Scanned.strayAt, hn, hlt]
      have hgaps : ∀ c ∈ List.replicate (byteLength w) ' ', isGap c = true := fun c hc =>
        List.eq_of_mem_replicate hc ▸ rfl
      rw [hblank]
      constructor
      · rw [scanFrom_blank hgaps, byteLength_spaces, htokens, hscan, List.filterMap_append]
        rfl
      · exact .blanks (byteLength_pos hcut.ne_nil) hcut.heads.not_gap
          (List.append_ne_nil_of_left_ne_nil hcut.ne_nil rest)
    · have hkept : blankOut blank start w = w := blankOut_of_none fun n hn hlt => by
        rw [hinside n hn hlt]
        cases p with
        | stray => exact absurd rfl hp
        | gap | token t => rfl
      rw [hkept]
      refine ⟨?_, hagrees.append_left hcut.ne_nil⟩
      rw [hcut.scanFrom (fun hopen => hp hopen.1) hagrees, htokens, hscan, List.filterMap_append,
        List.map_append]
      cases p with
      | stray => exact absurd rfl hp
      | gap | token t => rfl

theorem scan_withoutStrays (source : String) :
    scan (withoutStrays source) =
      ((scan source).filterMap Scanned.lexeme?).map Scanned.lexeme := by
  rw [scan, withoutStrays, String.toList_ofList]
  exact (scanFrom_blankOut fun n _ => rfl).1

-- A comment that is left open does not hold a star at the very end.
example : withoutStrays "é \"Code) /* it *" = "        )       *" := by decide +kernel

end Blanks

/-! ### Mistakes in order -/

section Order

/-- The mistake `a` does not begin after `b`. -/
def Mistake.notAfter (a b : Mistake) : Bool :=
  a.span.start ≤ b.span.start

theorem Mistake.notAfter_trans (a b c : Mistake) (hab : a.notAfter b = true)
    (hbc : b.notAfter c = true) : a.notAfter c = true :=
  decide_eq_true (Nat.le_trans (of_decide_eq_true hab) (of_decide_eq_true hbc))

theorem Mistake.notAfter_total (a b : Mistake) : (a.notAfter b || b.notAfter a) = true := by
  simp [notAfter, Nat.le_total]

/-- The mistakes that begin at `n`, in their order. -/
def mistakesAt (n : Nat) (ms : List Mistake) : List Mistake :=
  ms.filter (·.span.start == n)

theorem mem_mistakesAt {n : Nat} {ms : List Mistake} {m : Mistake} :
    m ∈ mistakesAt n ms ↔ m ∈ ms ∧ m.span.start = n := by
  rw [mistakesAt, List.mem_filter, beq_iff_eq]

theorem mistakesAt_cons (n : Nat) (m : Mistake) (ms : List Mistake) :
    mistakesAt n (m :: ms) =
      if m.span.start = n then m :: mistakesAt n ms else mistakesAt n ms := by
  simp [mistakesAt, List.filter_cons]

theorem mem_iff_of_mistakesAt {as bs : List Mistake} (h : ∀ n, mistakesAt n as = mistakesAt n bs)
    (m : Mistake) : m ∈ as ↔ m ∈ bs := by
  have hiff : m ∈ mistakesAt m.span.start as ↔ m ∈ mistakesAt m.span.start bs := by rw [h]
  simpa [mem_mistakesAt] using hiff

/-- Mistakes in order are known from those at each place. -/
theorem eq_of_mistakesAt {as bs : List Mistake} (has : as.Pairwise (Mistake.notAfter · ·))
    (hbs : bs.Pairwise (Mistake.notAfter · ·)) (h : ∀ n, mistakesAt n as = mistakesAt n bs) :
    as = bs := by
  induction as generalizing bs with
  | nil =>
    cases bs with
    | nil => rfl
    | cons b bs => simpa using mem_iff_of_mistakesAt h b
  | cons a as ih =>
    cases bs with
    | nil => simpa using mem_iff_of_mistakesAt h a
    | cons b bs =>
      have hmem := mem_iff_of_mistakesAt h
      obtain ⟨ha, has'⟩ := List.pairwise_cons.mp has
      obtain ⟨hb, hbs'⟩ := List.pairwise_cons.mp hbs
      have hle : a.span.start ≤ b.span.start := by
        rcases List.mem_cons.mp ((hmem b).mpr List.mem_cons_self) with rfl | hin
        · exact Nat.le_refl _
        · exact of_decide_eq_true (ha b hin)
      have hge : b.span.start ≤ a.span.start := by
        rcases List.mem_cons.mp ((hmem a).mp List.mem_cons_self) with rfl | hin
        · exact Nat.le_refl _
        · exact of_decide_eq_true (hb a hin)
      have hfirst := h a.span.start
      rw [mistakesAt_cons, mistakesAt_cons, if_pos rfl, if_pos (Nat.le_antisymm hge hle)] at hfirst
      obtain rfl := (List.cons.inj hfirst).1
      have hlater : ∀ n, mistakesAt n as = mistakesAt n bs := by
        intro n
        have hn := h n
        rw [mistakesAt_cons, mistakesAt_cons] at hn
        by_cases hstart : a.span.start = n
        · rw [if_pos hstart, if_pos hstart] at hn
          exact (List.cons.inj hn).2
        · rwa [if_neg hstart, if_neg hstart] at hn
      rw [ih has' hbs' hlater]

/-- Sorting leaves the mistakes of one place as they are. -/
theorem mistakesAt_mergeSort (n : Nat) (ms : List Mistake) :
    mistakesAt n (ms.mergeSort Mistake.notAfter) = mistakesAt n ms := by
  have hsame : (mistakesAt n ms).Pairwise (Mistake.notAfter · ·) :=
    List.pairwise_of_forall_mem_list fun a ha b hb => by
      rw [Mistake.notAfter, (mem_mistakesAt.mp ha).2, (mem_mistakesAt.mp hb).2]
      exact decide_eq_true (Nat.le_refl n)
  have hsub : (mistakesAt n ms).Sublist (ms.mergeSort Mistake.notAfter) :=
    List.sublist_mergeSort Mistake.notAfter_trans Mistake.notAfter_total hsame List.filter_sublist
  have hfilter := hsub.filter (·.span.start == n)
  simp only [mistakesAt, List.filter_filter, Bool.and_self] at hfilter
  have hlength := ((List.mergeSort_perm ms Mistake.notAfter).filter (·.span.start == n)).length_eq
  exact (hfilter.eq_of_length hlength.symm).symm

/-- Merging keeps the mistakes of one place too, those of the first list before the others. -/
theorem mistakesAt_merge (n : Nat) {as : List Mistake} (has : as.Pairwise (Mistake.notAfter · ·))
    (bs : List Mistake) :
    mistakesAt n (as.merge bs Mistake.notAfter) = mistakesAt n as ++ mistakesAt n bs := by
  induction as generalizing bs with
  | nil => rw [List.nil_merge]; rfl
  | cons a as ih =>
    obtain ⟨ha, has⟩ := List.pairwise_cons.mp has
    induction bs with
    | nil => simp [mistakesAt]
    | cons b bs ihb =>
      rw [List.cons_merge_cons]
      split
      · rw [mistakesAt_cons, mistakesAt_cons, ih has]
        split <;> rfl
      · next hafter =>
        have hlt : b.span.start < a.span.start := by simpa [Mistake.notAfter] using hafter
        rw [mistakesAt_cons, mistakesAt_cons n b, ihb]
        split
        · next hstart =>
          -- `b` is the first at its place, since all of `a :: as` begin later.
          have hnone : mistakesAt n (a :: as) = [] := by
            refine List.eq_nil_iff_forall_not_mem.mpr fun m hm => ?_
            obtain ⟨hin, hm⟩ := mem_mistakesAt.mp hm
            rcases List.mem_cons.mp hin with rfl | hin
            · omega
            · have hle : a.span.start ≤ m.span.start := of_decide_eq_true (ha m hin)
              omega
          rw [hnone, List.nil_append, List.nil_append]
        · rfl

/-- Sorted mistakes with others after them, sorted again, are merged with them. -/
theorem mergeSort_append {as bs : List Mistake} (hbs : bs.Pairwise (Mistake.notAfter · ·)) :
    (as ++ bs).mergeSort Mistake.notAfter =
      (as.mergeSort Mistake.notAfter).merge bs Mistake.notAfter := by
  have hsorted := List.pairwise_mergeSort Mistake.notAfter_trans Mistake.notAfter_total
  refine eq_of_mistakesAt (hsorted _) (List.pairwise_merge Mistake.notAfter_trans
    Mistake.notAfter_total _ _ (hsorted as) hbs) fun n => ?_
  rw [mistakesAt_mergeSort, mistakesAt_merge n (hsorted as), mistakesAt_mergeSort, mistakesAt,
    List.filter_append]
  rfl

end Order

/-! ### The whole text -/

theorem strayMistakes_sorted (source : String) :
    (strayMistakes (scan source)).Pairwise (Mistake.notAfter · ·) := by
  rw [strayMistakes, List.pairwise_map, List.pairwise_filterMap]
  refine (scanFrom_ordered 0 source.toList).2.imp fun {x y} hxy a ha b hb => ?_
  cases x with
  | lexeme l => cases ha
  | stray text span =>
    cases y with
    | lexeme l => cases hb
    | stray text' span' =>
      cases ha
      cases hb
      exact decide_eq_true hxy

theorem parse_of_lexemes {source : String} {ls : List Lexeme}
    (h : scan source = ls.map Scanned.lexeme) :
    Schema.parse source = (schemaOfLexemes ls).mapError (·.mergeSort Mistake.notAfter) := by
  cases hls : schemaOfLexemes ls with
  | ok schema =>
    rw [Schema.parse]
    simp only [lexemes_of_scan h, strayMistakes_of_scan h, hls]
    rfl
  | error found => exact parse_of_scan h hls

end Schemata
