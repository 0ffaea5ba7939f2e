import Schemata.Proofs.Lexing
import Mathlib.Data.List.Infix

/-! A text is cut into pieces, and each piece is known from its own characters and a look at what
comes next. What comes next may change without any effect on the piece, as long as it says the same
up to a gap. Only a string or block comment without an end takes all that there is. -/
namespace Schemata

section Bytes

theorem foldl_utf8Size (n : Nat) (cs : List Char) :
    cs.foldl (fun n c => n + c.utf8Size) n = n + byteLength cs := by
  induction cs generalizing n with
  | nil => rfl
  | cons c cs ih =>
    rw [byteLength, List.foldl_cons, List.foldl_cons, ih, ih (0 + c.utf8Size)]
    omega

@[simp] theorem byteLength_nil : byteLength [] = 0 :=
  rfl

@[simp] theorem byteLength_cons (c : Char) (cs : List Char) :
    byteLength (c :: cs) = c.utf8Size + byteLength cs := by
  rw [byteLength, List.foldl_cons, foldl_utf8Size, Nat.zero_add]

@[simp] theorem byteLength_append (as bs : List Char) :
    byteLength (as ++ bs) = byteLength as + byteLength bs := by
  induction as with
  | nil => simp
  | cons a as ih => simp [ih, Nat.add_assoc]

theorem byteLength_toList (text : String) : byteLength text.toList = text.utf8ByteSize := by
  have hofList : ∀ cs, byteLength cs = (String.ofList cs).utf8ByteSize := by
    intro cs
    induction cs with
    | nil => rfl
    | cons c cs ih =>
      rw [byteLength_cons, ih, String.ofList_cons, String.utf8ByteSize_append,
        String.utf8ByteSize_singleton]
  rw [hofList, String.ofList_toList]

theorem byteLength_pos {cs : List Char} (h : cs ≠ []) : 0 < byteLength cs := by
  obtain ⟨c, cs, rfl⟩ := List.exists_cons_of_ne_nil h
  rw [byteLength_cons]
  exact Nat.add_pos_left c.utf8Size_pos _

end Bytes

/-- Up to a gap or to its own end, `rest'` says what `rest` says. Where a line ends before `rest`,
one ends before `rest'`. -/
structure Agrees (rest rest' : List Char) : Prop where
  upToGap : ∃ w tail, w <+: rest ∧ rest' = w ++ tail ∧ ∀ c, tail.head? = some c → isGap c = true
  lineEnd : (∀ c, rest.head? = some c → c = '\n') → ∀ c, rest'.head? = some c → c = '\n'

namespace Agrees

variable {rest rest' : List Char}

theorem refl (rest : List Char) : Agrees rest rest where
  upToGap := ⟨rest, [], List.prefix_rfl, (List.append_nil rest).symm, nofun⟩
  lineEnd h := h

theorem append_left {w : List Char} (h : Agrees rest rest') (hw : w ≠ []) :
    Agrees (w ++ rest) (w ++ rest') where
  upToGap := by
    obtain ⟨v, tail, hv, rfl, htail⟩ := h.upToGap
    exact ⟨w ++ v, tail, (List.prefix_append_right_inj w).mpr hv, (List.append_assoc ..).symm,
      htail⟩
  lineEnd := by
    obtain ⟨d, w, rfl⟩ := List.exists_cons_of_ne_nil hw
    exact id

/-- A text agrees with itself before any line end. -/
theorem line (rest more : List Char) : Agrees rest (rest ++ '\n' :: more) where
  upToGap := by
    refine ⟨rest, '\n' :: more, List.prefix_rfl, rfl, fun c hc => ?_⟩
    cases hc
    rfl
  lineEnd := by
    intro h c hc
    cases rest with
    | nil => exact (Option.some.inj hc).symm
    | cons d rest => exact h c hc

theorem head (h : Agrees rest rest') {c : Char} (hc : rest'.head? = some c) :
    isGap c = true ∨ rest.head? = some c := by
  obtain ⟨w, tail, ⟨after, hw⟩, rfl, htail⟩ := h.upToGap
  cases w with
  | nil => exact .inl (htail c hc)
  | cons d w =>
    cases hc
    exact .inr (by rw [← hw]; rfl)

/-- What does not go on into `rest` does not go on into `rest'`. -/
theorem stops (h : Agrees rest rest') {p : Char → Bool} (hgap : ∀ c, isGap c = true → p c = false)
    (hstop : ∀ c, rest.head? = some c → p c = false) : ∀ c, rest'.head? = some c → p c = false := by
  intro c hc
  rcases h.head hc with hc | hc
  · exact hgap c hc
  · exact hstop c hc

theorem second (h : Agrees rest rest') {c d : Char} {last : List Char}
    (heq : rest' = c :: d :: last) :
    isGap c = true ∨ isGap d = true ∨ ∃ last, rest = c :: d :: last := by
  obtain ⟨w, tail, ⟨after, hw⟩, hrest, htail⟩ := h.upToGap
  rw [heq] at hrest
  rcases w with _ | ⟨a, _ | ⟨b, w⟩⟩
  · exact .inl (htail c (by rw [← List.nil_append tail, ← hrest]; rfl))
  · cases hrest
    exact .inr (.inl (htail d rfl))
  · cases hrest
    exact .inr (.inr ⟨_, hw.symm⟩)

end Agrees

section Pieces

theorem not_digit_of_gap {c : Char} (h : isGap c = true) : c.isDigit = false :=
  not_digit_of_boundary (by rw [isBoundary, h]; rfl)

theorem head_dropWhile (p : Char → Bool) (cs : List Char) :
    ∀ c, (cs.dropWhile p).head? = some c → p c = false := by
  intro c hc
  have hhead := List.head?_dropWhile_not p cs
  rw [hc] at hhead
  simpa using hhead

theorem mem_takeWhile (p : Char → Bool) (cs : List Char) : ∀ c ∈ cs.takeWhile p, p c = true :=
  List.all_eq_true.mp List.all_takeWhile

/-- The characters `more` are taken off the text and make a piece. They do so before every text
that agrees with what follows. -/
def Settled (f : List Char → Piece × Nat) (cs : List Char) : Prop :=
  ∃ p more rest, cs = more ++ rest ∧
    ∀ rest', Agrees rest rest' → f (more ++ rest') = (p, more.length)

variable {c : Char} {cs : List Char}

theorem settled_word (h : isNameStart c = true) (cs : List Char) : Settled (piece c) cs :=
  ⟨_, cs.takeWhile isNameChar, cs.dropWhile isNameChar, List.takeWhile_append_dropWhile.symm,
    fun _ hrest => piece_word h (mem_takeWhile _ cs)
      (hrest.stops (fun _ => not_nameChar_of_gap) (head_dropWhile _ cs))⟩

theorem settled_number (c : Char) (cs : List Char) : Settled (numberPiece c) cs := by
  have hwhole := mem_takeWhile Char.isDigit cs
  have hcs : cs.takeWhile Char.isDigit ++ cs.dropWhile Char.isDigit = cs :=
    List.takeWhile_append_dropWhile
  have hstop := head_dropWhile Char.isDigit cs
  generalize cs.takeWhile Char.isDigit = whole at hwhole hcs
  generalize cs.dropWhile Char.isDigit = rest at hcs hstop
  by_cases hdecimal : ∃ d part, rest = '.' :: d :: part ∧ d.isDigit = true
  · obtain ⟨d, part, rfl, hd⟩ := hdecimal
    refine ⟨_, whole ++ '.' :: d :: part.takeWhile Char.isDigit, part.dropWhile Char.isDigit, ?_,
      fun rest' hrest => numberPiece_decimal c hwhole hd (mem_takeWhile _ part)
        (hrest.stops (fun _ => not_digit_of_gap) (head_dropWhile _ part))⟩
    rw [List.append_assoc, List.cons_append, List.cons_append, List.takeWhile_append_dropWhile, hcs]
  · refine ⟨_, whole, rest, hcs.symm, fun rest' hrest => numberPiece_integer c hwhole
      ⟨hrest.stops (fun _ => not_digit_of_gap) hstop, fun d last heq => ?_⟩⟩
    rcases hrest.second heq with hdot | hd | ⟨part, hpart⟩
    · cases hdot
    · exact not_digit_of_gap hd
    · exact Bool.eq_false_iff.mpr fun hd => hdecimal ⟨d, part, hpart, hd⟩

theorem not_nameStart_of_gap {c : Char} (h : isGap c = true) : isNameStart c = false :=
  Bool.eq_false_iff.mpr fun hs =>
    absurd (isNameChar_of_start hs) (Bool.eq_false_iff.mp (not_nameChar_of_gap h))

/-- A text starts with a word, or no letter stands at its start. -/
theorem word_or_not (cs : List Char) :
    (∃ d ds rest, cs = d :: ds ++ rest ∧ isNameStart d = true ∧ (∀ c ∈ ds, isNameChar c = true) ∧
      ∀ c, rest.head? = some c → isNameChar c = false) ∨
    ∀ c, cs.head? = some c → isNameStart c = false := by
  cases cs with
  | nil => exact .inr nofun
  | cons d cs =>
    by_cases hd : isNameStart d = true
    · refine .inl ⟨d, cs.takeWhile isNameChar, cs.dropWhile isNameChar, ?_, hd,
        mem_takeWhile _ cs, head_dropWhile _ cs⟩
      rw [List.cons_append, List.takeWhile_append_dropWhile]
    · refine .inr fun c hc => ?_
      cases hc
      exact Bool.eq_false_iff.mpr hd

theorem settled_parameter (cs : List Char) : Settled parameterPiece cs := by
  rcases word_or_not cs with ⟨d, ds, rest, rfl, hd, hds, hstop⟩ | hnone
  · exact ⟨_, d :: ds, rest, rfl, fun rest' hrest =>
      parameterPiece_word hd hds (hrest.stops (fun _ => not_nameChar_of_gap) hstop)⟩
  · refine ⟨.stray, [], cs, rfl, fun rest' hrest => ?_⟩
    have hnone' := hrest.stops (fun _ => not_nameStart_of_gap) hnone
    cases rest' with
    | nil => rfl
    | cons c rest' =>
      rw [List.nil_append, parameterPiece, if_neg (Bool.eq_false_iff.mp (hnone' c rfl))]
      rfl

/-- A quote and a word before something other than a quote. -/
theorem quotedNamePiece_open {d : Char} {ds rest : List Char} (hd : isNameStart d = true)
    (hds : ∀ c ∈ ds, isNameChar c = true) (hr : ∀ c, rest.head? = some c → isNameChar c = false)
    (hquote : ∀ c, rest.head? = some c → (c == '"') = false) :
    quotedNamePiece (d :: ds ++ rest) = (.stray, (d :: ds).length) := by
  rw [List.cons_append, quotedNamePiece, if_pos hd, takeWhile_append_stop hds hr]
  dsimp only
  rw [List.length_cons, List.drop_succ_cons, List.drop_left]
  split
  · cases hquote '"' rfl
  · rfl

theorem settled_quotedName (cs : List Char) : Settled quotedNamePiece cs := by
  rcases word_or_not cs with ⟨d, ds, rest, rfl, hd, hds, hstop⟩ | hnone
  · by_cases hclosed : ∃ last, rest = '"' :: last
    · obtain ⟨last, rfl⟩ := hclosed
      refine ⟨.token (.quotedName (String.ofList (d :: ds))), d :: ds ++ ['"'], last, by simp,
        fun rest' _ => ?_⟩
      rw [List.append_assoc, List.singleton_append, quotedNamePiece_word hd hds rest']
      simp
    · have hquote : ∀ c, rest.head? = some c → (c == '"') = false := by
        intro c hc
        obtain ⟨last, rfl⟩ := List.head?_eq_some_iff.mp hc
        exact beq_eq_false_iff_ne.mpr fun heq => hclosed ⟨last, by rw [heq]⟩
      have hgap : ∀ c, isGap c = true → (c == '"') = false := by
        intro c hc
        rcases isGap_cases hc with rfl | rfl | rfl | rfl | rfl <;> rfl
      exact ⟨.stray, d :: ds, rest, rfl, fun rest' hrest => quotedNamePiece_open hd hds
        (hrest.stops (fun _ => not_nameChar_of_gap) hstop) (hrest.stops hgap hquote)⟩
  · refine ⟨.stray, [], cs, rfl, fun rest' hrest => ?_⟩
    have hnone' := hrest.stops (fun _ => not_nameStart_of_gap) hnone
    cases rest' with
    | nil => rfl
    | cons c rest' =>
      rw [List.nil_append, quotedNamePiece, if_neg (Bool.eq_false_iff.mp (hnone' c rfl))]
      rfl

/-- A string that ends does so at the same quote, unless another quote comes right after it. -/
theorem stringLength_settled {cs : List Char} {n : Nat} (h : stringLength? cs = some n) :
    ∃ more rest, cs = more ++ rest ∧ more.length = n ∧ rest.head? ≠ some '\'' ∧
      ∀ rest', rest'.head? ≠ some '\'' → stringLength? (more ++ rest') = some n := by
  fun_induction stringLength? cs generalizing n with
  | case1 => cases h
  | case2 cs ih =>
    obtain ⟨m, hm, rfl⟩ := Option.map_eq_some_iff.mp h
    obtain ⟨more, rest, rfl, rfl, hrest, hmore⟩ := ih hm
    refine ⟨'\'' :: '\'' :: more, rest, rfl, rfl, hrest, fun rest' hrest' => ?_⟩
    simp [stringLength?, hmore rest' hrest']
  | case3 cs hcs =>
    cases h
    refine ⟨['\''], cs, rfl, rfl, fun hquote => ?_, fun rest' hrest' => ?_⟩
    · obtain ⟨last, rfl⟩ := List.head?_eq_some_iff.mp hquote
      exact hcs last rfl
    · cases rest' with
      | nil => rfl
      | cons c rest' =>
        have hc : c ≠ '\'' := fun heq => hrest' (by rw [heq]; rfl)
        simp [stringLength?, hc]
  | case4 c cs _ hc ih =>
    obtain ⟨m, hm, rfl⟩ := Option.map_eq_some_iff.mp h
    obtain ⟨more, rest, rfl, rfl, hrest, hmore⟩ := ih hm
    refine ⟨c :: more, rest, rfl, rfl, hrest, fun rest' hrest' => ?_⟩
    have hne : c ≠ '\'' := hc
    simp [stringLength?, hmore rest' hrest', hne]

theorem settled_string {cs : List Char} {n : Nat} (h : stringLength? cs = some n) :
    Settled stringPiece cs := by
  obtain ⟨more, rest, rfl, rfl, hrest, hmore⟩ := stringLength_settled h
  refine ⟨.token (.string (String.ofList (collapseQuotes '\'' (more.take (more.length - 1))))),
    more, rest, rfl, fun rest' hagrees => ?_⟩
  have hquote : rest'.head? ≠ some '\'' := by
    intro hc
    rcases hagrees.head hc with hgap | hc
    · cases hgap
    · exact hrest hc
  rw [stringPiece, hmore rest' hquote]
  dsimp only
  rw [List.take_append_of_le_length (Nat.sub_le _ 1)]

theorem shift_ok {n m : Nat} {x : Except Nat Nat} (h : commentLength.shift n x = .ok m) :
    ∃ k, x = .ok k ∧ m = n + k := by
  cases x with
  | error k => cases h
  | ok k => exact ⟨k, rfl, (Except.ok.inj h).symm⟩

theorem shift_error {n m : Nat} {x : Except Nat Nat} (h : commentLength.shift n x = .error m) :
    ∃ k, x = .error k ∧ m = n + k := by
  cases x with
  | error k => exact ⟨k, rfl, (Except.error.inj h).symm⟩
  | ok k => cases h

theorem commentLength_cons {c : Char} (h : c ≠ '*') (cs : List Char) :
    commentLength (c :: cs) = commentLength.shift 1 (commentLength cs) := by
  simp [commentLength, h]

/-- A block comment that ends does so whatever comes after it. -/
theorem commentLength_settled {cs : List Char} {n : Nat} (h : commentLength cs = .ok n) :
    ∃ more rest, cs = more ++ rest ∧ n = more.length ∧
      ∀ rest', commentLength (more ++ rest') = .ok n := by
  fun_induction commentLength cs generalizing n with
  | case1 => cases h
  | case2 cs =>
    cases h
    exact ⟨['*', '/'], cs, rfl, rfl, fun _ => rfl⟩
  | case3 => cases h
  | case4 c cs hc ih =>
    obtain ⟨m, hm, rfl⟩ := shift_ok h
    obtain ⟨more, rest, rfl, rfl, hmore⟩ := ih hm
    refine ⟨'*' :: c :: more, rest, rfl, Nat.add_comm .., fun rest' => ?_⟩
    simp [commentLength, hmore rest', commentLength.shift]
  | case5 c cs hend hlast hpair ih =>
    have hc : c ≠ '*' := by
      rintro rfl
      cases cs with
      | nil => exact hlast rfl rfl
      | cons d ds => exact hpair d ds rfl rfl
    obtain ⟨m, hm, rfl⟩ := shift_ok h
    obtain ⟨more, rest, rfl, rfl, hmore⟩ := ih hm
    refine ⟨c :: more, rest, rfl, Nat.add_comm .., fun rest' => ?_⟩
    rw [List.cons_append, commentLength_cons hc, hmore rest']
    rfl

theorem commentLength_error_le {cs : List Char} {n : Nat} (h : commentLength cs = .error n) :
    n ≤ cs.length := by
  fun_induction commentLength cs generalizing n with
  | case1 => cases h; exact Nat.le_refl 0
  | case2 cs => cases h
  | case3 => cases h; exact Nat.zero_le 1
  | case4 c cs hc ih =>
    obtain ⟨m, hm, rfl⟩ := shift_error h
    have := ih hm
    simp only [List.length_cons]
    omega
  | case5 c cs hend hlast hpair ih =>
    obtain ⟨m, hm, rfl⟩ := shift_error h
    have := ih hm
    simp only [List.length_cons]
    omega

/-- Whether a character after a sign makes a longer piece with it. -/
def runsOn (c d : Char) : Bool :=
  [('-', '-'), ('/', '*'), ('<', '>'), ('<', '='), ('>', '='), ('!', '='), ('|', '|')].contains
    (c, d)

theorem runsOn_gap (c : Char) {d : Char} (h : isGap d = true) : runsOn c d = false := by
  rcases isGap_cases h with rfl | rfl | rfl | rfl | rfl <;> simp [runsOn]

/-- A sign makes the same piece before all that does not run on. -/
theorem piece_lone {c : Char} (hgap : isGap c = false) (hname : isNameStart c = false)
    (hdigit : c.isDigit = false) (hquotes : c ∉ ['\'', '"', ':']) {cs : List Char}
    (hcs : ∀ d, cs.head? = some d → runsOn c d = false) : piece c cs = ((piece c []).1, 0) := by
  simp only [List.mem_cons, List.not_mem_nil, or_false, not_or] at hquotes
  by_cases hmark : c ∈ ['(', ')', ',', ';', '.', '=', '+', '*']
  · simp only [List.mem_cons, List.not_mem_nil, or_false] at hmark
    rcases hmark with rfl | rfl | rfl | rfl | rfl | rfl | rfl | rfl <;> rfl
  by_cases hsign : c ∈ ['-', '/', '<', '>', '!', '|']
  · simp only [List.mem_cons, List.not_mem_nil, or_false] at hsign
    cases cs with
    | nil => rcases hsign with rfl | rfl | rfl | rfl | rfl | rfl <;> rfl
    | cons d cs =>
      have hd := hcs d rfl
      rcases hsign with rfl | rfl | rfl | rfl | rfl | rfl <;> simp [runsOn] at hd <;>
        simp [piece, hgap, hname, hdigit, hd, symbolPiece]
  · simp only [List.mem_cons, List.not_mem_nil, or_false, not_or] at hsign hmark
    simp [piece, hgap, hname, hdigit, hquotes, hmark, hsign]

theorem settled_lineComment (cs : List Char) : Settled (piece '-') ('-' :: cs) := by
  refine ⟨.gap, '-' :: cs.takeWhile (· != '\n'), cs.dropWhile (· != '\n'), ?_,
    fun rest' hrest => ?_⟩
  · rw [List.cons_append, List.takeWhile_append_dropWhile]
  have hline : ∀ c, rest'.head? = some c → (c != '\n') = false := fun c hc =>
    bne_eq_false_iff_eq.mpr (hrest.lineEnd (fun c hc =>
      bne_eq_false_iff_eq.mp (head_dropWhile _ cs c hc)) c hc)
  have hbody := takeWhile_append_stop (mem_takeWhile (· != '\n') cs) hline
  change (Piece.gap, 1 + ((cs.takeWhile (· != '\n') ++ rest').takeWhile (· != '\n')).length) = _
  rw [hbody, List.length_cons, Nat.add_comm]

theorem settled_blockComment {cs : List Char} {n : Nat} (h : commentLength cs = .ok n) :
    Settled (piece '/') ('*' :: cs) := by
  obtain ⟨more, rest, rfl, rfl, hmore⟩ := commentLength_settled h
  refine ⟨.gap, '*' :: more, rest, rfl, fun rest' _ => ?_⟩
  change commentPiece (more ++ rest') = _
  rw [commentPiece, hmore rest']
  rfl

end Pieces

section Cuts

/-- At the start of `w ++ rest`, the characters `w` make the piece `p`. -/
def Heads (p : Piece) (w rest : List Char) : Prop :=
  ∃ c more, w = c :: more ∧ piece c (more ++ rest) = (p, more.length)

/-- The characters begin as a string or a block comment does. -/
def OpensText (w : List Char) : Prop :=
  ['\''] <+: w ∨ ['/', '*'] <+: w

/-- How the first piece is cut off a text. Gaps run together, and a string or comment without an
end takes what there is; any other piece stays the same before a text that agrees with the rest. -/
inductive Cut : Piece → List Char → List Char → Prop
  | blank {w rest : List Char} (hw : ∀ c ∈ w, isGap c = true) (h : Heads .gap w rest) :
    Cut .gap w rest
  | leftOpen {w rest : List Char} (hw : OpensText w) (h : Heads .stray w rest) : Cut .stray w rest
  | settled {p : Piece} {w rest : List Char} (h : ∀ rest', Agrees rest rest' → Heads p w rest') :
    Cut p w rest

theorem Settled.cut {c : Char} {cs : List Char} (h : Settled (piece c) cs) :
    ∃ p w rest, c :: cs = w ++ rest ∧ Cut p w rest := by
  obtain ⟨p, more, rest, rfl, hmore⟩ := h
  exact ⟨p, c :: more, rest, rfl, .settled fun rest' hrest => ⟨c, more, rfl, hmore rest' hrest⟩⟩

theorem heads_blank {c : Char} (h : isGap c = true) (cs : List Char) :
    Heads .gap (c :: cs.takeWhile isGap) (cs.dropWhile isGap) := by
  refine ⟨c, _, rfl, ?_⟩
  rw [List.takeWhile_append_dropWhile]
  exact if_pos h

theorem exists_cut_blank {c : Char} (h : isGap c = true) (cs : List Char) :
    ∃ p w rest, c :: cs = w ++ rest ∧ Cut p w rest := by
  refine ⟨.gap, c :: cs.takeWhile isGap, cs.dropWhile isGap, ?_, .blank ?_ (heads_blank h cs)⟩
  · rw [List.cons_append, List.takeWhile_append_dropWhile]
  · exact List.forall_mem_cons.mpr ⟨h, mem_takeWhile _ cs⟩

theorem exists_cut_string (cs : List Char) : ∃ p w rest, '\'' :: cs = w ++ rest ∧ Cut p w rest := by
  cases h : stringLength? cs with
  | some n => exact Settled.cut (settled_string h)
  | none =>
    refine ⟨.stray, '\'' :: cs, [], (List.append_nil _).symm, .leftOpen (.inl ⟨cs, rfl⟩)
      ⟨'\'', cs, rfl, ?_⟩⟩
    rw [List.append_nil]
    change stringPiece cs = _
    rw [stringPiece, h]

theorem exists_cut_blockComment (cs : List Char) :
    ∃ p w rest, '/' :: '*' :: cs = w ++ rest ∧ Cut p w rest := by
  cases h : commentLength cs with
  | ok n => exact (settled_blockComment h).cut
  | error n =>
    have hn : (cs.take n).length = n := List.length_take_of_le (commentLength_error_le h)
    refine ⟨.stray, '/' :: '*' :: cs.take n, cs.drop n, ?_, .leftOpen (.inr ⟨cs.take n, rfl⟩)
      ⟨'/', '*' :: cs.take n, rfl, ?_⟩⟩
    · rw [List.cons_append, List.cons_append, List.take_append_drop]
    · rw [List.cons_append, List.take_append_drop, List.length_cons, hn]
      change commentPiece cs = _
      rw [commentPiece, h]

theorem exists_cut_sign {c : Char} (hgap : isGap c = false) (hname : isNameStart c = false)
    (hdigit : c.isDigit = false) (hquotes : c ∉ ['\'', '"', ':']) (cs : List Char) :
    ∃ p w rest, c :: cs = w ++ rest ∧ Cut p w rest := by
  by_cases hlong : ∃ d ds, cs = d :: ds ∧ runsOn c d = true
  · obtain ⟨d, ds, rfl, hd⟩ := hlong
    simp only [runsOn, List.contains_iff_mem, List.mem_cons, Prod.mk.injEq, List.not_mem_nil,
      or_false] at hd
    have hpair : ∀ p, (∀ rest, piece c (d :: rest) = (p, 1)) → ∃ p w rest,
        c :: d :: ds = w ++ rest ∧ Cut p w rest := fun p hp =>
      Settled.cut ⟨p, [d], ds, rfl, fun rest' _ => hp rest'⟩
    rcases hd with ⟨rfl, rfl⟩ | ⟨rfl, rfl⟩ | ⟨rfl, rfl⟩ | ⟨rfl, rfl⟩ | ⟨rfl, rfl⟩ | ⟨rfl, rfl⟩ |
      ⟨rfl, rfl⟩
    · exact (settled_lineComment ds).cut
    · exact exists_cut_blockComment ds
    all_goals exact hpair _ fun _ => rfl
  · have hstop : ∀ d, cs.head? = some d → runsOn c d = false := by
      intro d hd
      obtain ⟨ds, rfl⟩ := List.head?_eq_some_iff.mp hd
      exact Bool.eq_false_iff.mpr fun hrun => hlong ⟨d, ds, rfl, hrun⟩
    exact Settled.cut ⟨_, [], cs, rfl, fun rest' hrest => piece_lone hgap hname hdigit hquotes
      (hrest.stops (fun _ => runsOn_gap c) hstop)⟩

theorem exists_cut (c : Char) (cs : List Char) :
    ∃ p w rest, c :: cs = w ++ rest ∧ Cut p w rest := by
  by_cases hgap : isGap c = true
  · exact exists_cut_blank hgap cs
  by_cases hname : isNameStart c = true
  · exact (settled_word hname cs).cut
  by_cases hdigit : c.isDigit = true
  · have hnumber := settled_number c cs
    rw [← funext (piece_digit hdigit)] at hnumber
    exact hnumber.cut
  by_cases hquotes : c ∈ ['\'', '"', ':']
  · simp only [List.mem_cons, List.not_mem_nil, or_false] at hquotes
    rcases hquotes with rfl | rfl | rfl
    · exact exists_cut_string cs
    · exact Settled.cut (settled_quotedName cs)
    · exact Settled.cut (settled_parameter cs)
  · exact exists_cut_sign (Bool.eq_false_iff.mpr hgap) (Bool.eq_false_iff.mpr hname)
      (Bool.eq_false_iff.mpr hdigit) hquotes cs

variable {p : Piece} {w rest : List Char}

theorem Cut.heads (h : Cut p w rest) : Heads p w rest := by
  cases h with
  | blank _ h | leftOpen _ h => exact h
  | settled h => exact h rest (.refl rest)

theorem Cut.ne_nil (h : Cut p w rest) : w ≠ [] := by
  obtain ⟨c, more, rfl, -⟩ := h.heads
  exact List.cons_ne_nil c more

/-- What holds of the empty text, and of a text if it holds of what follows its first piece, holds
of every text. -/
theorem cut_induction {motive : List Char → Prop} (nil : motive [])
    (cut : ∀ p w rest, Cut p w rest → motive rest → motive (w ++ rest)) (cs : List Char) :
    motive cs := by
  induction hn : cs.length using Nat.strongRecOn generalizing cs with
  | ind n ih =>
    cases cs with
    | nil => exact nil
    | cons c cs =>
      obtain ⟨p, w, rest, heq, hcut⟩ := exists_cut c cs
      rw [heq] at hn ⊢
      refine cut p w rest hcut (ih rest.length ?_ rest rfl)
      rw [← hn, List.length_append]
      exact Nat.lt_add_of_pos_left (List.length_pos_iff.mpr hcut.ne_nil)

/-- What a piece adds to the tokens and stray pieces of a text. -/
def Piece.scanned (start : Nat) (w : List Char) : Piece → List Scanned
  | gap => []
  | token t => [.lexeme ⟨t, ⟨start, start + byteLength w⟩⟩]
  | stray => [.stray (String.ofList w) ⟨start, start + byteLength w⟩]

theorem Heads.scanFrom (h : Heads p w rest) (start : Nat) :
    scanFrom start (w ++ rest) = p.scanned start w ++ scanFrom (start + byteLength w) rest := by
  obtain ⟨c, more, rfl, hpiece⟩ := h
  rw [List.cons_append, Schemata.scanFrom, hpiece]
  dsimp only
  rw [List.take_left, List.drop_left]
  cases p <;> rfl

/-- The gaps at the start of a text make nothing. -/
theorem scanFrom_dropWhile (start : Nat) (cs : List Char) :
    scanFrom start cs =
      scanFrom (start + byteLength (cs.takeWhile isGap)) (cs.dropWhile isGap) := by
  cases cs with
  | nil => rfl
  | cons c cs =>
    by_cases hc : isGap c = true
    · have hscan := (heads_blank hc cs).scanFrom start
      rw [List.cons_append, List.takeWhile_append_dropWhile] at hscan
      rw [List.takeWhile_cons_of_pos hc, List.dropWhile_cons_of_pos hc]
      exact hscan
    · rw [List.takeWhile_cons_of_neg hc, List.dropWhile_cons_of_neg hc]
      rfl

theorem scanFrom_blank {w : List Char} (hw : ∀ c ∈ w, isGap c = true) (start : Nat)
    (rest : List Char) : scanFrom start (w ++ rest) = scanFrom (start + byteLength w) rest := by
  rw [scanFrom_dropWhile, scanFrom_dropWhile (start + byteLength w),
    List.takeWhile_append_of_pos hw, List.dropWhile_append_of_pos hw, byteLength_append,
    Nat.add_assoc]

/-- A piece is scanned alike before each text that agrees with the rest. -/
theorem Cut.scanFrom (h : Cut p w rest) (hopen : ¬ (p = .stray ∧ OpensText w)) {rest' : List Char}
    (hrest : Agrees rest rest') (start : Nat) :
    scanFrom start (w ++ rest') = p.scanned start w ++ scanFrom (start + byteLength w) rest' := by
  cases h with
  | blank hw _ => exact scanFrom_blank hw start rest'
  | leftOpen hw _ => exact absurd ⟨rfl, hw⟩ hopen
  | settled h => exact (h rest' hrest).scanFrom start

end Cuts

end Schemata
