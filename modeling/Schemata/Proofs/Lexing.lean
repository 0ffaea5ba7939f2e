import Schemata.Token.Lexer
import Schemata.Schema.Print
import Mathlib.Data.List.Basic

/-! Which tokens a text makes when more text follows. Texts are put together at boundaries, that is
at gaps, parentheses, commas and semicolons, where no token can run on into the next. -/
namespace Schemata

/-- The token of a scanned piece; a stray one has none. -/
def Scanned.token? : Scanned → Option Token
  | lexeme l => some l.token
  | stray _ _ => none

def Piece.emit : Piece → List (Option Token)
  | gap => []
  | token t => [some t]
  | stray => [none]

theorem map_token_scanFrom (start start' : Nat) (cs : List Char) :
    (scanFrom start cs).map Scanned.token? = (scanFrom start' cs).map Scanned.token? := by
  fun_induction scanFrom start cs generalizing start' with
  | case1 => simp [scanFrom]
  | case2 start c cs text stop hp ih =>
    rw [scanFrom, hp]
    exact ih _
  | case3 start c cs text stop t hp ih =>
    rw [scanFrom, hp]
    exact congrArg (some t :: ·) (ih _)
  | case4 start c cs text stop hp ih =>
    rw [scanFrom, hp]
    exact congrArg (none :: ·) (ih _)

/-- The tokens of a text, wherever it stands; a stray piece shows as `none`. -/
def tokensOf (cs : List Char) : List (Option Token) :=
  (scanFrom 0 cs).map Scanned.token?

@[simp] theorem tokensOf_nil : tokensOf [] = [] := by
  simp [tokensOf, scanFrom]

theorem tokensOf_cons (c : Char) (cs : List Char) :
    tokensOf (c :: cs) = (piece c cs).1.emit ++ tokensOf (cs.drop (piece c cs).2) := by
  unfold tokensOf
  rw [scanFrom]
  split <;> rename_i hp <;> rw [hp] <;>
    simp [Piece.emit, Scanned.token?, map_token_scanFrom _ 0 (cs.drop (piece c cs).2)]

/-- Where no token can run on: a gap, a parenthesis, a comma or a semicolon. -/
def isBoundary (c : Char) : Bool :=
  isGap c || c == '(' || c == ')' || c == ',' || c == ';'

/-- The text is empty or starts at a boundary. -/
def Bounded (cs : List Char) : Prop :=
  ∀ c, cs.head? = some c → isBoundary c = true

theorem Bounded.append {as bs : List Char} (ha : Bounded as) (hb : Bounded bs) :
    Bounded (as ++ bs) := by
  cases as with
  | nil => exact hb
  | cons a as => exact fun c hc => ha c hc

/-- The text ends inside of what may be a longer token. -/
def EndsOpen (cs : List Char) : Prop :=
  ∃ c, cs.getLast? = some c ∧ isBoundary c = false

instance (cs : List Char) : Decidable (Bounded cs) :=
  match cs with
  | [] => .isTrue fun _ h => nomatch h
  | c :: _ => decidable_of_iff (isBoundary c = true) (by simp [Bounded])

instance (cs : List Char) : Decidable (EndsOpen cs) :=
  match h : cs.getLast? with
  | none => .isFalse fun ⟨_, hc, _⟩ => by simp [h] at hc
  | some c => decidable_of_iff (isBoundary c = false) (by simp [EndsOpen, h])

/-- Before any text that keeps it apart, `text` makes the tokens `ts`. -/
def Lexes (text : String) (ts : List Token) : Prop :=
  ∀ rest, (EndsOpen text.toList → Bounded rest) →
    tokensOf (text.toList ++ rest) = ts.map some ++ tokensOf rest

theorem Lexes.append {a b : String} {ts us : List Token} (ha : Lexes a ts) (hb : Lexes b us)
    (h : EndsOpen a.toList → Bounded b.toList) : Lexes (a ++ b) (ts ++ us) := by
  intro rest hrest
  rw [String.toList_append] at hrest ⊢
  have hb' : EndsOpen b.toList → Bounded rest := by
    rintro ⟨c, hc, ho⟩
    exact hrest ⟨c, by rw [List.getLast?_append, hc]; rfl, ho⟩
  have ha' : EndsOpen a.toList → Bounded (b.toList ++ rest) := by
    intro ho
    cases hl : b.toList with
    | nil => exact hrest (by rw [hl, List.append_nil]; exact ho)
    | cons d ds =>
      have hd := h ho
      rw [hl] at hd
      exact fun c hc => hd c hc
  rw [List.append_assoc, ha _ ha', hb _ hb', List.map_append, List.append_assoc]

/-- The last text before the end: nothing follows it. -/
theorem Lexes.tokensOf_eq {text : String} {ts : List Token} (h : Lexes text ts) :
    tokensOf text.toList = ts.map some := by
  have := h [] fun _ c hc => nomatch hc
  simpa using this

section Pieces

theorem drop_takeWhile {α : Type} (p : α → Bool) (l : List α) :
    l.drop (l.takeWhile p).length = l.dropWhile p := by
  induction l with
  | nil => rfl
  | cons a l ih => by_cases h : p a = true <;> simp [h, ih]

theorem tokensOf_gap {c : Char} (h : isGap c = true) (cs : List Char) :
    tokensOf (c :: cs) = tokensOf cs := by
  have hskip : ∀ c cs, isGap c = true → tokensOf (c :: cs) = tokensOf (cs.dropWhile isGap) := by
    intro c cs h
    have hpiece : piece c cs = (.gap, (cs.takeWhile isGap).length) := by
      unfold piece
      exact if_pos h
    rw [tokensOf_cons, hpiece, drop_takeWhile]
    rfl
  rw [hskip c cs h]
  cases cs with
  | nil => rfl
  | cons d ds =>
    by_cases hd : isGap d = true
    · rw [hskip d ds hd, List.dropWhile_cons_of_pos hd]
    · rw [List.dropWhile_cons_of_neg hd]

/-- Characters that a name can be written with, the first one no digit. -/
def IsWord (cs : List Char) : Prop :=
  ∃ d ds, cs = d :: ds ∧ isNameStart d = true ∧ ∀ c ∈ ds, isNameChar c = true

theorem isIdentifier_iff {text : String} : isIdentifier text = true ↔ IsWord text.toList := by
  unfold isIdentifier IsWord
  split
  · rename_i h
    simp [h]
  · rename_i c cs h
    simp [h, and_assoc]

theorem isNameChar_of_start {c : Char} (h : isNameStart c = true) : isNameChar c = true := by
  simp only [isNameStart, isNameChar, Char.isAlphanum, Bool.or_eq_true] at h ⊢
  tauto

theorem isGap_cases {c : Char} (h : isGap c = true) :
    c = ' ' ∨ c = '\t' ∨ c = '\r' ∨ c = '\n' ∨ c = '\x0c' := by
  simpa [isGap, or_assoc] using h

theorem isBoundary_cases {c : Char} (h : isBoundary c = true) :
    isGap c = true ∨ c = '(' ∨ c = ')' ∨ c = ',' ∨ c = ';' := by
  simpa [isBoundary, or_assoc] using h

theorem not_nameChar_of_gap {c : Char} (h : isGap c = true) : isNameChar c = false := by
  rcases isGap_cases h with rfl | rfl | rfl | rfl | rfl <;> decide

theorem not_nameChar_of_boundary {c : Char} (h : isBoundary c = true) : isNameChar c = false := by
  rcases isBoundary_cases h with h | rfl | rfl | rfl | rfl
  · exact not_nameChar_of_gap h
  all_goals decide

theorem takeWhile_append_stop {p : Char → Bool} {ds rest : List Char} (hd : ∀ c ∈ ds, p c = true)
    (hr : ∀ c, rest.head? = some c → p c = false) : (ds ++ rest).takeWhile p = ds := by
  rw [List.takeWhile_append_of_pos hd]
  cases rest with
  | nil => simp
  | cons c rest => simp [hr c rfl]

theorem piece_word {d : Char} {ds rest : List Char} (hd : isNameStart d = true)
    (hds : ∀ c ∈ ds, isNameChar c = true) (hr : ∀ c, rest.head? = some c → isNameChar c = false) :
    piece d (ds ++ rest) = (.token (wordToken (d :: ds)), ds.length) := by
  have hgap : ¬ isGap d = true := fun hg => by
    simpa [not_nameChar_of_gap hg] using isNameChar_of_start hd
  unfold piece
  rw [if_neg hgap, if_pos hd, takeWhile_append_stop hds hr]

theorem tokensOf_word {cs : List Char} (hw : IsWord cs) {rest : List Char}
    (hr : ∀ c, rest.head? = some c → isNameChar c = false) :
    tokensOf (cs ++ rest) = some (wordToken cs) :: tokensOf rest := by
  obtain ⟨d, ds, rfl, hd, hds⟩ := hw
  rw [List.cons_append, tokensOf_cons, piece_word hd hds hr, List.drop_left]
  rfl

/-- Signs that are a token by themselves, whatever follows. -/
def mark? : Char → Option Symbol
  | '(' => some .lparen
  | ')' => some .rparen
  | ',' => some .comma
  | ';' => some .semicolon
  | '=' => some .eq
  | '.' => some .dot
  | _ => none

theorem tokensOf_mark {c : Char} {s : Symbol} (h : mark? c = some s) (cs : List Char) :
    tokensOf (c :: cs) = some (.symbol s) :: tokensOf cs := by
  have hpiece : piece c cs = (.token (.symbol s), 0) := by
    unfold mark? at h
    split at h <;> cases h <;> rfl
  rw [tokensOf_cons, hpiece]
  rfl

/-- One or more digits. -/
def IsDigits (cs : List Char) : Prop :=
  cs ≠ [] ∧ ∀ c ∈ cs, c.isDigit = true

/-- Digits, a dot and more digits. -/
def IsDecimal (cs : List Char) : Prop :=
  ∃ whole part, cs = whole ++ '.' :: part ∧ IsDigits whole ∧ IsDigits part

theorem isDigit_bounds {c : Char} : c.isDigit = true ↔ 48 ≤ c.toNat ∧ c.toNat ≤ 57 := by
  simp [Char.isDigit, UInt32.le_iff_toNat_le]

theorem piece_digit {c : Char} (h : c.isDigit = true) (cs : List Char) :
    piece c cs = numberPiece c cs := by
  have hgap : ¬ isGap c = true := fun hg => by
    rcases isGap_cases hg with rfl | rfl | rfl | rfl | rfl <;> revert h <;> decide
  have hname : ¬ isNameStart c = true := fun hn => by
    have hd := isDigit_bounds.mp h
    delta isNameStart Char.isAlpha Char.isUpper Char.isLower at hn
    simp only [Bool.or_eq_true, Bool.and_eq_true, decide_eq_true_eq, beq_iff_eq] at hn
    rcases hn with (⟨h₁, h₂⟩ | ⟨h₁, h₂⟩) | rfl
    · have := UInt32.le_iff_toNat_le.mp h₁
      simp at this
      omega
    · have := UInt32.le_iff_toNat_le.mp h₁
      simp at this
      omega
    · revert hd
      decide
  unfold piece
  rw [if_neg hgap, if_neg hname, if_pos h]

/-- An integer ends before these characters: neither digits nor a dot and digits go on. -/
def EndsInteger (rest : List Char) : Prop :=
  (∀ c, rest.head? = some c → c.isDigit = false) ∧
    ∀ d last, rest = '.' :: d :: last → d.isDigit = false

theorem numberPiece_integer (c : Char) {whole rest : List Char}
    (hw : ∀ d ∈ whole, d.isDigit = true) (hr : EndsInteger rest) :
    numberPiece c (whole ++ rest) =
      (.token (.integer (String.ofList (c :: whole))), whole.length) := by
  rw [numberPiece, takeWhile_append_stop hw hr.1, List.drop_left]
  dsimp only
  split
  · rename_i d last
    rw [if_neg (by rw [hr.2 d last rfl]; exact Bool.false_ne_true)]
  · rfl

theorem numberPiece_decimal (c : Char) {whole part rest : List Char} {d : Char}
    (hw : ∀ d ∈ whole, d.isDigit = true) (hd : d.isDigit = true)
    (hp : ∀ d ∈ part, d.isDigit = true) (hr : ∀ c, rest.head? = some c → c.isDigit = false) :
    numberPiece c (whole ++ '.' :: d :: part ++ rest) =
      (.token (.decimal (String.ofList (c :: (whole ++ '.' :: d :: part)))),
        (whole ++ '.' :: d :: part).length) := by
  have htext : whole ++ '.' :: d :: part ++ rest = whole ++ '.' :: d :: (part ++ rest) := by simp
  have hwhole : (whole ++ '.' :: d :: (part ++ rest)).takeWhile Char.isDigit = whole :=
    takeWhile_append_stop hw fun c hc => by cases hc; decide
  have hlength : (whole ++ '.' :: d :: part).length = whole.length + 2 + part.length := by
    rw [List.length_append, List.length_cons, List.length_cons]
    omega
  rw [numberPiece, htext, hwhole, List.drop_left]
  simp only [hd, if_true, takeWhile_append_stop hp hr]
  rw [← hlength, ← htext, List.take_left]

theorem not_digit_of_boundary {c : Char} (h : isBoundary c = true) : c.isDigit = false := by
  have hn := not_nameChar_of_boundary h
  simp only [isNameChar, Char.isAlphanum, Bool.or_eq_false_iff] at hn
  exact hn.1.2

theorem Bounded.endsInteger {rest : List Char} (h : Bounded rest) : EndsInteger rest := by
  refine ⟨fun c hc => not_digit_of_boundary (h c hc), ?_⟩
  rintro d last rfl
  have hdot := h '.' rfl
  simp [isBoundary, isGap] at hdot

theorem tokensOf_integer {cs : List Char} (h : IsDigits cs) {rest : List Char}
    (hr : Bounded rest) :
    tokensOf (cs ++ rest) = some (.integer (String.ofList cs)) :: tokensOf rest := by
  obtain ⟨hne, hd⟩ := h
  cases cs with
  | nil => exact absurd rfl hne
  | cons d ds =>
    rw [List.forall_mem_cons] at hd
    rw [List.cons_append, tokensOf_cons, piece_digit hd.1,
      numberPiece_integer d hd.2 hr.endsInteger, List.drop_left]
    rfl

theorem tokensOf_decimal {cs : List Char} (h : IsDecimal cs) {rest : List Char}
    (hr : Bounded rest) :
    tokensOf (cs ++ rest) = some (.decimal (String.ofList cs)) :: tokensOf rest := by
  obtain ⟨whole, part, rfl, ⟨hwhole, hw⟩, hpart, hp⟩ := h
  cases whole with
  | nil => exact absurd rfl hwhole
  | cons d ds =>
    cases part with
    | nil => exact absurd rfl hpart
    | cons e es =>
      rw [List.forall_mem_cons] at hw hp
      rw [List.cons_append, List.cons_append, tokensOf_cons, piece_digit hw.1,
        numberPiece_decimal d hw.2 hp.1 hp.2 hr.endsInteger.1, List.drop_left]
      rfl

/-- Text with doubled quotes ends at the first quote that stands alone. -/
theorem stringLength_doubleQuotes (value : List Char) {rest : List Char}
    (hr : rest.head? ≠ some '\'') :
    stringLength? (doubleQuotes '\'' value ++ '\'' :: rest) =
      some ((doubleQuotes '\'' value).length + 1) := by
  induction value with
  | nil =>
    cases rest with
    | nil => rfl
    | cons c rest =>
      have hc : c ≠ '\'' := fun h => hr (by rw [h]; rfl)
      simp [doubleQuotes, stringLength?, hc]
  | cons c cs ih =>
    by_cases hc : c = '\''
    · simp [doubleQuotes, hc, stringLength?, ih]
    · simp [doubleQuotes, hc, stringLength?, ih]

theorem quoteText_toList (value : String) :
    (quoteText value).toList = '\'' :: (doubleQuotes '\'' value.toList ++ ['\'']) :=
  String.toList_ofList

/-- A quoted text is a string with that value, up to a quote that stands alone. -/
theorem piece_quoted (value : String) {rest : List Char} (hr : rest.head? ≠ some '\'') :
    piece '\'' (doubleQuotes '\'' value.toList ++ '\'' :: rest) =
      (.token (.string value), (doubleQuotes '\'' value.toList).length + 1) := by
  change stringPiece _ = _
  rw [stringPiece, stringLength_doubleQuotes _ hr]
  simp [collapseQuotes_doubleQuotes]

theorem tokensOf_string (value : String) {rest : List Char} (hr : rest.head? ≠ some '\'') :
    tokensOf ((quoteText value).toList ++ rest) = some (.string value) :: tokensOf rest := by
  have htext : (quoteText value).toList ++ rest =
      '\'' :: (doubleQuotes '\'' value.toList ++ '\'' :: rest) := by
    simp [quoteText_toList]
  rw [htext, tokensOf_cons, piece_quoted value hr]
  simp [Piece.emit, List.drop_append, List.drop_eq_nil_of_le]

theorem quotedNamePiece_word {d : Char} {ds : List Char} (hd : isNameStart d = true)
    (hds : ∀ c ∈ ds, isNameChar c = true) (rest : List Char) :
    quotedNamePiece (d :: ds ++ '"' :: rest) =
      (.token (.quotedName (String.ofList (d :: ds))), (d :: ds).length + 1) := by
  rw [List.cons_append, quotedNamePiece, if_pos hd,
    takeWhile_append_stop hds fun c hc => by cases hc; decide]
  simp

theorem tokensOf_quotedName {cs : List Char} (hw : IsWord cs) (rest : List Char) :
    tokensOf ('"' :: (cs ++ '"' :: rest)) =
      some (.quotedName (String.ofList cs)) :: tokensOf rest := by
  obtain ⟨d, ds, rfl, hd, hds⟩ := hw
  have hpiece : piece '"' (d :: ds ++ '"' :: rest) =
      (.token (.quotedName (String.ofList (d :: ds))), (d :: ds).length + 1) :=
    quotedNamePiece_word hd hds rest
  rw [tokensOf_cons, hpiece]
  simp [Piece.emit]

theorem parameterPiece_word {d : Char} {ds rest : List Char} (hd : isNameStart d = true)
    (hds : ∀ c ∈ ds, isNameChar c = true) (hr : ∀ c, rest.head? = some c → isNameChar c = false) :
    parameterPiece (d :: ds ++ rest) =
      (.token (.parameter (String.ofList (d :: ds))), (d :: ds).length) := by
  rw [List.cons_append, parameterPiece, if_pos hd, takeWhile_append_stop hds hr]

theorem tokensOf_parameter {cs : List Char} (hw : IsWord cs) {rest : List Char}
    (hr : ∀ c, rest.head? = some c → isNameChar c = false) :
    tokensOf (':' :: (cs ++ rest)) = some (.parameter (String.ofList cs)) :: tokensOf rest := by
  obtain ⟨d, ds, rfl, hd, hds⟩ := hw
  have hpiece : piece ':' (d :: ds ++ rest) =
      (.token (.parameter (String.ofList (d :: ds))), (d :: ds).length) :=
    parameterPiece_word hd hds hr
  rw [tokensOf_cons, hpiece, List.drop_left]
  rfl

/-- A minus sign is one by itself unless another one follows. -/
theorem tokensOf_minus {rest : List Char} (hr : rest.head? ≠ some '-') :
    tokensOf ('-' :: rest) = some (.symbol .minus) :: tokensOf rest := by
  have hpiece : piece '-' rest = (.token (.symbol .minus), 0) := by
    cases rest with
    | nil => rfl
    | cons c rest =>
      have hc : c ≠ '-' := fun h => hr (by rw [h]; rfl)
      have hname : isNameStart '-' = false := by decide
      unfold piece
      simp [isGap, hname, Char.isDigit, symbolPiece, hc]
  rw [tokensOf_cons, hpiece]
  rfl

theorem tokensOf_symbol (s : Symbol) {rest : List Char} (hr : Bounded rest) :
    tokensOf (s.text.toList ++ rest) = some (.symbol s) :: tokensOf rest := by
  have hpiece : ∀ c cs, s.text.toList = c :: cs →
      piece c (cs ++ rest) = (.token (.symbol s), cs.length) := by
    intro c cs h
    cases rest with
    | nil => cases s <;> cases h <;> rfl
    | cons d rest =>
      rcases isBoundary_cases (hr d rfl) with hd | rfl | rfl | rfl | rfl
      · rcases isGap_cases hd with rfl | rfl | rfl | rfl | rfl <;> cases s <;> cases h <;> rfl
      all_goals cases s <;> cases h <;> rfl
  obtain ⟨c, cs, h⟩ : ∃ c cs, s.text.toList = c :: cs := by
    cases s <;> exact ⟨_, _, rfl⟩
  rw [h, List.cons_append, tokensOf_cons, hpiece c cs h, List.drop_left]
  rfl

end Pieces

/-- What the text of a token has to look like. -/
def Token.Valid : Token → Prop
  | keyword _ | symbol _ | string _ => True
  | integer digits => IsDigits digits.toList
  | decimal digits => IsDecimal digits.toList
  | parameter word | quotedName word => isIdentifier word = true
  | name word => isIdentifier word = true ∧ Keyword.ofText? word = none

theorem endsOpen_of_forall {cs : List Char} (hne : cs ≠ [])
    (h : ∀ c ∈ cs, isBoundary c = false) : EndsOpen cs :=
  ⟨cs.getLast hne, List.getLast?_eq_some_getLast hne, h _ (List.getLast_mem hne)⟩

theorem IsWord.endsOpen {cs : List Char} (h : IsWord cs) : EndsOpen cs := by
  obtain ⟨d, ds, rfl, hd, hds⟩ := h
  refine endsOpen_of_forall (List.cons_ne_nil d ds) fun c hc => ?_
  have hname : isNameChar c = true := by
    rcases List.mem_cons.mp hc with rfl | hc
    · exact isNameChar_of_start hd
    · exact hds c hc
  by_contra hb
  rw [Bool.not_eq_false] at hb
  exact absurd hname (by simp [not_nameChar_of_boundary hb])

theorem not_boundary_of_digit {c : Char} (h : c.isDigit = true) : isBoundary c = false := by
  by_contra hb
  rw [Bool.not_eq_false] at hb
  exact absurd h (by simp [not_digit_of_boundary hb])

theorem IsDigits.endsOpen {cs : List Char} (h : IsDigits cs) : EndsOpen cs :=
  endsOpen_of_forall h.1 fun c hc => not_boundary_of_digit (h.2 c hc)

theorem IsDecimal.endsOpen {cs : List Char} (h : IsDecimal cs) : EndsOpen cs := by
  obtain ⟨whole, part, rfl, hw, hp⟩ := h
  refine endsOpen_of_forall (by simp) fun c hc => ?_
  rcases List.mem_append.mp hc with hc | hc
  · exact not_boundary_of_digit (hw.2 c hc)
  · rcases List.mem_cons.mp hc with rfl | hc
    · decide
    · exact not_boundary_of_digit (hp.2 c hc)

theorem Keyword.isWord_text (k : Keyword) :
    IsWord k.text.toList ∧ Keyword.ofText? k.text = some k := by
  have h : ∀ k ∈ Keyword.every, isIdentifier k.text = true ∧ Keyword.ofText? k.text = some k := by
    decide +kernel
  exact ⟨isIdentifier_iff.mp (h k k.mem_every).1, (h k k.mem_every).2⟩

theorem Bounded.not_nameChar {rest : List Char} (h : Bounded rest) :
    ∀ c, rest.head? = some c → isNameChar c = false :=
  fun c hc => not_nameChar_of_boundary (h c hc)

/-- The text of a token is read as that token. -/
theorem lexes_token {t : Token} (h : t.Valid) : Lexes t.text [t] := by
  intro rest hr
  cases t with
  | keyword k =>
    have hk := k.isWord_text
    refine (tokensOf_word hk.1 (hr hk.1.endsOpen).not_nameChar).trans ?_
    simp [wordToken, hk.2]
  | symbol s =>
    by_cases ho : EndsOpen s.text.toList
    · exact tokensOf_symbol s (hr ho)
    · cases s <;> first
        | exact tokensOf_mark rfl rest
        | exact absurd (by decide) ho
  | string value =>
    refine tokensOf_string value fun hq => ?_
    have hb := hr ⟨'\'', by simp [Token.text, quoteText, List.getLast?_cons], by decide⟩ _ hq
    revert hb
    decide
  | integer digits =>
    have hrest := hr (IsDigits.endsOpen h)
    simpa [Token.text] using tokensOf_integer h hrest
  | decimal digits =>
    have hrest := hr (IsDecimal.endsOpen h)
    simpa [Token.text] using tokensOf_decimal h hrest
  | parameter word =>
    have hw := isIdentifier_iff.mp h
    have ho : EndsOpen (Token.parameter word).text.toList := by
      obtain ⟨c, hc, hb⟩ := hw.endsOpen
      exact ⟨c, by simp [Token.text, List.getLast?_cons, hc], hb⟩
    simpa [Token.text] using tokensOf_parameter hw (hr ho).not_nameChar
  | quotedName word => simpa [Token.text] using tokensOf_quotedName (isIdentifier_iff.mp h) rest
  | name word =>
    have hw := isIdentifier_iff.mp h.1
    refine (tokensOf_word hw (hr hw.endsOpen).not_nameChar).trans ?_
    simp [wordToken, h.2]

/-- The tokens of a text of words, gaps and marks, where `word` is what has been read of a word so
far. -/
def plainTokens? : List Char → List Char → Option (List Token)
  | [], [] => some []
  | word, [] => some [wordToken word]
  | word, c :: cs =>
    if isNameChar c && (!word.isEmpty || isNameStart c) then plainTokens? (word ++ [c]) cs
    else
      let read := if word.isEmpty then [] else [wordToken word]
      if isGap c then (plainTokens? [] cs).map (read ++ ·)
      else (mark? c).bind fun s => (plainTokens? [] cs).map (read ++ .symbol s :: ·)

theorem EndsOpen.append_left {cs : List Char} (h : EndsOpen cs) (bs : List Char) :
    EndsOpen (bs ++ cs) := by
  obtain ⟨c, hc, ho⟩ := h
  exact ⟨c, by rw [List.getLast?_append, hc]; rfl, ho⟩

theorem tokensOf_plain {word cs rest : List Char} {ts : List Token}
    (hw : word = [] ∨ IsWord word) (h : plainTokens? word cs = some ts)
    (hr : EndsOpen (word ++ cs) → Bounded rest) :
    tokensOf (word ++ cs ++ rest) = ts.map some ++ tokensOf rest := by
  induction cs generalizing word ts with
  | nil =>
    rcases hw with rfl | hw
    · cases h
      rfl
    · obtain ⟨d, ds, rfl, _, _⟩ := id hw
      cases h
      rw [List.append_nil] at hr ⊢
      exact tokensOf_word hw (hr hw.endsOpen).not_nameChar
  | cons c cs ih =>
    rw [plainTokens?.eq_def] at h
    simp only at h
    split at h
    · rename_i hc
      rw [Bool.and_eq_true, Bool.or_eq_true] at hc
      have hword : IsWord (word ++ [c]) := by
        rcases hw with rfl | ⟨d, ds, rfl, hd, hds⟩
        · exact ⟨c, [], rfl, by simpa using hc.2, fun _ h => nomatch h⟩
        · refine ⟨d, ds ++ [c], rfl, hd, fun e he => ?_⟩
          rcases List.mem_append.mp he with he | he
          · exact hds e he
          · rw [List.mem_singleton.mp he]
            exact hc.1
      have happend : word ++ c :: cs = word ++ [c] ++ cs := by simp
      rw [happend] at hr ⊢
      exact ih (Or.inr hword) h hr
    · rename_i hc
      have hstep : ∀ read more, (read = if word.isEmpty then [] else [wordToken word]) →
          tokensOf (c :: (cs ++ rest)) = more →
          tokensOf (word ++ c :: cs ++ rest) = read.map some ++ more := by
        rintro read more rfl rfl
        rcases hw with rfl | hw
        · rfl
        · obtain ⟨d, ds, rfl, _, _⟩ := id hw
          have hname : isNameChar c = false := by simpa using hc
          rw [List.append_assoc]
          exact tokensOf_word hw fun e he => by cases he; exact hname
      have hopen : EndsOpen ([] ++ cs) → Bounded rest := fun ho => hr (by
        have hlast := EndsOpen.append_left ho (word ++ [c])
        simpa using hlast)
      split at h
      · rename_i hgap
        obtain ⟨us, hus, rfl⟩ := Option.map_eq_some_iff.mp h
        have hrest := ih (Or.inl rfl) hus hopen
        refine (hstep _ _ rfl ((tokensOf_gap hgap _).trans hrest)).trans ?_
        rw [List.map_append, List.append_assoc]
      · obtain ⟨s, hs, h⟩ := Option.bind_eq_some_iff.mp h
        obtain ⟨us, hus, rfl⟩ := Option.map_eq_some_iff.mp h
        have hrest := ih (Or.inl rfl) hus hopen
        refine (hstep _ _ rfl ((tokensOf_mark hs _).trans (congrArg _ hrest))).trans ?_
        simp

/-- Texts of words, gaps and marks can be read off by computation. -/
theorem Lexes.plain {text : String} {ts : List Token}
    (h : plainTokens? [] text.toList = some ts) : Lexes text ts :=
  fun _ hr => tokensOf_plain (Or.inl rfl) h hr

example : Lexes " PRIMARY KEY (" [.keyword .primary, .keyword .key, .symbol .lparen] :=
  .plain (by decide)

theorem intercalate_cons (sep x : String) (xs : List String) :
    sep.intercalate (x :: xs) = x ++ String.join (xs.map (sep ++ ·)) := by
  induction xs generalizing x with
  | nil => simp
  | cons y ys ih =>
    rw [String.intercalate_cons_cons, ih, List.map_cons, String.join_cons, String.append_assoc,
      String.append_assoc]

/-- Tokens of several items with those of a separator between any two. -/
def separated (sep : List Token) : List (List Token) → List Token
  | [] => []
  | item :: items => item ++ items.flatMap (sep ++ ·)

/-- A text that starts at a boundary, if it is not empty, may follow on any other. -/
structure Trails (text : String) (ts : List Token) : Prop where
  lexes : Lexes text ts
  bounded : Bounded text.toList

/-- What keeps the texts on its two sides apart. -/
def Separates (cs : List Char) : Prop :=
  cs ≠ [] ∧ Bounded cs ∧ ¬ EndsOpen cs

instance (cs : List Char) : Decidable (Separates cs) :=
  inferInstanceAs (Decidable (_ ∧ _ ∧ _))

section Joining

variable {a b : String} {ts us : List Token}

namespace Lexes

theorem empty : Lexes "" [] :=
  .plain rfl

theorem trail (ha : Lexes a ts) (hb : Trails b us) : Lexes (a ++ b) (ts ++ us) :=
  ha.append hb.lexes fun _ => hb.bounded

/-- After a plain text that ends at a boundary anything may follow. -/
theorem chunk (hb : Lexes b us) (h : plainTokens? [] a.toList = some ts)
    (he : ¬ EndsOpen a.toList) : Lexes (a ++ b) (ts ++ us) :=
  (plain h).append hb fun ho => absurd ho he

/-- A gap makes no token. -/
theorem blank (hb : Lexes b us) (h : plainTokens? [] a.toList = some [])
    (he : ¬ EndsOpen a.toList) : Lexes (a ++ b) us :=
  hb.chunk h he

/-- A minus sign before a text that does not start with one. -/
theorem minus (hb : Lexes b us) (h : b.toList.head? ≠ some '-') :
    Lexes ("-" ++ b) (.symbol .minus :: us) := by
  intro rest hr
  have hhead : (b.toList ++ rest).head? ≠ some '-' := by
    cases hl : b.toList with
    | nil =>
      intro hrest
      have hb := hr ⟨'-', by simp [hl], by decide⟩ '-' hrest
      revert hb
      decide
    | cons c cs => simpa [hl] using h
  have hopen : EndsOpen b.toList → Bounded rest := fun ho =>
    hr (by simpa using EndsOpen.append_left ho ['-'])
  have htext : ("-" ++ b).toList ++ rest = '-' :: (b.toList ++ rest) := by simp
  rw [htext, tokensOf_minus hhead, hb rest hopen]
  rfl

end Lexes

namespace Trails

theorem empty : Trails "" [] :=
  ⟨.empty, fun _ hc => nomatch hc⟩

theorem plain (h : plainTokens? [] a.toList = some ts) (hb : Bounded a.toList) : Trails a ts :=
  ⟨.plain h, hb⟩

theorem append (ha : Trails a ts) (hb : Trails b us) : Trails (a ++ b) (ts ++ us) := by
  refine ⟨ha.lexes.trail hb, ?_⟩
  rw [String.toList_append]
  exact ha.bounded.append hb.bounded

theorem chunk (hb : Lexes b us) (h : plainTokens? [] a.toList = some ts)
    (hs : Separates a.toList) : Trails (a ++ b) (ts ++ us) := by
  obtain ⟨hne, hbounded, hopen⟩ := hs
  refine ⟨hb.chunk h hopen, ?_⟩
  rw [String.toList_append]
  cases hl : a.toList with
  | nil => exact absurd hl hne
  | cons c cs =>
    rw [hl] at hbounded
    exact fun d hd => hbounded d hd

theorem blank (hb : Lexes b us) (h : plainTokens? [] a.toList = some [])
    (hs : Separates a.toList) : Trails (a ++ b) us :=
  chunk hb h hs

theorem join {α : Type} {l : List α} {f : α → String} {g : α → List Token}
    (h : ∀ x ∈ l, Trails (f x) (g x)) : Trails (String.join (l.map f)) (l.flatMap g) := by
  induction l with
  | nil => exact empty
  | cons x l ih =>
    rw [List.forall_mem_cons] at h
    rw [List.map_cons, String.join_cons, List.flatMap_cons]
    exact h.1.append (ih h.2)

end Trails

theorem Lexes.intercalate {α : Type} {sep : String} {seps : List Token}
    (hsep : plainTokens? [] sep.toList = some seps) (hs : Separates sep.toList) {l : List α}
    {f : α → String} {g : α → List Token} (h : ∀ x ∈ l, Lexes (f x) (g x)) :
    Lexes (sep.intercalate (l.map f)) (separated seps (l.map g)) := by
  cases l with
  | nil => exact empty
  | cons x l =>
    rw [List.forall_mem_cons] at h
    rw [List.map_cons, intercalate_cons, List.map_cons, separated, List.map_map,
      List.flatMap_map]
    exact h.1.trail (.join fun y hy => .chunk (h.2 y hy) hsep hs)

end Joining

/-- The token that a name is written as. -/
def nameToken (name : String) : Token :=
  if isReserved name then .quotedName name else .name name

/-- Only keywords are among the words that make no name. -/
theorem isReserved_of_keyword {word : String} (h : isIdentifier word = true) {k : Keyword}
    (hk : Keyword.ofText? word = some k) : isReserved word = true := by
  obtain ⟨d, ds, hl, hd, hds⟩ := isIdentifier_iff.mp h
  have hpiece : piece d (ds ++ []) = (.token (wordToken (d :: ds)), ds.length) :=
    piece_word hd hds nofun
  have hword : wordToken (d :: ds) = .keyword k := by
    rw [wordToken, ← hl, String.ofList_toList, hk]
  rw [List.append_nil, hword] at hpiece
  simp [isReserved, hl, hpiece, Token.isName]

theorem nameToken_valid {name : String} (h : isIdentifier name = true) :
    (nameToken name).Valid := by
  unfold nameToken
  split
  · exact h
  · rename_i hr
    refine ⟨h, Option.eq_none_iff_forall_ne_some.mpr fun k hk => hr ?_⟩
    exact isReserved_of_keyword h hk

theorem nameToken_text (name : String) : (nameToken name).text = nameText name := by
  unfold nameToken nameText
  split <;> rfl

theorem lexes_name {name : String} (h : isIdentifier name = true) :
    Lexes (nameText name) [nameToken name] :=
  nameToken_text name ▸ lexes_token (nameToken_valid h)

theorem isDigits_toString (n : Nat) : IsDigits (toString n).toList := by
  change IsDigits n.repr.toList
  rw [Nat.toList_repr]
  exact ⟨Nat.toDigits_ne_nil,
    fun c hc => Nat.isDigit_of_mem_toDigits (by decide) (Nat.le_refl 10) hc⟩

theorem lexes_nat (n : Nat) : Lexes (toString n) [.integer (toString n)] :=
  lexes_token (t := .integer (toString n)) (isDigits_toString n)

end Schemata
