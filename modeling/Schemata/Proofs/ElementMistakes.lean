import Mathlib.Data.List.Flatten
import Mathlib.Data.List.Forall2
import Schemata.Proofs.ElementRecognition
import Schemata.Proofs.SkippedTokens
import Schemata.Proofs.StatementRun

/-!
The mistakes that are reported for a table with malformed elements. Tokens that are no element and
do not begin with a whole one cost one mistake, and the next element is read. Behind a whole element
that other tokens follow the table is given up, and what comes after it is not looked at.
-/

namespace Schemata

open Grammar Reader

/-! ### Runs of tokens -/

/-- The tokens at the place of an element, and the comma or parenthesis behind them. -/
structure TokenRun where
  lexemes : List Lexeme
  stop : Lexeme

namespace TokenRun

def tokens (run : TokenRun) : List Token :=
  run.lexemes.map Lexeme.token

def whole (run : TokenRun) : List Lexeme :=
  run.lexemes ++ [run.stop]

/-- Parentheses are properly nested and hold all commas, and there is nothing of another statement
and no hint. -/
structure Regular (run : TokenRun) : Prop where
  nested : openAfter? 0 run.tokens = some 0
  create : .keyword .create ∉ run.tokens
  semicolon : .symbol .semicolon ∉ run.tokens
  dbms : .keyword .dbms ∉ run.tokens

instance (run : TokenRun) : Decidable run.Regular :=
  decidable_of_iff
    (openAfter? 0 run.tokens = some 0 ∧ .keyword .create ∉ run.tokens ∧
      .symbol .semicolon ∉ run.tokens ∧ .keyword .dbms ∉ run.tokens)
    ⟨fun h => ⟨h.1, h.2.1, h.2.2.1, h.2.2.2⟩,
      fun h => ⟨h.nested, h.create, h.semicolon, h.dbms⟩⟩

/-- The mistake is at one of the tokens or at the stop. -/
def Refuses (run : TokenRun) (e : Refusal) : Prop :=
  ∃ l ∈ run.whole, e.place = some l.span

/-- What the reader of elements makes of a run in front of `after`. -/
inductive Meets (run : TokenRun) (after : List Lexeme) : Outcome TableDraft → Prop
  | element (h : IsElement run.tokens) (d : TableDraft) :
    Meets run after ⟨[], .ok (d, run.stop :: after)⟩
  | overlong (h : IsOverlong run.tokens) (d : TableDraft) {l : Lexeme} {rest : List Lexeme}
    (hl : l ∈ run.lexemes) (hinner : l.token.openAfter? 0 ≠ none) :
    Meets run after ⟨[], .ok (d, l :: rest)⟩
  | refused (h : ¬ IsElement run.tokens) (hover : ¬ IsOverlong run.tokens) {e : Refusal}
    (he : run.Refuses e) : Meets run after ⟨[], .error e⟩

end TokenRun

/-- What stays within the parentheses of a run does not reach beyond its stop. -/
theorem split_before_stop {ls after p rest : List Lexeme} {stop : Lexeme}
    (hstop : stop.token.openAfter? 0 = none)
    (hnested : openAfter? 0 (ls.map Lexeme.token) = some 0)
    (hp : (openAfter? 0 (p.map Lexeme.token)).isSome = true)
    (hsplit : ls ++ stop :: after = p ++ rest) :
    ∃ r, ls = p ++ r ∧ rest = r ++ stop :: after := by
  rcases List.append_eq_append_iff.mp hsplit with ⟨q, rfl, hq⟩ | ⟨r, hls, hrest⟩
  · cases q with
    | nil => exact ⟨[], by simp, hq.symm⟩
    | cons l q =>
      obtain ⟨rfl, -⟩ := List.cons.inj hq
      rw [List.map_append, openAfter_append, hnested, Option.bind_some, List.map_cons, openAfter?,
        hstop] at hp
      cases hp
  · exact ⟨r, hls, hrest⟩

/-- A token at which no parenthesis closes and that is no comma, if no parenthesis is open. -/
theorem open_of_nested {p r : List Lexeme} {l : Lexeme}
    (hnested : openAfter? 0 ((p ++ l :: r).map Lexeme.token) = some 0)
    (hp : openAfter? 0 (p.map Lexeme.token) = some 0) : l.token.openAfter? 0 ≠ none := by
  intro hl
  rw [List.map_append, openAfter_append, hp, Option.bind_some, List.map_cons, openAfter?, hl]
    at hnested
  cases hnested

theorem not_mem_continuations {t : Token} (h : t.openAfter? 0 = none) : t ∉ continuations := by
  intro hmem
  simp only [continuations, optionStarts, List.mem_cons, List.not_mem_nil, or_false] at hmem
  rcases hmem with rfl | rfl | rfl | rfl | rfl | rfl | rfl | rfl | rfl <;> cases h

/-- An element that stands first and that the next token does not continue is read. -/
theorem Grammar.ElementBefore.read {first rest : List Lexeme} {l : Lexeme} {more : List Token}
    (h : ElementBefore more (first.map Lexeme.token)) (hmore : l.token ∉ more)
    (hdbms : l.token ≠ .keyword .dbms) (d : TableDraft) :
    ∃ d', tableElement d (first ++ l :: rest) = ⟨[], .ok (d', l :: rest)⟩ := by
  have hf : ∀ u ∈ [l.token], u ∉ more ∧ u ≠ .keyword .dbms :=
    List.forall_mem_singleton.mpr ⟨hmore, hdbms⟩
  have hnext : Next [l.token] (l :: rest) := by
    rintro _ ⟨⟩
    exact List.mem_singleton.mpr rfl
  obtain ⟨d', hread, -⟩ := h.recovers hf d first (l :: rest) rfl hnext
  exact ⟨d', hread⟩

namespace TokenRun.Regular

variable {run : TokenRun} {after : List Lexeme}

theorem free (h : run.Regular) : ∀ l ∈ run.lexemes, l.token ≠ .keyword .dbms := by
  intro l hl heq
  apply h.dbms
  rw [← heq]
  exact List.mem_map_of_mem hl

theorem meets (h : run.Regular) (hstop : run.stop.token.openAfter? 0 = none)
    (hafter : ∀ l ∈ after, l.token ≠ .keyword .dbms) (d : TableDraft) :
    run.Meets after (tableElement d (run.lexemes ++ run.stop :: after)) := by
  have hstop_ne : run.stop.token ≠ .keyword .dbms := by
    intro heq
    rw [heq] at hstop
    cases hstop
  have hfree : ∀ l ∈ run.lexemes ++ run.stop :: after, l.token ≠ .keyword .dbms := by
    rw [List.forall_mem_append, List.forall_mem_cons]
    exact ⟨h.free, hstop_ne, hafter⟩
  obtain ⟨hrecorded, hparsed⟩ : _ ∧ Parsed [] 0 0 _ (run.lexemes ++ run.stop :: after) _ :=
    parses_tableElement d _ hfree
  generalize ho : tableElement d (run.lexemes ++ run.stop :: after) = o at hrecorded hparsed
  obtain ⟨recorded, x⟩ := o
  dsimp only at hrecorded hparsed
  subst hrecorded
  cases hparsed with
  | @read p rest d' hsplit hdepth hread =>
    -- What is read ends within the run. If `l :: r` is left of the run, `l` does not continue it.
    obtain ⟨more, helement, hnext⟩ := hread
    obtain ⟨r, hrun, rfl⟩ :=
      split_before_stop hstop h.nested (Option.isSome_of_mem hdepth) hsplit
    cases r with
    | nil =>
      rw [List.append_nil] at hrun
      have hwhole : IsElement run.tokens := by
        rw [tokens, hrun]
        exact ⟨more, helement⟩
      exact .element hwhole d'
    | cons l r =>
      have hl : l ∈ run.lexemes := by simp [hrun]
      have hnested : openAfter? 0 ((p ++ l :: r).map Lexeme.token) = some 0 := by
        rw [← hrun]
        exact h.nested
      have hover : IsOverlong run.tokens := by
        refine ⟨p.map Lexeme.token, l.token, r.map Lexeme.token, ?_, ⟨more, helement⟩, ?_⟩
        · rw [tokens, hrun, List.map_append, List.map_cons]
        · exact helement.not_isElement (hnext _ rfl)
      exact .overlong hover d' hl (open_of_nested hnested hdepth)
  | @refused q rest e hsplit hdepth hplace =>
    obtain ⟨r, hrun, rfl⟩ := split_before_stop hstop h.nested hdepth hsplit
    have hnot : ∀ x, tableElement d (run.lexemes ++ run.stop :: after) ≠ ⟨[], .ok x⟩ := by
      intro x heq
      rw [ho] at heq
      cases heq
    -- An element that is the run, or that stands first in it and cannot go on, would be read.
    apply Meets.refused
    · rintro ⟨more, helement⟩
      have hmore : run.stop.token ∉ more :=
        fun hmem => not_mem_continuations hstop (helement.more_subset hmem)
      obtain ⟨d', hread⟩ := helement.read hmore hstop_ne d
      exact hnot _ hread
    · rintro ⟨first, t, last, htokens, ⟨more, helement⟩, hnone⟩
      obtain ⟨ls, ls', hls, rfl, hlast⟩ := List.map_eq_append_iff.mp htokens
      obtain ⟨l, ls', rfl, rfl, -⟩ := List.map_eq_cons_iff.mp hlast
      have hl : l ∈ run.lexemes := by simp [hls]
      have hmore : l.token ∉ more := by
        intro hmem
        obtain ⟨later, hlater⟩ := helement.goesOn hmem
        exact hnone later hlater
      obtain ⟨d', hread⟩ := helement.read hmore (h.free l hl) d
      rw [hls, List.append_assoc] at hnot
      exact hnot _ hread
    · have hnil : r ++ run.stop :: after ≠ [] := by simp
      obtain ⟨place, hmem, he⟩ := hplace.resolve_right hnil
      obtain ⟨l, hl, rfl⟩ := List.mem_map.mp hmem
      refine ⟨l, ?_, he⟩
      rw [whole, hrun]
      cases r with
      | nil => simpa using hl
      | cons l' r =>
        simp only [List.cons_append, List.take_succ_cons, List.take_zero, List.mem_append,
          List.mem_singleton] at hl
        simp only [List.mem_append, List.mem_cons]
        tauto

end TokenRun.Regular

/-! ### Skipping -/

section Skipping

variable {commas : Bool} {depth depth' : Nat}

theorem Token.skipped_of_openAfter {t : Token} (hopen : t.openAfter? depth = some depth')
    (hcreate : t ≠ .keyword .create) (hsemicolon : t ≠ .symbol .semicolon) :
    t.skipped? commas depth = some depth' := by
  cases t with
  | symbol s =>
    cases s with
    | semicolon => exact absurd rfl hsemicolon
    | _ => cases depth <;> cases hopen <;> rfl
  | keyword k =>
    cases hopen
    cases k with
    | create => exact absurd rfl hcreate
    | _ => rfl
  | _ =>
    cases hopen
    rfl

/-- Skips go over tokens between which parentheses match, if none of them ends a statement. -/
theorem skipped_of_openAfter {ts : List Token} (hopen : openAfter? depth ts = some depth')
    (hcreate : .keyword .create ∉ ts) (hsemicolon : .symbol .semicolon ∉ ts) :
    skipped? commas depth ts = some depth' := by
  induction ts generalizing depth with
  | nil =>
    cases hopen
    rfl
  | cons t ts ih =>
    rw [List.mem_cons, not_or] at hcreate hsemicolon
    obtain ⟨d, ht, hts⟩ := Option.bind_eq_some_iff.mp hopen
    have hfirst : t.skipped? commas depth = some d :=
      Token.skipped_of_openAfter ht (Ne.symm hcreate.1) (Ne.symm hsemicolon.1)
    exact skipped_cons hfirst (ih hts hcreate.2 hsemicolon.2)

theorem Token.openAfter_succ {t : Token} (h : t.openAfter? depth = some depth') :
    t.openAfter? (depth + 1) = some (depth' + 1) := by
  cases t with
  | symbol s => cases s <;> cases depth <;> cases h <;> rfl
  | _ =>
    cases h
    rfl

/-- The same inside one more parenthesis. -/
theorem openAfter_succ {ts : List Token} (h : openAfter? depth ts = some depth') :
    openAfter? (depth + 1) ts = some (depth' + 1) := by
  induction ts generalizing depth with
  | nil =>
    cases h
    rfl
  | cons t ts ih =>
    obtain ⟨d, ht, hts⟩ := Option.bind_eq_some_iff.mp h
    rw [openAfter?, Token.openAfter_succ ht]
    exact ih hts

end Skipping

/-! ### All runs of a table -/

/-- Runs with a comma behind each but the last, behind which the parenthesis closes. -/
inductive IsBody : List TokenRun → Prop
  | last {run : TokenRun} (h : run.Regular) (hstop : run.stop.token = .symbol .rparen) :
    IsBody [run]
  | cons {run : TokenRun} {runs : List TokenRun} (h : run.Regular)
    (hstop : run.stop.token = .symbol .comma) (hruns : IsBody runs) : IsBody (run :: runs)

/-- The runs that are no elements. -/
def malformed (runs : List TokenRun) : List TokenRun :=
  runs.filter fun run => ¬ IsElement run.tokens

/-- The runs for which a mistake is reported: those that are no elements, up to the first one that
begins with a whole element. -/
def reported : List TokenRun → List TokenRun
  | [] => []
  | run :: runs =>
    if IsElement run.tokens then reported runs
    else if IsOverlong run.tokens then [run]
    else run :: reported runs

section Reported

variable {run : TokenRun} {runs : List TokenRun}

theorem Grammar.IsOverlong.not_isElement {ts : List Token} (h : IsOverlong ts) :
    ¬ IsElement ts := by
  obtain ⟨first, t, rest, rfl, -, hnone⟩ := h
  exact hnone rest

theorem reported_element (h : IsElement run.tokens) : reported (run :: runs) = reported runs := by
  rw [reported, if_pos h]

theorem reported_overlong (h : IsOverlong run.tokens) : reported (run :: runs) = [run] := by
  rw [reported, if_neg h.not_isElement, if_pos h]

theorem reported_refused (h : ¬ IsElement run.tokens) (hover : ¬ IsOverlong run.tokens) :
    reported (run :: runs) = run :: reported runs := by
  rw [reported, if_neg h, if_neg hover]

theorem malformed_cons_of_element (h : IsElement run.tokens) :
    malformed (run :: runs) = malformed runs := by
  rw [malformed, List.filter_cons_of_neg (by simpa using h), malformed]

theorem malformed_cons (h : ¬ IsElement run.tokens) :
    malformed (run :: runs) = run :: malformed runs := by
  rw [malformed, List.filter_cons_of_pos (by simpa using h), malformed]

theorem malformed_eq_nil_iff : malformed runs = [] ↔ ∀ run ∈ runs, IsElement run.tokens := by
  simp [malformed, List.filter_eq_nil_iff]

theorem reported_begins (runs : List TokenRun) : reported runs <+: malformed runs := by
  induction runs with
  | nil => exact List.prefix_rfl
  | cons run runs ih =>
    by_cases helement : IsElement run.tokens
    · rw [reported_element helement, malformed_cons_of_element helement]
      exact ih
    · rw [malformed_cons helement]
      by_cases hover : IsOverlong run.tokens
      · rw [reported_overlong hover]
        exact List.cons_prefix_cons.mpr ⟨rfl, List.nil_prefix⟩
      · rw [reported_refused helement hover]
        exact List.cons_prefix_cons.mpr ⟨rfl, ih⟩

/-- All runs that are no elements are among those reported exactly if only elements follow on one
that begins with a whole element. -/
theorem length_reported_iff : (reported runs).length = (malformed runs).length ↔
    runs.Pairwise fun a b => IsOverlong a.tokens → IsElement b.tokens := by
  induction runs with
  | nil => simp [reported, malformed]
  | cons run runs ih =>
    rw [List.pairwise_cons]
    by_cases hover : IsOverlong run.tokens
    · have hlater : (∀ b ∈ runs, IsOverlong run.tokens → IsElement b.tokens) ↔
          malformed runs = [] := by
        rw [malformed_eq_nil_iff]
        exact forall₂_congr fun b _ => ⟨fun h => h hover, fun h _ => h⟩
      rw [reported_overlong hover, malformed_cons hover.not_isElement, hlater, List.length_cons,
        List.length_cons, Nat.add_right_cancel_iff, List.length_nil, eq_comm,
        List.length_eq_zero_iff]
      constructor
      · intro hnil
        refine ⟨hnil, List.pairwise_of_forall_mem_list fun a _ b hb _ => ?_⟩
        exact malformed_eq_nil_iff.mp hnil b hb
      · intro h
        exact h.1
    · have hfirst : ∀ b ∈ runs, IsOverlong run.tokens → IsElement b.tokens :=
        fun _ _ h => absurd h hover
      rw [and_iff_right hfirst, ← ih]
      by_cases helement : IsElement run.tokens
      · rw [reported_element helement, malformed_cons_of_element helement]
      · rw [reported_refused helement hover, malformed_cons helement, List.length_cons,
          List.length_cons, Nat.add_right_cancel_iff]

theorem reported_ne_nil (h : ∃ run ∈ runs, ¬ IsElement run.tokens) : reported runs ≠ [] := by
  induction runs with
  | nil =>
    obtain ⟨run, hrun, -⟩ := h
    cases hrun
  | cons run runs ih =>
    by_cases helement : IsElement run.tokens
    · rw [reported_element helement]
      apply ih
      obtain ⟨bad, hbad, hnot⟩ := h
      rcases List.mem_cons.mp hbad with rfl | hbad
      · exact absurd helement hnot
      · exact ⟨bad, hbad, hnot⟩
    · by_cases hover : IsOverlong run.tokens
      · rw [reported_overlong hover]
        exact List.cons_ne_nil _ _
      · rw [reported_refused helement hover]
        exact List.cons_ne_nil _ _

end Reported

/-- How the elements of a table are left: at the parenthesis that closes, with a mistake for each
run reported, or at a token within the last run reported, with a mistake for each one before. -/
inductive Gathered (runs : List TokenRun) (after : List Lexeme) :
    List Refusal × TableDraft × List Lexeme → Prop
  | closed {recorded : List Refusal} (d : TableDraft) {stop : Lexeme}
    (h : List.Forall₂ TokenRun.Refuses (reported runs) recorded)
    (hstop : stop.token = .symbol .rparen) : Gathered runs after (recorded, d, stop :: after)
  | givenUp {recorded : List Refusal} (d : TableDraft) {found : List TokenRun} {run : TokenRun}
    {l : Lexeme} {rest : List Lexeme} (hreported : reported runs = found ++ [run])
    (h : List.Forall₂ TokenRun.Refuses found recorded) (hl : l ∈ run.lexemes)
    (hrparen : l.token ≠ .symbol .rparen) (hsemicolon : l.token ≠ .symbol .semicolon) :
    Gathered runs after (recorded, d, l :: rest)

section Gathering

variable {run : TokenRun} {runs : List TokenRun} {after : List Lexeme}

theorem reported_cons (h : ¬ IsOverlong run.tokens) :
    reported (run :: runs) = reported [run] ++ reported runs := by
  by_cases helement : IsElement run.tokens
  · rw [reported_element helement, reported_element helement]
    rfl
  · rw [reported_refused helement h, reported_refused helement h]
    rfl

theorem openAfter_stop {t : Token} (h : t = .symbol .comma ∨ t = .symbol .rparen) :
    t.openAfter? 0 = none := by
  rcases h with rfl | rfl <;> rfl

theorem TokenRun.Regular.skips (h : run.Regular)
    (hstop : run.stop.token = .symbol .comma ∨ run.stop.token = .symbol .rparen) :
    skipToSeparator .comma 0 (run.lexemes ++ run.stop :: after) = run.stop :: after := by
  have hskip : skipToSeparator .comma 0 (run.lexemes ++ run.stop :: after) =
      skipToSeparator .comma 0 (run.stop :: after) :=
    Skipper.skip_append (S := .toSeparator false)
      (skipped_of_openAfter h.nested h.create h.semicolon) _
  rw [hskip]
  rcases hstop with hstop | hstop <;> simp [skipToSeparator, hstop]

/-- One turn of the loop over the elements ends at the stop, unless a whole element is followed by
other tokens. -/
theorem TokenRun.Regular.item (h : run.Regular)
    (hstop : run.stop.token = .symbol .comma ∨ run.stop.token = .symbol .rparen)
    (hafter : ∀ l ∈ after, l.token ≠ .keyword .dbms) (d : TableDraft) :
    (¬ IsOverlong run.tokens ∧ ∃ recorded d',
      Recovering.itemOrSkip .comma tableElement d (run.lexemes ++ run.stop :: after) =
          (recorded, d', run.stop :: after) ∧
        List.Forall₂ TokenRun.Refuses (reported [run]) recorded) ∨
    (IsOverlong run.tokens ∧ ∃ d' l rest,
      Recovering.itemOrSkip .comma tableElement d (run.lexemes ++ run.stop :: after) =
          ([], d', l :: rest) ∧
        l ∈ run.lexemes ∧ l.token.openAfter? 0 ≠ none) := by
  have hmeets := h.meets (openAfter_stop hstop) hafter d
  rw [Recovering.itemOrSkip]
  generalize tableElement d (run.lexemes ++ run.stop :: after) = o at hmeets
  cases hmeets with
  | element helement d' =>
    left
    refine ⟨fun hover => hover.not_isElement helement, [], d', rfl, ?_⟩
    rw [reported_element helement]
    exact .nil
  | @overlong hover d' l rest hl hinner => exact .inr ⟨hover, d', l, rest, rfl, hl, hinner⟩
  | @refused hnot hover e he =>
    left
    refine ⟨hover, [e], d, ?_, ?_⟩
    · rw [h.skips hstop]
      rfl
    · rw [reported_refused hnot hover]
      exact .cons he .nil

theorem TokenRun.Regular.givenUp (h : run.Regular) (hover : IsOverlong run.tokens)
    (d : TableDraft) {l : Lexeme} {rest : List Lexeme} (hl : l ∈ run.lexemes)
    (hinner : l.token.openAfter? 0 ≠ none) :
    Gathered (run :: runs) after ([], d, l :: rest) := by
  apply Gathered.givenUp d (reported_overlong hover) .nil hl
  · intro heq
    exact hinner (openAfter_stop (.inr heq))
  · intro heq
    apply h.semicolon
    rw [← heq]
    exact List.mem_map_of_mem hl

theorem Gathered.cons {recorded more : List Refusal} {d : TableDraft} {left : List Lexeme}
    (hover : ¬ IsOverlong run.tokens)
    (hrecorded : List.Forall₂ TokenRun.Refuses (reported [run]) recorded)
    (h : Gathered runs after (more, d, left)) :
    Gathered (run :: runs) after (recorded ++ more, d, left) := by
  cases h with
  | closed _ hmore hstop =>
    apply Gathered.closed d _ hstop
    rw [reported_cons hover]
    exact List.rel_append hrecorded hmore
  | givenUp _ hreported hmore hl hrparen hsemicolon =>
    apply Gathered.givenUp d _ (List.rel_append hrecorded hmore) hl hrparen hsemicolon
    rw [reported_cons hover, hreported, List.append_assoc]

theorem IsBody.free (h : IsBody runs) :
    ∀ l ∈ runs.flatMap TokenRun.whole, l.token ≠ .keyword .dbms := by
  have hrun : ∀ {run : TokenRun}, run.Regular →
      run.stop.token = .symbol .comma ∨ run.stop.token = .symbol .rparen →
      ∀ l ∈ run.whole, l.token ≠ .keyword .dbms := by
    intro run h hstop l hl
    rcases List.mem_append.mp hl with hl | hl
    · exact h.free l hl
    · rw [List.mem_singleton.mp hl]
      rcases hstop with hstop | hstop <;> rw [hstop] <;> nofun
  induction h with
  | last h hstop =>
    rw [List.flatMap_singleton]
    exact hrun h (.inr hstop)
  | cons h hstop _ ih =>
    rw [List.flatMap_cons, List.forall_mem_append]
    exact ⟨hrun h (.inl hstop), ih⟩

theorem IsBody.skips (h : IsBody runs) :
    skipStatementRest 1 (runs.flatMap TokenRun.whole ++ after) = skipStatementRest 0 after := by
  have hrun : ∀ {run : TokenRun} {more : List Lexeme}, run.Regular →
      skipStatementRest 1 (run.lexemes ++ more) = skipStatementRest 1 more := by
    intro run more h
    exact Skipper.skip_append (S := .statement)
      (skipped_of_openAfter (openAfter_succ h.nested) h.create h.semicolon) more
  induction h with
  | @last run h hstop =>
    rw [List.flatMap_singleton, TokenRun.whole, List.append_assoc, hrun h]
    simp [skipStatementRest, hstop]
  | @cons run runs h hstop _ ih =>
    rw [List.flatMap_cons, TokenRun.whole, List.append_assoc, List.append_assoc, hrun h, ← ih]
    simp [skipStatementRest, hstop]

/-- The loop over the elements, by what one turn of it does. -/
theorem IsBody.gathers (h : IsBody runs) (hafter : ∀ l ∈ after, l.token ≠ .keyword .dbms)
    (d : TableDraft) : Gathered runs after
      (Recovering.gather .comma tableElement d (runs.flatMap TokenRun.whole ++ after)) := by
  induction h generalizing d with
  | @last run h hstop =>
    have htext : [run].flatMap TokenRun.whole ++ after = run.lexemes ++ run.stop :: after := by
      simp [TokenRun.whole]
    rw [htext, Recovering.gather.eq_def]
    rcases h.item (.inr hstop) hafter d with
      ⟨hover, recorded, d', hitem, hrecorded⟩ | ⟨hover, d', l, rest, hitem, hl, hinner⟩
    · have hcomma : run.stop.token ≠ .symbol .comma := by
        rw [hstop]
        nofun
      simp only [hitem, if_neg hcomma]
      exact .closed d' hrecorded hstop
    · have hcomma : l.token ≠ .symbol .comma := fun heq => hinner (openAfter_stop (.inl heq))
      simp only [hitem, if_neg hcomma]
      exact h.givenUp hover d' hl hinner
  | @cons run runs h hstop hruns ih =>
    have htext : (run :: runs).flatMap TokenRun.whole ++ after =
        run.lexemes ++ run.stop :: (runs.flatMap TokenRun.whole ++ after) := by
      simp [TokenRun.whole]
    have hlater : ∀ l ∈ runs.flatMap TokenRun.whole ++ after, l.token ≠ .keyword .dbms :=
      List.forall_mem_append.mpr ⟨hruns.free, hafter⟩
    rw [htext, Recovering.gather.eq_def]
    rcases h.item (.inl hstop) hlater d with
      ⟨hover, recorded, d', hitem, hrecorded⟩ | ⟨hover, d', l, rest, hitem, hl, hinner⟩
    · have hlength : (runs.flatMap TokenRun.whole ++ after).length <
          (run.lexemes ++ run.stop :: (runs.flatMap TokenRun.whole ++ after)).length := by
        simp only [List.length_append, List.length_cons]
        omega
      simp only [hitem, if_pos hstop, if_pos hlength]
      exact (ih d').cons hover hrecorded
    · have hcomma : l.token ≠ .symbol .comma := fun heq => hinner (openAfter_stop (.inl heq))
      simp only [hitem, if_neg hcomma]
      exact h.givenUp hover d' hl hinner

end Gathering

/-! ### The statement -/

/-- A statement that creates a table, as far as its commas and parentheses go. -/
structure TableStatement where
  create : Lexeme
  table : Lexeme
  name : Lexeme
  lparen : Lexeme
  runs : List TokenRun
  semicolon : Lexeme
  isCreate : create.token = .keyword .create
  isTable : table.token = .keyword .table
  isName : IsName name.token
  isLparen : lparen.token = .symbol .lparen
  isBody : IsBody runs
  isSemicolon : semicolon.token = .symbol .semicolon

namespace TableStatement

/-- What follows on the opening parenthesis. -/
def body (s : TableStatement) : List Lexeme :=
  s.runs.flatMap TokenRun.whole ++ [s.semicolon]

def lexemes (s : TableStatement) : List Lexeme :=
  s.create :: s.table :: s.name :: s.lparen :: s.body

end TableStatement

section Statements

variable {α β : Type} {r : Recovering α} {f : α → Recovering β} {ls rest : List Lexeme}
  {recorded : List Refusal}

theorem recovering_bind_read {a : α} (h : r ls = ⟨recorded, .ok (a, rest)⟩) :
    (r >>= f) ls = ⟨recorded ++ (f a rest).recorded, (f a rest).result⟩ := by
  simp only [Bind.bind, h]

theorem recovering_bind_refused {e : Refusal} (h : r ls = ⟨recorded, .error e⟩) :
    (r >>= f) ls = ⟨recorded, .error e⟩ := by
  simp only [Bind.bind, h]

theorem bind_expectSymbol {s : Symbol} {l : Lexeme} {f : Unit → Recovering β}
    (h : l.token = .symbol s) : (liftM (expectSymbol s) >>= f) (l :: rest) = f () rest := by
  obtain ⟨a, ha, -⟩ := takes_symbol l rest h
  exact Recovers.bind_eq (congrArg (Outcome.mk []) ha)

theorem expectRparen_refused {l : Lexeme} (h : l.token ≠ .symbol .rparen) (rest : List Lexeme) :
    ∃ e, (liftM (expectSymbol .rparen) : Recovering Unit) (l :: rest) = ⟨[], .error e⟩ ∧
      e.place = some l.span := by
  have hone : TakesOne 1 0 (expectSymbol .rparen) _ := one_symbol rfl
  rcases hone (l :: rest) with ⟨l', rest', _, hcons, -, -, hl'⟩ | ⟨e, he, hplace⟩
  · obtain ⟨rfl, -⟩ := List.cons.inj hcons
    exact absurd hl' h
  · rcases hplace with hnil | ⟨l', rest', hcons, hplace⟩
    · cases hnil
    · obtain ⟨rfl, -⟩ := List.cons.inj hcons
      exact ⟨e, congrArg (Outcome.mk []) he, hplace⟩

theorem bind_isAt {t : Token} {l : Lexeme} {f : Bool → Recovering β} (h : l.token ≠ t) :
    (liftM (isAt t) >>= f) (l :: rest) = f false (l :: rest) := by
  have hnot : ¬ nextToken (l :: rest) = some t := fun heq => h (Option.some.inj heq)
  apply Recovers.bind_eq
  apply congrArg (Outcome.mk [])
  apply (isAt_eq _).trans
  exact congrArg (fun b => Except.ok (b, l :: rest)) (decide_eq_false hnot)

/-- At a semicolon no clause of a table begins. -/
theorem clauses_at_semicolon {l : Lexeme} (h : l.token = .symbol .semicolon) (d : TableDraft) :
    (repeatClauses tableClause? d).noting (l :: rest) = ⟨[], .ok ((d, true), l :: rest)⟩ := by
  have hpeek : (liftM peek? : Recovering (Option Token)) (l :: rest) =
      ⟨[], .ok (some l.token, l :: rest)⟩ := rfl
  have hclause : tableClause? d (l :: rest) = ⟨[], .ok (none, l :: rest)⟩ := by
    rw [tableClause?, Recovers.bind_eq hpeek, h]
    rfl
  rw [Recovering.noting, repeatClauses, repeatClauses.go, hclause]
  rfl

end Statements

namespace TableStatement

variable (s : TableStatement)

/-- The loop's result in front of the semicolon decides what becomes of the table. -/
theorem table_cases (hbad : ∃ run ∈ s.runs, ¬ IsElement run.tokens) :
    (∃ recorded, Grammar.table (s.name :: s.lparen :: s.body) =
        ⟨recorded, .ok (none, [s.semicolon])⟩ ∧
      List.Forall₂ TokenRun.Refuses (reported s.runs) recorded) ∨
    ∃ recorded e, Grammar.table (s.name :: s.lparen :: s.body) = ⟨recorded, .error e⟩ ∧
      List.Forall₂ TokenRun.Refuses (reported s.runs) (recorded ++ [e]) := by
  obtain ⟨word, hname⟩ := Option.isSome_iff_exists.mp s.isName
  have hafter : ∀ l ∈ [s.semicolon], l.token ≠ .keyword .dbms := by
    rw [List.forall_mem_singleton, s.isSemicolon]
    decide
  obtain ⟨⟨name, place⟩, hread, -⟩ :=
    takes_anyName "table name" hname s.name (s.lparen :: s.body) rfl
  have hread : (liftM (expectName "table name") : Recovering (String × Span))
      (s.name :: s.lparen :: s.body) = _ := congrArg (Outcome.mk []) hread
  have hgathered := s.isBody.gathers hafter { name }
  rw [Grammar.table, Recovers.bind_eq hread]
  dsimp only
  rw [bind_expectSymbol s.isLparen, body]
  generalize hg : Recovering.gather .comma tableElement { name }
    (s.runs.flatMap TokenRun.whole ++ [s.semicolon]) = g at hgathered
  obtain ⟨recorded, d, left⟩ := g
  have helements : (Recovering.sepBy1 tableElement { name }).noting
      (s.runs.flatMap TokenRun.whole ++ [s.semicolon]) =
        ⟨recorded, .ok ((d, recorded.isEmpty), left)⟩ := by
    rw [Recovering.noting, Recovering.sepBy1, hg]
  rw [recovering_bind_read helements]
  dsimp only
  cases hgathered with
  | @closed _ _ stop hrecorded hstop =>
    left
    have hne : recorded.isEmpty = false := by
      rw [List.isEmpty_eq_false_iff]
      intro hnil
      rw [hnil, List.forall₂_nil_right_iff] at hrecorded
      exact reported_ne_nil hbad hrecorded
    have hsemicolon : stop.token ≠ .symbol .semicolon := by
      rw [hstop]
      decide
    rw [bind_isAt hsemicolon, hne]
    refine ⟨recorded, ?_, hrecorded⟩
    simp only [Bool.not_false, Bool.and_false, Bool.false_eq_true, if_false]
    rw [bind_expectSymbol hstop, Recovers.bind_eq (clauses_at_semicolon s.isSemicolon d)]
    exact congrArg (Outcome.mk · _) (List.append_nil recorded)
  | @givenUp _ _ found run l rest hreported hfound hl hrparen hsemicolon =>
    right
    obtain ⟨e, hrefused, hplace⟩ := expectRparen_refused hrparen rest
    rw [bind_isAt hsemicolon]
    refine ⟨recorded, e, ?_, ?_⟩
    · simp only [Bool.and_false, Bool.false_eq_true, if_false]
      rw [recovering_bind_refused hrefused]
      exact congrArg (Outcome.mk · _) (List.append_nil recorded)
    · rw [hreported]
      exact List.rel_append hfound (.cons ⟨l, List.mem_append_left _ hl, hplace⟩ .nil)

theorem artifact_lexemes : artifact s.lexemes = (Grammar.table >>= fun read => do
    expectSymbol .semicolon
    return read.map fun found => (Artifact.table found.1, found.2) :
      Recovering (Option (Artifact × Span))) (s.name :: s.lparen :: s.body) := by
  obtain ⟨_, hcreate, -⟩ :=
    takes_keyword s.create (s.table :: s.name :: s.lparen :: s.body) s.isCreate
  have hread : (liftM (expectKeyword .create) : Recovering Unit) s.lexemes = _ :=
    congrArg (Outcome.mk []) hcreate
  have hnext : (liftM (next "TABLE, VIEW, or STATEMENT") : Recovering Lexeme)
      (s.table :: s.name :: s.lparen :: s.body) =
        ⟨[], .ok (s.table, s.name :: s.lparen :: s.body)⟩ := rfl
  rw [artifact, Recovers.bind_eq hread, Recovers.bind_eq hnext, s.isTable]

/-- A table that is given up costs its own statement and no other. -/
theorem skipStatementRest_lexemes :
    skipStatementRest 0 (s.table :: s.name :: s.lparen :: s.body) = [] := by
  have hopen : skipped? true 0 ([s.table, s.name, s.lparen].map Lexeme.token) = some 1 := by
    obtain ⟨word, hword⟩ := Option.isSome_iff_exists.mp s.isName
    simp only [List.map_cons, List.map_nil, s.isTable, s.isLparen]
    exact skipped_cons rfl (skipped_cons (skipped_name hword) rfl)
  have hbody : skipStatementRest 0 (s.table :: s.name :: s.lparen :: s.body) =
      skipStatementRest 1 s.body :=
    Skipper.skip_append (S := .statement) hopen s.body
  rw [hbody, body, s.isBody.skips]
  simp [skipStatementRest, s.isSemicolon]

/-- The mistakes in the statement are those of the runs reported, one each. -/
theorem statements_lexemes (hbad : ∃ run ∈ s.runs, ¬ IsElement run.tokens) :
    ∃ refusals, statements .empty s.lexemes = (refusals, .empty) ∧
      List.Forall₂ TokenRun.Refuses (reported s.runs) refusals := by
  have hturns : ∃ refusals, turns s.lexemes = [⟨refusals, none⟩] ∧
      List.Forall₂ TokenRun.Refuses (reported s.runs) refusals := by
    have hartifact := s.artifact_lexemes
    rcases s.table_cases hbad with ⟨recorded, htable, h⟩ | ⟨recorded, e, htable, h⟩
    · rw [recovering_bind_read htable, bind_expectSymbol s.isSemicolon] at hartifact
      have hread : artifact s.lexemes = ⟨recorded, .ok (none, [])⟩ :=
        hartifact.trans (congrArg (Outcome.mk · _) (List.append_nil recorded))
      refine ⟨recorded, ?_, h⟩
      rw [lexemes] at hread ⊢
      rw [turns.eq_def]
      simp only [hread, List.length_nil, Nat.zero_le, if_true]
      rw [turns]
    · rw [recovering_bind_refused htable] at hartifact
      refine ⟨recorded ++ [e], ?_, h⟩
      rw [lexemes] at hartifact ⊢
      rw [turns.eq_def]
      simp only [hartifact, s.skipStatementRest_lexemes]
      rw [turns]
  obtain ⟨refusals, hturns, h⟩ := hturns
  refine ⟨refusals, ?_, h⟩
  rw [statements_eq_run, hturns]
  simp [run, enter]

end TableStatement

/-! ### The text -/

section Places

/-- Where a token or stray piece begins. -/
def Scanned.start : Scanned → Nat
  | .lexeme l => l.span.start
  | .stray _ span => span.start

theorem scanFrom_ordered (start : Nat) (cs : List Char) :
    (∀ x ∈ scanFrom start cs, start ≤ x.start) ∧
      (scanFrom start cs).Pairwise fun x y => x.start ≤ y.start := by
  fun_induction scanFrom start cs with
  | case1 => exact ⟨List.forall_mem_nil _, .nil⟩
  | case2 start c cs text stop hpiece ih =>
    exact ⟨fun x hx => Nat.le_trans (Nat.le_add_right _ _) (ih.1 x hx), ih.2⟩
  | case3 start c cs text stop t hpiece ih =>
    have hlater : ∀ x ∈ scanFrom stop (cs.drop (piece c cs).2), start ≤ x.start :=
      fun x hx => Nat.le_trans (Nat.le_add_right _ _) (ih.1 x hx)
    exact ⟨List.forall_mem_cons.mpr ⟨Nat.le_refl _, hlater⟩, List.pairwise_cons.mpr ⟨hlater, ih.2⟩⟩
  | case4 start c cs text stop hpiece ih =>
    have hlater : ∀ x ∈ scanFrom stop (cs.drop (piece c cs).2), start ≤ x.start :=
      fun x hx => Nat.le_trans (Nat.le_add_right _ _) (ih.1 x hx)
    exact ⟨List.forall_mem_cons.mpr ⟨Nat.le_refl _, hlater⟩, List.pairwise_cons.mpr ⟨hlater, ih.2⟩⟩

/-- The tokens of a text come in the order of their places. -/
theorem pairwise_of_scan {source : String} {ls : List Lexeme}
    (h : scan source = ls.map Scanned.lexeme) :
    ls.Pairwise fun a b => a.span.start ≤ b.span.start := by
  have hordered := (scanFrom_ordered 0 source.toList).2
  rw [← scan, h, List.pairwise_map] at hordered
  exact hordered

theorem lexemes_of_scan {source : String} {ls : List Lexeme}
    (h : scan source = ls.map Scanned.lexeme) : (scan source).filterMap Scanned.lexeme? = ls := by
  rw [h, List.filterMap_map]
  exact List.filterMap_some

theorem strayMistakes_of_scan {source : String} {ls : List Lexeme}
    (h : scan source = ls.map Scanned.lexeme) : strayMistakes (scan source) = [] := by
  rw [strayMistakes, h, List.filterMap_map]
  simp [Function.comp_def, Scanned.stray?]

/-- A text without stray pieces is read by its tokens, and its mistakes are put in order. -/
theorem parse_of_scan {source : String} {ls : List Lexeme} {found : List Mistake}
    (h : scan source = ls.map Scanned.lexeme) (hls : schemaOfLexemes ls = .error found) :
    Schema.parse source = .error (found.mergeSort fun a b => a.span.start ≤ b.span.start) := by
  rw [Schema.parse]
  simp only [lexemes_of_scan h, strayMistakes_of_scan h, hls, List.append_nil]

/-- The mistake is at one of the tokens or at the stop. -/
def TokenRun.Holds (run : TokenRun) (m : Mistake) : Prop :=
  ∃ l ∈ run.whole, m.span = l.span

theorem TokenRun.Refuses.holds {run : TokenRun} {e : Refusal} (h : run.Refuses e) (stop : Nat) :
    run.Holds (e.locate stop) := by
  obtain ⟨l, hl, he⟩ := h
  refine ⟨l, hl, ?_⟩
  rw [Refusal.locate, he]
  rfl

/-- Mistakes of runs that follow each other are at their tokens, in order. -/
theorem ordered_of_holds {runs : List TokenRun} {found : List Mistake}
    (h : List.Forall₂ TokenRun.Holds runs found)
    (hruns : (runs.flatMap TokenRun.whole).Pairwise fun a b => a.span.start ≤ b.span.start) :
    (∀ m ∈ found, ∃ l ∈ runs.flatMap TokenRun.whole, m.span = l.span) ∧
      found.Pairwise fun a b => a.span.start ≤ b.span.start := by
  induction h with
  | nil => exact ⟨List.forall_mem_nil _, .nil⟩
  | @cons run m runs found hm _ ih =>
    obtain ⟨l, hl, hspan⟩ := hm
    rw [List.flatMap_cons, List.pairwise_append] at hruns
    obtain ⟨-, hlater, hcross⟩ := hruns
    obtain ⟨hplaces, hordered⟩ := ih hlater
    constructor
    · intro m' hm'
      rw [List.flatMap_cons]
      rcases List.mem_cons.mp hm' with rfl | hm'
      · exact ⟨l, List.mem_append_left _ hl, hspan⟩
      · obtain ⟨l', hl', hspan'⟩ := hplaces m' hm'
        exact ⟨l', List.mem_append_right _ hl', hspan'⟩
    · rw [List.pairwise_cons]
      refine ⟨fun m' hm' => ?_, hordered⟩
      obtain ⟨l', hl', hspan'⟩ := hplaces m' hm'
      rw [hspan, hspan']
      exact hcross l hl l' hl'

end Places

namespace TableStatement

variable (s : TableStatement)

theorem schemaOfLexemes_lexemes (hbad : ∃ run ∈ s.runs, ¬ IsElement run.tokens) :
    ∃ found, schemaOfLexemes s.lexemes = .error found ∧
      List.Forall₂ TokenRun.Holds (reported s.runs) found := by
  obtain ⟨refusals, hstatements, h⟩ := s.statements_lexemes hbad
  refine ⟨refusals.map (Refusal.locate (endOf s.lexemes)), ?_, ?_⟩
  · rw [schemaOfLexemes_eq_run, hstatements]
    cases refusals with
    | nil => exact absurd (List.forall₂_nil_right_iff.mp h) (reported_ne_nil hbad)
    | cons e refusals => rfl
  · rw [List.forall₂_map_right_iff]
    exact h.imp fun run e he => he.holds _

theorem pairwise_reported {source : String} (hscan : scan source = s.lexemes.map Scanned.lexeme) :
    ((reported s.runs).flatMap TokenRun.whole).Pairwise fun a b => a.span.start ≤ b.span.start := by
  have hruns : (reported s.runs).Sublist s.runs :=
    (reported_begins s.runs).sublist.trans List.filter_sublist
  have hlexemes : (s.runs.flatMap TokenRun.whole).Sublist s.lexemes :=
    ((List.sublist_append_left _ [s.semicolon]).trans
      (List.sublist_append_right [s.create, s.table, s.name, s.lparen] s.body))
  exact (pairwise_of_scan hscan).sublist ((hruns.flatMap TokenRun.whole).trans hlexemes)

/-- A text that is one statement with malformed elements has one mistake for each of them, in it or
at the stop behind it, up to the first one that begins with a whole element. So each malformed
element has its mistake exactly if nothing but elements follows on one of that kind. -/
theorem malformed_elements_reported {source : String}
    (hscan : scan source = s.lexemes.map Scanned.lexeme)
    (hbad : ∃ run ∈ s.runs, ¬ IsElement run.tokens) :
    ∃ found, Schema.parse source = .error found ∧
      List.Forall₂ TokenRun.Holds (reported s.runs) found ∧
      reported s.runs <+: malformed s.runs ∧
      (found.length = (malformed s.runs).length ↔
        s.runs.Pairwise fun a b => IsOverlong a.tokens → IsElement b.tokens) := by
  obtain ⟨found, hfound, h⟩ := s.schemaOfLexemes_lexemes hbad
  have hordered := (ordered_of_holds h (s.pairwise_reported hscan)).2
  refine ⟨found, ?_, h, reported_begins s.runs, ?_⟩
  · rw [parse_of_scan hscan hfound, List.mergeSort_of_pairwise (by simpa using hordered)]
  · rw [← h.length_eq, length_reported_iff]

end TableStatement

namespace Sample

/-- A column of an unknown type, one with a word too many, one of no type, and one in order. -/
def penText : String :=
  "CREATE TABLE Pen (Id TEXT, Ink INTEGER full, Tip, Cap INTEGER);"

def penRuns : List TokenRun :=
  [⟨[⟨.name "Id", ⟨18, 20⟩⟩, ⟨.name "TEXT", ⟨21, 25⟩⟩], ⟨.symbol .comma, ⟨25, 26⟩⟩⟩,
   ⟨[⟨.name "Ink", ⟨27, 30⟩⟩, ⟨.keyword .integer, ⟨31, 38⟩⟩, ⟨.name "full", ⟨39, 43⟩⟩],
    ⟨.symbol .comma, ⟨43, 44⟩⟩⟩,
   ⟨[⟨.name "Tip", ⟨45, 48⟩⟩], ⟨.symbol .comma, ⟨48, 49⟩⟩⟩,
   ⟨[⟨.name "Cap", ⟨50, 53⟩⟩, ⟨.keyword .integer, ⟨54, 61⟩⟩], ⟨.symbol .rparen, ⟨61, 62⟩⟩⟩]

def pen : TableStatement where
  create := ⟨.keyword .create, ⟨0, 6⟩⟩
  table := ⟨.keyword .table, ⟨7, 12⟩⟩
  name := ⟨.name "Pen", ⟨13, 16⟩⟩
  lparen := ⟨.symbol .lparen, ⟨17, 18⟩⟩
  runs := penRuns
  semicolon := ⟨.symbol .semicolon, ⟨62, 63⟩⟩
  isCreate := rfl
  isTable := rfl
  isName := rfl
  isLparen := rfl
  isBody := .cons (by decide) rfl (.cons (by decide) rfl (.cons (by decide) rfl
    (.last (by decide) rfl)))
  isSemicolon := rfl

end Sample

/-- Three of the four columns are malformed, and the second of them hides the third. -/
theorem pen_partly_reported :
    scan Sample.penText = Sample.pen.lexemes.map Scanned.lexeme ∧
      (malformed Sample.pen.runs).length = 3 ∧
      ∃ found, Schema.parse Sample.penText = .error found ∧ found.length = 2 := by
  have hscan : scan Sample.penText = Sample.pen.lexemes.map Scanned.lexeme := by decide +kernel
  have hbad : ∃ run ∈ Sample.pen.runs, ¬ IsElement run.tokens := by decide +kernel
  have hreported : (reported Sample.pen.runs).length = 2 := by decide +kernel
  have hmalformed : (malformed Sample.pen.runs).length = 3 := by decide +kernel
  obtain ⟨found, hparse, h, -, -⟩ := Sample.pen.malformed_elements_reported hscan hbad
  exact ⟨hscan, hmalformed, found, hparse, h.length_eq.symm.trans hreported⟩

end Schemata
