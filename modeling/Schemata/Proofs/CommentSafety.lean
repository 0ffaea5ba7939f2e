import Schemata.Dialect.Trigger
import Schemata.Proofs.ExprRecognition
import Schemata.Proofs.PrintedExpr
import Schemata.Proofs.StringLiterals

/-! Rendered expressions open no comment. Outside of quotes a text is looked through for the marks
that start one; a rendered expression is a chain of texts that have none, and whatever follows on
such a text starts with a character that neither completes a mark nor goes on with a quoted text. -/
namespace Schemata

namespace Quoting

variable {q : Quoting} {cs rest value more : List Char}

theorem read_shorter (h : q.read cs = some (value, rest)) : rest.length < cs.length := by
  fun_induction read q cs generalizing value with
  | case1 => cases h
  | case2 => cases h; exact Nat.zero_lt_one
  | case3 => cases h
  | case4 cs ih =>
    obtain ⟨p, hp, heq⟩ := Option.map_eq_some_iff.mp h
    cases heq
    exact Nat.lt_add_right 2 (ih hp)
  | case5 => cases h; exact Nat.lt_succ_self _
  | case6 c d cs hc hb ih =>
    obtain ⟨p, hp, heq⟩ := Option.map_eq_some_iff.mp h
    cases heq
    exact Nat.lt_add_right 2 (ih hp)
  | case7 c d cs hc hb ih =>
    obtain ⟨p, hp, heq⟩ := Option.map_eq_some_iff.mp h
    cases heq
    exact Nat.lt_succ_of_lt (ih hp)

/-- A quoted text that ends is read alike whatever comes behind it. -/
theorem read_append (h : q.read cs = some (value, rest)) (hmore : more.head? ≠ some q.closing) :
    q.read (cs ++ more) = some (value, rest ++ more) := by
  fun_induction read q cs generalizing value with
  | case1 => cases h
  | case2 => cases h; exact read_closing hmore
  | case3 => cases h
  | case4 cs ih =>
    obtain ⟨p, hp, heq⟩ := Option.map_eq_some_iff.mp h
    cases heq
    exact (read_doubled q _).trans (congrArg _ (ih hp))
  | case5 d cs hd =>
    cases h
    exact read_closing fun hc => hd (Option.some.inj hc)
  | case6 c d cs hc hb ih =>
    obtain ⟨p, hp, heq⟩ := Option.map_eq_some_iff.mp h
    cases heq
    obtain ⟨rfl, hb⟩ := hb
    exact (read_escaped hb hc d _).trans (congrArg _ (ih hp))
  | case7 c d cs hc hb ih =>
    obtain ⟨p, hp, heq⟩ := Option.map_eq_some_iff.mp h
    cases heq
    exact (read_cons hc hb _).trans (congrArg _ (ih hp))

theorem read_eq_none (h : q.closing ∉ cs) : q.read cs = none := by
  fun_induction read q cs with
  | case1 => rfl
  | case2 => exact absurd List.mem_cons_self h
  | case3 => rfl
  | case4 => exact absurd List.mem_cons_self h
  | case5 => exact absurd List.mem_cons_self h
  | case6 c d cs hc hb ih =>
    rw [ih fun hm => h (List.mem_cons_of_mem c (List.mem_cons_of_mem d hm))]
    rfl
  | case7 c d cs hc hb ih =>
    rw [ih fun hm => h (List.mem_cons_of_mem c hm)]
    rfl

/-- A quoted text that does not end is not ended by characters without a closing quote. -/
theorem read_append_eq_none (h : q.read cs = none) (hmore : q.closing ∉ more) :
    q.read (cs ++ more) = none := by
  fun_induction read q cs with
  | case1 => exact read_eq_none hmore
  | case2 => cases h
  | case3 c hc =>
    refine read_eq_none fun hm => ?_
    rcases List.mem_cons.mp hm with heq | hm
    · exact hc heq.symm
    · exact hmore hm
  | case4 cs ih =>
    exact (read_doubled q _).trans (congrArg _ (ih (Option.map_eq_none_iff.mp h)))
  | case5 => cases h
  | case6 c d cs hc hb ih =>
    obtain ⟨rfl, hb⟩ := hb
    exact (read_escaped hb hc d _).trans (congrArg _ (ih (Option.map_eq_none_iff.mp h)))
  | case7 c d cs hc hb ih =>
    exact (read_cons hc hb _).trans (congrArg _ (ih (Option.map_eq_none_iff.mp h)))

/-- Characters that are neither closing quotes nor escapes stand for themselves. -/
theorem read_unescaped (hb : q.backslash = false) (h : q.closing ∉ cs)
    (hrest : rest.head? ≠ some q.closing) :
    q.read (cs ++ q.closing :: rest) = some (cs, rest) := by
  induction cs with
  | nil => exact read_closing hrest
  | cons c cs ih =>
    rw [List.mem_cons, not_or] at h
    obtain ⟨hc, hcs⟩ := h
    have hescape : ¬ (c = '\\' ∧ q.backslash = true) := by simp [hb]
    exact (read_cons (Ne.symm hc) hescape _).trans (congrArg _ (ih hcs))

end Quoting

/-- What a reader of statements finds who starts outside of quotes: nothing but complete quoted
texts and what stands between them, the start of a comment, or a quoted text that does not end. -/
inductive Finding where
  | clean
  | comment
  | unclosed
  deriving DecidableEq, Repr

/-- Comments start with `--` or `/*`. -/
def OpensComment (c : Char) (cs : List Char) : Prop :=
  c = '-' ∧ cs.head? = some '-' ∨ c = '/' ∧ cs.head? = some '*'

instance (c : Char) (cs : List Char) : Decidable (OpensComment c cs) :=
  inferInstanceAs (Decidable (_ ∨ _))

namespace Dialect

/-- The quotes that a character opens, those of a string literal or of a name. -/
def quoting? (d : Dialect) (c : Char) : Option Quoting :=
  if c = '\'' then some d.literalQuoting
  else if d.naming.opening.toList = [c] then
    d.naming.closing.toList.head?.map fun closing => { closing }
  else none

/-- Looks through a text, passing over what is quoted. -/
def inspect (d : Dialect) : List Char → Finding
  | [] => .clean
  | c :: cs =>
    match d.quoting? c with
    | some q =>
      match _hread : q.read cs with
      | some (_, rest) => inspect d rest
      | none => .unclosed
    | none => if OpensComment c cs then .comment else inspect d cs
termination_by cs => cs.length
decreasing_by
  · exact Nat.lt_succ_of_lt (Quoting.read_shorter _hread)
  · exact Nat.lt_succ_self _

/-- Outside of its quotes the text opens no comment, and all its quotes are closed. -/
def Clean (d : Dialect) (text : String) : Prop :=
  d.inspect text.toList = .clean

section Inspecting

variable {d : Dialect} {c : Char} {cs rest value : List Char} {q : Quoting}

theorem inspect_nil : d.inspect [] = .clean := by
  rw [inspect]

theorem inspect_quoted (hq : d.quoting? c = some q) (h : q.read cs = some (value, rest)) :
    d.inspect (c :: cs) = d.inspect rest := by
  rw [inspect, hq]
  dsimp only
  split
  · rename_i h'
    rw [h] at h'
    cases h'
    rfl
  · rename_i h'
    rw [h] at h'
    cases h'

theorem inspect_unclosed (hq : d.quoting? c = some q) (h : q.read cs = none) :
    d.inspect (c :: cs) = .unclosed := by
  rw [inspect, hq]
  dsimp only
  split
  · rename_i h'
    rw [h] at h'
    cases h'
  · rfl

theorem inspect_comment (hq : d.quoting? c = none) (h : OpensComment c cs) :
    d.inspect (c :: cs) = .comment := by
  rw [inspect, hq]
  exact if_pos h

theorem inspect_cons (hq : d.quoting? c = none) (h : ¬ OpensComment c cs) :
    d.inspect (c :: cs) = d.inspect cs := by
  rw [inspect, hq]
  exact if_neg h

end Inspecting

end Dialect

/-- The characters that quotes and the marks of comments are made of. -/
def markCharacters : List Char :=
  "-/*'\"[]`".toList

/-- No character of the text has to do with quotes or comments. -/
def Unmarked (cs : List Char) : Prop :=
  ∀ c ∈ cs, c ∉ markCharacters

instance (cs : List Char) : Decidable (Unmarked cs) :=
  List.decidableBAll (· ∉ markCharacters) cs

/-- These characters may stand behind any text. -/
def Apart (cs : List Char) : Prop :=
  ∀ c ∈ cs.head?, c ∉ markCharacters

theorem Unmarked.apart {cs : List Char} (h : Unmarked cs) : Apart cs :=
  fun c hc => h c (List.mem_of_mem_head? hc)

theorem Apart.append {as bs : List Char} (ha : Apart as) (hb : Apart bs) : Apart (as ++ bs) := by
  cases as with
  | nil => exact hb
  | cons a as => exact ha

theorem Apart.not_opensComment {cs : List Char} (h : Apart cs) (c : Char) :
    ¬ OpensComment c cs := by
  rintro (⟨-, hc⟩ | ⟨-, hc⟩)
  · exact h _ hc (by decide)
  · exact h _ hc (by decide)

namespace Dialect

section Marks

variable {d : Dialect} {c : Char} {cs more : List Char} {q : Quoting}

/-- Names have quotes of one character at either end. -/
theorem nameQuotes (d : Dialect) : ∃ opening ∈ markCharacters, ∃ closing ∈ markCharacters,
    d.naming.opening.toList = [opening] ∧ d.naming.closing.toList = [closing] ∧
      d.quoting? opening = some { closing } := by
  cases d <;> refine ⟨_, ?_, _, ?_, rfl, rfl, ?_⟩ <;> decide +kernel

theorem mark_of_quoting (h : d.quoting? c = some q) :
    c ∈ markCharacters ∧ q.closing ∈ markCharacters := by
  unfold quoting? at h
  split at h
  · rename_i hc
    cases h
    subst hc
    exact ⟨by decide, by change '\'' ∈ markCharacters; decide⟩
  · obtain ⟨o, ho, e, he, hopening, hclosing, -⟩ := d.nameQuotes
    rw [hopening, hclosing] at h
    split at h
    · rename_i hc
      cases hc
      cases h
      exact ⟨ho, he⟩
    · cases h

theorem quoting_eq_none (h : c ∉ markCharacters) : d.quoting? c = none := by
  cases hq : d.quoting? c with
  | none => rfl
  | some q => exact absurd (mark_of_quoting hq).1 h

theorem inspect_unmarked (h : Unmarked cs) (more : List Char) :
    d.inspect (cs ++ more) = d.inspect more := by
  induction cs with
  | nil => rfl
  | cons c cs ih =>
    obtain ⟨hc, hcs⟩ := List.forall_mem_cons.mp h
    refine (inspect_cons (quoting_eq_none hc) ?_).trans (ih hcs)
    rintro (⟨rfl, -⟩ | ⟨rfl, -⟩)
    · exact hc (by decide)
    · exact hc (by decide)

/-- A clean text is passed over, and what follows is looked through as if it stood alone. -/
theorem inspect_append (h : d.inspect cs = .clean) (hmore : Apart more) :
    d.inspect (cs ++ more) = d.inspect more := by
  fun_induction inspect d cs with
  | case1 => rfl
  | case2 c cs q hq value rest hread ih =>
    have hclosing : more.head? ≠ some q.closing := fun hc => hmore _ hc (mark_of_quoting hq).2
    exact (inspect_quoted hq (Quoting.read_append hread hclosing)).trans (ih h)
  | case3 => cases h
  | case4 => cases h
  | case5 c cs hq hc ih =>
    refine (inspect_cons hq fun ho => ?_).trans (ih h)
    -- only the last character could start a mark that `more` completes
    cases cs with
    | nil => exact hmore.not_opensComment c ho
    | cons => exact hc ho

/-- What is not clean is not made so by a word behind it. -/
theorem inspect_of_append (h : d.inspect (cs ++ more) = .clean) (hmore : Unmarked more) :
    d.inspect cs = .clean := by
  fun_induction inspect d cs with
  | case1 => rfl
  | case2 c cs q hq value rest hread ih =>
    have hclosing : more.head? ≠ some q.closing := fun hc =>
      hmore.apart _ hc (mark_of_quoting hq).2
    rw [List.cons_append, inspect_quoted hq (Quoting.read_append hread hclosing)] at h
    exact ih h
  | case3 c cs q hq hread =>
    have hclosing : q.closing ∉ more := fun hc => hmore _ hc (mark_of_quoting hq).2
    rw [List.cons_append, inspect_unclosed hq (Quoting.read_append_eq_none hread hclosing)] at h
    cases h
  | case4 c cs hq hc =>
    have hopens : OpensComment c (cs ++ more) := by
      cases cs with
      | nil => exact absurd hc (by simp [OpensComment])
      | cons => exact hc
    rw [List.cons_append, inspect_comment hq hopens] at h
    cases h
  | case5 c cs hq hc ih =>
    have hopens : ¬ OpensComment c (cs ++ more) := by
      cases cs with
      | nil => exact hmore.apart.not_opensComment c
      | cons => exact hc
    rw [List.cons_append, inspect_cons hq hopens] at h
    exact ih h

end Marks

section Texts

variable {d : Dialect} {a b sep : String}

/-- A clean text that may stand behind any other. -/
structure Follows (d : Dialect) (text : String) : Prop where
  clean : d.Clean text
  apart : Apart text.toList

theorem clean_of_unmarked (h : Unmarked a.toList) : d.Clean a := by
  have hrun := d.inspect_unmarked h []
  rw [List.append_nil] at hrun
  exact hrun.trans inspect_nil

theorem Clean.after (hb : d.Clean b) (ha : Unmarked a.toList) : d.Clean (a ++ b) := by
  unfold Clean
  rw [String.toList_append, inspect_unmarked ha]
  exact hb

theorem Clean.follow (ha : d.Clean a) (hb : d.Follows b) : d.Clean (a ++ b) := by
  unfold Clean
  rw [String.toList_append, inspect_append ha hb.apart]
  exact hb.clean

theorem Follows.append (ha : d.Follows a) (hb : d.Follows b) : d.Follows (a ++ b) where
  clean := ha.clean.follow hb
  apart := by
    rw [String.toList_append]
    exact ha.apart.append hb.apart

theorem follows_of_unmarked (h : Unmarked a.toList) : d.Follows a where
  clean := clean_of_unmarked h
  apart := h.apart

theorem Clean.led (hb : d.Clean b) (ha : Unmarked a.toList) (hne : a.toList ≠ []) :
    d.Follows (a ++ b) where
  clean := hb.after ha
  apart := by
    rw [String.toList_append]
    intro c hc
    rw [List.head?_append_of_ne_nil _ hne] at hc
    exact ha.apart c hc

theorem Clean.joined (ha : d.Clean a) (hb : d.Clean b) (hsep : Unmarked sep.toList)
    (hne : sep.toList ≠ []) : d.Clean (a ++ sep ++ b) := by
  rw [String.append_assoc]
  exact ha.follow (hb.led hsep hne)

theorem Clean.parenthesized (ha : d.Clean a) (wanted : Bool) :
    d.Clean (parenthesize wanted a) := by
  cases wanted with
  | false => exact ha
  | true => exact (ha.after (by decide)).follow (follows_of_unmarked (by decide))

theorem clean_commaSeparated {texts : List String} (h : ∀ text ∈ texts, d.Clean text) :
    d.Clean (commaSeparated texts) := by
  induction texts with
  | nil => exact clean_of_unmarked (by decide)
  | cons text texts ih =>
    obtain ⟨htext, htexts⟩ := List.forall_mem_cons.mp h
    cases texts with
    | nil =>
      rw [commaSeparated, String.intercalate_singleton]
      exact htext
    | cons next texts =>
      rw [commaSeparated, String.intercalate_cons_cons]
      exact htext.joined (ih htexts) (by decide) (by decide)

/-- No sign of an operator opens quotes. -/
theorem quoting_sign (d : Dialect) : ∀ c ∈ ['-', '*', '/'], d.quoting? c = none := by
  simp only [List.forall_mem_cons]
  cases d <;> refine ⟨?_, ?_, ?_, nofun⟩ <;> decide +kernel

theorem inspect_sign {c : Char} (hc : c ∈ ['-', '*', '/']) (cs : List Char) :
    d.inspect (c :: ' ' :: cs) = d.inspect cs := by
  have hblank : Apart (' ' :: cs) := fun e he => by
    cases he
    decide
  rw [inspect_cons (d.quoting_sign c hc) (hblank.not_opensComment c)]
  exact d.inspect_unmarked (by decide : Unmarked [' ']) cs

/-- A minus sign before a text that does not start with one. -/
theorem Clean.minus (hb : d.Clean b) (h : b.toList.head? ≠ some '-') : d.Clean ("-" ++ b) := by
  unfold Clean
  rw [String.toList_append]
  refine (inspect_cons (d.quoting_sign '-' (by decide)) ?_).trans hb
  rintro (⟨-, hc⟩ | ⟨hc, -⟩)
  · exact h hc
  · exact absurd hc (by decide)

theorem Clean.minusBlank (hb : d.Clean b) : d.Clean ("- " ++ b) := by
  unfold Clean
  rw [String.toList_append]
  exact (inspect_sign (by decide) b.toList).trans hb

theorem inspect_symbol (op : BinaryOp) (cs : List Char) :
    d.inspect (op.symbol.toList ++ ' ' :: cs) = d.inspect cs := by
  by_cases h : Unmarked (op.symbol ++ " ").toList
  · have hrun := d.inspect_unmarked h cs
    rw [String.toList_append, List.append_assoc] at hrun
    exact hrun
  · cases op with
    | minus => exact inspect_sign (by decide) cs
    | multiply => exact inspect_sign (by decide) cs
    | divide => exact inspect_sign (by decide) cs
    | _ => exact absurd (by decide) h

theorem Clean.operated (ha : d.Clean a) (hb : d.Clean b) (op : BinaryOp) :
    d.Clean (a ++ " " ++ op.symbol ++ " " ++ b) := by
  have hsymbol : d.Clean (op.symbol ++ " " ++ b) := by
    unfold Clean
    rw [String.toList_append, String.toList_append, List.append_assoc]
    exact (inspect_symbol op _).trans hb
  have hall := ha.joined hsymbol (by decide : Unmarked " ".toList) (by decide)
  simpa only [String.append_assoc] using hall

end Texts

end Dialect

section Words

theorem isNameChar_lt {c : Char} (h : isNameChar c = true) : c.toNat < 128 := by
  delta isNameChar Char.isAlphanum Char.isAlpha Char.isUpper Char.isLower Char.isDigit at h
  simp only [Bool.or_eq_true, Bool.and_eq_true, decide_eq_true_eq, beq_iff_eq] at h
  rcases h with ((⟨-, h⟩ | ⟨-, h⟩) | ⟨-, h⟩) | rfl
  · exact Nat.lt_of_le_of_lt (UInt32.le_iff_toNat_le.mp h) (by decide)
  · exact Nat.lt_of_le_of_lt (UInt32.le_iff_toNat_le.mp h) (by decide)
  · exact Nat.lt_of_le_of_lt (UInt32.le_iff_toNat_le.mp h) (by decide)
  · decide

theorem nameChar_unmarked {c : Char} (h : isNameChar c = true) :
    c ∉ markCharacters ∧ c.toUpper ∉ markCharacters ∧ c.toLower ∉ markCharacters := by
  -- names are written in few characters, which can be gone through
  have hall : ∀ n < 128, isNameChar (Char.ofNat n) = true → Char.ofNat n ∉ markCharacters ∧
      (Char.ofNat n).toUpper ∉ markCharacters ∧ (Char.ofNat n).toLower ∉ markCharacters := by
    decide +kernel
  have hc := hall c.toNat (isNameChar_lt h)
  rw [Char.ofNat_toNat] at hc
  exact hc h

theorem isNameChar_of_mem {name : String} (h : isIdentifier name = true) :
    ∀ c ∈ name.toList, isNameChar c = true := by
  obtain ⟨d, ds, hname, hd, hds⟩ := isIdentifier_iff.mp h
  rw [hname]
  exact List.forall_mem_cons.mpr ⟨isNameChar_of_start hd, hds⟩

theorem unmarked_identifier {name : String} (h : isIdentifier name = true) :
    Unmarked name.toList :=
  fun c hc => (nameChar_unmarked (isNameChar_of_mem h c hc)).1

theorem unmarked_fold {name : String} (h : isIdentifier name = true) (letters : LetterCase) :
    Unmarked (letters.fold name).toList := by
  have hchars := isNameChar_of_mem h
  cases letters with
  | preserve => exact unmarked_identifier h
  | upper =>
    rw [LetterCase.fold, upperAscii, String.toList_map]
    exact List.forall_mem_map.mpr fun c hc => (nameChar_unmarked (hchars c hc)).2.1
  | lower =>
    rw [LetterCase.fold, lowerAscii, String.toList_map]
    exact List.forall_mem_map.mpr fun c hc => (nameChar_unmarked (hchars c hc)).2.2

theorem unmarked_digits {cs : List Char} (h : IsDigits cs) : Unmarked cs := by
  intro c hc hm
  have hnone : markCharacters.all fun m => !m.isDigit := by decide
  have hdigit := List.all_eq_true.mp hnone c hm
  rw [h.2 c hc] at hdigit
  cases hdigit

theorem unmarked_decimal {cs : List Char} (h : IsDecimal cs) : Unmarked cs := by
  obtain ⟨whole, part, rfl, hwhole, hpart⟩ := h
  refine List.forall_mem_append.mpr ⟨unmarked_digits hwhole, ?_⟩
  exact List.forall_mem_cons.mpr ⟨by decide, unmarked_digits hpart⟩

end Words

namespace Dialect

theorem clean_quote (d : Dialect) {name : String} (h : isIdentifier name = true) :
    d.Clean (d.quote name) := by
  obtain ⟨opening, -, closing, hmark, hopening, hclosing, hq⟩ := d.nameQuotes
  unfold quote Naming.quote
  split
  · have hunquoted : closing ∉ (d.naming.folding.fold name).toList := fun hc =>
      unmarked_fold h d.naming.folding closing hc hmark
    have hread : Quoting.read { closing } ((d.naming.folding.fold name).toList ++ [closing]) =
        some ((d.naming.folding.fold name).toList, []) :=
      Quoting.read_unescaped rfl hunquoted nofun
    unfold Clean
    rw [String.toList_append, String.toList_append, hopening, hclosing, List.append_assoc]
    exact (inspect_quoted hq hread).trans inspect_nil
  · exact clean_of_unmarked (unmarked_identifier h)

theorem clean_stringLiteral (d : Dialect) (text : String) : d.Clean (d.stringLiteral text) := by
  have hopening : d.quoting? '\'' = some d.literalQuoting := if_pos rfl
  have hread : d.literalQuoting.read (d.literalQuoting.written text.toList ++ ['\'']) =
      some (text.toList, []) :=
    d.literalQuoting.read_written (by simp [literalQuoting]) text.toList nofun
  unfold Clean
  rw [d.stringLiteral_toList, inspect_quoted hopening hread, inspect_nil]

theorem clean_literal (d : Dialect) {v : Literal} (h : v.WellFormed) : d.Clean (d.literal v) := by
  cases v with
  | null => exact clean_of_unmarked (a := "NULL") (by decide)
  | integer value =>
    have hdigits : d.Clean (toString value.natAbs) :=
      clean_of_unmarked (unmarked_digits (isDigits_toString value.natAbs))
    change d.Clean (Literal.integer value).text
    by_cases hneg : value < 0
    · rw [Literal.text_negative hneg]
      exact hdigits.minus (toString_head_ne value.natAbs)
    · rw [Literal.text_nonnegative (by omega)]
      exact hdigits
  | decimal text =>
    obtain ⟨digits, hd, rfl | rfl⟩ := h
    · exact clean_of_unmarked (unmarked_decimal hd)
    · exact (clean_of_unmarked (unmarked_decimal hd)).minus hd.head_ne
  | string text => exact d.clean_stringLiteral text

theorem clean_concat {d : Dialect} {left right : String} (hl : d.Clean left)
    (hr : d.Clean right) : d.Clean (d.concat left right) := by
  unfold concat
  split
  · exact hl.joined hr (by decide) (by decide)
  · exact hl.joined hr (by decide) (by decide)
  · have hcall : Dialect.mySql.Clean ("CONCAT(" ++ left ++ ", " ++ right) :=
      (hl.after (by decide)).joined hr (by decide) (by decide)
    exact hcall.follow (follows_of_unmarked (by decide))
  · exact hl.joined hr (by decide) (by decide)

/-- A style whose own parts are clean where the parts they are given are. -/
structure CleanStyle (d : Dialect) (s : Style) : Prop where
  column : ∀ {qualifier : Option String} {name : String},
    (∀ word ∈ qualifier, isIdentifier word = true) → isIdentifier name = true →
      d.Clean (s.column qualifier name)
  concat : ∀ {left right : String}, d.Clean left → d.Clean right → d.Clean (s.concat left right)
  literal : ∀ {v : Literal}, v.WellFormed → d.Clean (s.literal v)

theorem cleanStyle (d : Dialect) {oldRow qualifier : Option String}
    (hrow : ∀ row ∈ oldRow, d.Clean row) (htable : ∀ table ∈ qualifier, d.Clean (d.quote table)) :
    d.CleanStyle (d.style oldRow qualifier) where
  column {q name} hq hname := by
    have dotted : ∀ {a : String}, d.Clean a → d.Clean (a ++ "." ++ d.quote name) := fun ha =>
      ha.joined (d.clean_quote hname) (by decide) (by decide)
    cases q with
    | none =>
      cases qualifier with
      | none => exact d.clean_quote hname
      | some table => exact dotted (htable table rfl)
    | some q =>
      cases oldRow with
      | none => exact dotted (d.clean_quote (hq q rfl))
      | some row =>
        refine dotted ?_
        split
        · exact hrow row rfl
        · exact d.clean_quote (hq q rfl)
  concat := clean_concat
  literal := d.clean_literal

section Rendering

variable {d : Dialect} {s : Style}

theorem follows_renderOption {o : Option Expr} {lead : String}
    (h : ∀ e ∈ o, d.Clean (e.render s)) (hlead : Unmarked lead.toList) (hne : lead.toList ≠ []) :
    d.Follows (Expr.renderOption s lead o) := by
  cases o with
  | none => exact follows_of_unmarked (a := "") (by decide)
  | some e => exact (h e rfl).led hlead hne

theorem follows_renderBranches {branches : List (Expr × Expr)}
    (h : ∀ b ∈ branches, d.Clean (b.1.render s) ∧ d.Clean (b.2.render s)) :
    d.Follows (Expr.renderBranches s branches) := by
  induction branches with
  | nil => exact follows_of_unmarked (a := "") (by decide)
  | cons b branches ih =>
    obtain ⟨⟨hwhen, hthen⟩, hrest⟩ := List.forall_mem_cons.mp h
    have hbranch := hwhen.joined hthen (by decide : Unmarked " THEN ".toList) (by decide)
    have hled := (hbranch.led (by decide : Unmarked " WHEN ".toList) (by decide)).append (ih hrest)
    rw [← String.append_assoc, ← String.append_assoc] at hled
    exact hled

/-- The order of precedence and the space after a minus sign keep every operator apart from the
operand it stands before. -/
theorem clean_render (hs : d.CleanStyle s) {e : Expr} (h : e.WellFormed) :
    d.Clean (e.render s) := by
  induction e with
  | literal v => exact hs.literal (Expr.wellFormed_literal.mp h)
  | column qualifier name =>
    obtain ⟨hq, hname⟩ := Expr.wellFormed_column.mp h
    exact hs.column hq hname
  | parameter name =>
    have hname : d.Clean name :=
      clean_of_unmarked (unmarked_identifier (Expr.wellFormed_parameter.mp h))
    exact hname.after (by decide)
  | call name args ih =>
    obtain ⟨hname, hargs⟩ := Expr.wellFormed_call.mp h
    have hlist : d.Clean (commaSeparated (Expr.renderAll s args)) := by
      rw [Expr.renderAll_eq_map]
      exact clean_commaSeparated (List.forall_mem_map.mpr fun e he => ih e he (hargs e he))
    have hcall := (clean_of_unmarked (unmarked_identifier hname.1)).joined hlist
      (by decide : Unmarked "(".toList) (by decide)
    exact hcall.follow (follows_of_unmarked (by decide))
  | caseWhen operand branches otherwise iho ihb ihe =>
    obtain ⟨-, ho, hb, he⟩ := Expr.wellFormed_caseWhen.mp h
    have hoperand : d.Follows (Expr.renderOption s " " operand) :=
      follows_renderOption (fun e hm => iho e hm (ho e hm)) (by decide) (by decide)
    have hbranches : d.Follows (Expr.renderBranches s branches) :=
      follows_renderBranches fun b hm => ⟨(ihb b hm).1 (hb b hm).1, (ihb b hm).2 (hb b hm).2⟩
    have hotherwise : d.Follows (Expr.renderOption s " ELSE " otherwise) :=
      follows_renderOption (fun e hm => ihe e hm (he e hm)) (by decide) (by decide)
    have hcase : d.Clean "CASE" := clean_of_unmarked (by decide)
    exact (((hcase.follow hoperand).follow hbranches).follow hotherwise).follow
      (follows_of_unmarked (by decide))
  | binary op left right ihl ihr =>
    obtain ⟨hl, hr⟩ := Expr.wellFormed_binary.mp h
    have hleft := (ihl hl).parenthesized (left.precedence < op.precedence)
    have hright := (ihr hr).parenthesized (right.precedence ≤ op.precedence)
    cases op with
    | concat => exact hs.concat hleft hright
    | _ => exact hleft.operated hright _
  | unary op operand ih =>
    have hinner := (ih (Expr.wellFormed_unary.mp h)).parenthesized
      (operand.precedence < op.precedence)
    cases op with
    | not => exact hinner.after (by decide)
    | neg =>
      -- the operand may start with a minus of its own, that of a number included
      rw [Expr.render]
      split
      · exact hinner.minusBlank
      · rename_i hhead
        exact hinner.minus hhead
  | isNull operand negated ih =>
    have hinner := (ih (Expr.wellFormed_isNull.mp h)).parenthesized (operand.precedence ≤ 4)
    rw [Expr.render]
    split
    · exact hinner.follow (follows_of_unmarked (by decide))
    · exact hinner.follow (follows_of_unmarked (by decide))

end Rendering

end Dialect

theorem Expr.parsed_wellFormed {source : String} {e : Expr} (h : Expr.parse source = .ok e) :
    e.WellFormed := by
  obtain ⟨-, hread⟩ := Expr.parse_eq_ok.mp h
  exact (yields_expr (scanFrom_valid 0 source.toList) (exprOfLexemes_eq_ok.mp hread)).1

theorem Expr.parse_of_tokens {source : String} {e : Expr} (h : e.WellFormed)
    (hstray : Grammar.strayMistakes (scan source) = [])
    (hscan : ((scan source).filterMap Scanned.lexeme?).map Lexeme.token = e.tokens) :
    Expr.parse source = .ok e.foldSigns := by
  have hderived := (printed h).whole
  rw [← hscan] at hderived
  exact Expr.parse_eq_ok.mpr ⟨hstray, exprOfLexemes_iff.mpr hderived⟩

namespace Dialect

theorem clean_oldRow (d : Dialect) : d.Clean d.oldRow :=
  clean_of_unmarked (by cases d <;> decide)

theorem render_oldColumn (d : Dialect) (row : String) (qualifier : Option String) (name : String) :
    (Expr.column (some "OLD") name).render (d.style (some row) qualifier) =
      row ++ "." ++ d.quote name := by
  rw [Expr.render]
  exact congrArg (· ++ "." ++ d.quote name) (if_pos rfl)

theorem render_qualified (d : Dialect) (oldRow : Option String) (table name : String) :
    (Expr.column none name).render (d.style oldRow (some table)) =
      d.quote table ++ "." ++ d.quote name := by
  rw [Expr.render]
  rfl

theorem quote_x (d : Dialect) : d.quote "x" = "x" := by
  cases d <;> decide +kernel

theorem clean_of_dotted {d : Dialect} {a : String} (h : d.Clean (a ++ "." ++ d.quote "x")) :
    d.Clean a := by
  unfold Clean at h
  rw [quote_x, String.append_assoc, String.toList_append] at h
  exact inspect_of_append h (by decide)

end Dialect

/-- Outside of string literals and quoted names no text of a parsed expression opens a comment, in
any dialect and style, and every quoted text in it is closed. The old row and the qualifier of the
columns are written as they are given, so they have to be clean themselves: the names that the
dialects give to the old row are, and so is every table's name. -/
theorem rendered_expression_clean (d : Dialect) (oldRow qualifier : Option String) :
    ((∀ (source : String) (e : Expr), Expr.parse source = .ok e →
        d.Clean (e.render (d.style oldRow qualifier))) ↔
      (∀ row ∈ oldRow, d.Clean row) ∧ ∀ table ∈ qualifier, d.Clean (d.quote table)) ∧
    d.Clean d.oldRow ∧ ∀ table, isIdentifier table = true → d.Clean (d.quote table) := by
  refine ⟨⟨fun h => ⟨?_, ?_⟩, fun ⟨hrow, htable⟩ source e hparse => ?_⟩, d.clean_oldRow,
    fun _ => d.clean_quote⟩
  · rintro row rfl
    have hparse : Expr.parse "OLD.x" = .ok (.column (some "OLD") "x") :=
      Expr.parse_of_tokens (e := .column (some "OLD") "x") (by simp; decide +kernel)
        (by with_unfolding_all rfl) (by with_unfolding_all rfl)
    have hclean := h _ _ hparse
    rw [d.render_oldColumn] at hclean
    exact Dialect.clean_of_dotted hclean
  · rintro table rfl
    have hparse : Expr.parse "x" = .ok (.column none "x") :=
      Expr.parse_of_tokens (e := .column none "x") (by simp; decide +kernel)
        (by with_unfolding_all rfl) (by with_unfolding_all rfl)
    have hclean := h _ _ hparse
    rw [d.render_qualified] at hclean
    exact Dialect.clean_of_dotted hclean
  · exact Dialect.clean_render (d.cleanStyle hrow htable) (Expr.parsed_wellFormed hparse)

namespace Sample

/-- Minus signs of all kinds: between operands, before an operand, of a number and in a string. -/
def minuses : Expr :=
  .binary .concat (.binary .minus (.column none "x") (.literal (.integer (-5))))
    (.binary .divide (.literal (.string "--"))
      (.unary .neg (.unary .neg (.column (some "OLD") "y"))))

end Sample

theorem minuses_stay_apart :
    Expr.parse "x - -5 || '--' / - -OLD.y" = .ok Sample.minuses ∧
      Sample.minuses.render (Dialect.sqlServer.style (some "deleted") (some "Order")) =
        "[Order].x - -5 + '--' / - -deleted.y" ∧
      Dialect.sqlServer.Clean "[Order].x - -5 + '--' / - -deleted.y" := by
  have hwell : Sample.minuses.WellFormed := by
    simp [Sample.minuses, Literal.WellFormed]
    decide +kernel
  have hparse : Expr.parse "x - -5 || '--' / - -OLD.y" = .ok Sample.minuses :=
    Expr.parse_of_tokens hwell (by with_unfolding_all rfl) (by with_unfolding_all rfl)
  have hrender : Sample.minuses.render (Dialect.sqlServer.style (some "deleted") (some "Order")) =
      "[Order].x - -5 + '--' / - -deleted.y" := by
    decide +kernel
  obtain ⟨hstyle, hrow, htable⟩ :=
    rendered_expression_clean .sqlServer (some "deleted") (some "Order")
  have hclean := hstyle.mpr
    ⟨forall_mem_some hrow, forall_mem_some (htable "Order" (by decide +kernel))⟩ _ _ hparse
  rw [hrender] at hclean
  exact ⟨hparse, hrender, hclean⟩

end Schemata
