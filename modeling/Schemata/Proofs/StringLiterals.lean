import Schemata.Dialect.Profile
import Schemata.Proofs.Scanning

/-! Quoted texts hold together. A reader that starts behind the opening quote finds the text again
and stops at the closing quote, whatever quotes and backslashes the text is made of. -/
namespace Schemata

/-- What ends a quoted text, and whether a backslash in it escapes the next character. -/
structure Quoting where
  closing : Char
  backslash : Bool := false
  deriving DecidableEq, Repr

namespace Quoting

/-- What a quoted text says, read from behind its opening quote, and the characters behind its end.
A closing quote that is written twice stands for itself; `none` if the text does not end. -/
def read (q : Quoting) : List Char → Option (List Char × List Char)
  | [] => none
  | [c] => if c = q.closing then some ([], []) else none
  | c :: d :: cs =>
    if c = q.closing then
      if d = q.closing then (read q cs).map (Prod.map (c :: ·) id) else some ([], d :: cs)
    else if c = '\\' ∧ q.backslash then (read q cs).map (Prod.map (d :: ·) id)
    else (read q (d :: cs)).map (Prod.map (c :: ·) id)

section Reading

variable {q : Quoting} {c : Char} {rest : List Char}

theorem read_doubled (q : Quoting) (cs : List Char) :
    q.read (q.closing :: q.closing :: cs) = (q.read cs).map (Prod.map (q.closing :: ·) id) := by
  rw [read, if_pos rfl, if_pos rfl]

theorem read_closing (h : rest.head? ≠ some q.closing) :
    q.read (q.closing :: rest) = some ([], rest) := by
  cases rest with
  | nil => rw [read, if_pos rfl]
  | cons c rest => rw [read, if_pos rfl, if_neg fun hc => h (congrArg some hc)]

theorem read_escaped (hq : q.backslash = true) (hc : '\\' ≠ q.closing) (c : Char)
    (cs : List Char) : q.read ('\\' :: c :: cs) = (q.read cs).map (Prod.map (c :: ·) id) := by
  rw [read, if_neg hc, if_pos ⟨rfl, hq⟩]

theorem read_cons (hc : c ≠ q.closing) (hb : ¬ (c = '\\' ∧ q.backslash = true)) (cs : List Char) :
    q.read (c :: cs) = (q.read cs).map (Prod.map (c :: ·) id) := by
  cases cs with
  | nil =>
    rw [read, read]
    exact if_neg hc
  | cons d cs => rw [read, if_neg hc, if_neg hb]

end Reading

/-- How a character is written in a quoted text. -/
def spelling (q : Quoting) (c : Char) : List Char :=
  if c = q.closing ∨ c = '\\' ∧ q.backslash then [c, c] else [c]

/-- Backslashes are doubled where they escape, and then the closing quotes. -/
def written (q : Quoting) (text : List Char) : List Char :=
  doubleQuotes q.closing (if q.backslash then doubleQuotes '\\' text else text)

section Writing

variable {q : Quoting}

theorem written_cons (hq : '\\' ≠ q.closing) (c : Char) (text : List Char) :
    q.written (c :: text) = q.spelling c ++ q.written text := by
  unfold written spelling
  by_cases hc : c = q.closing
  · have hne : c ≠ '\\' := fun h => hq (h ▸ hc)
    cases q.backslash <;> simp [doubleQuotes, hc, hc ▸ hne]
  · by_cases hb : c = '\\'
    · subst hb
      cases q.backslash <;> simp [doubleQuotes, hc]
    · cases q.backslash <;> simp [doubleQuotes, hc, hb]

theorem read_spelling (hq : '\\' ≠ q.closing) (c : Char) (cs : List Char) :
    q.read (q.spelling c ++ cs) = (q.read cs).map (Prod.map (c :: ·) id) := by
  unfold spelling
  split
  · rename_i h
    rcases h with rfl | ⟨rfl, hb⟩
    · exact read_doubled q cs
    · exact read_escaped hb hq '\\' cs
  · rename_i h
    rw [not_or] at h
    exact read_cons h.1 h.2 cs

/-- What is written in quotes is read again, and the reader stops right behind it. -/
theorem read_written (hq : '\\' ≠ q.closing) (text : List Char) {rest : List Char}
    (hrest : rest.head? ≠ some q.closing) :
    q.read (q.written text ++ q.closing :: rest) = some (text, rest) := by
  induction text with
  | nil =>
    have hnil : q.written [] = [] := by
      unfold written
      cases q.backslash <;> rfl
    rw [hnil]
    exact read_closing hrest
  | cons c text ih =>
    rw [written_cons hq, List.append_assoc, read_spelling hq, ih]
    rfl

end Writing

end Quoting

/-- The quotes of a string literal. -/
def Dialect.literalQuoting (d : Dialect) : Quoting where
  closing := '\''
  backslash := d = .mySql

theorem Dialect.stringLiteral_toList (d : Dialect) (s : String) :
    (d.stringLiteral s).toList = '\'' :: (d.literalQuoting.written s.toList ++ ['\'']) := by
  cases d <;> simp [stringLiteral, quoteText_toList, literalQuoting, Quoting.written]

theorem scan_quoteText (s : String) :
    scan (quoteText s) = [.lexeme ⟨.string s, ⟨0, (quoteText s).utf8ByteSize⟩⟩] := by
  have hlength : (doubleQuotes '\'' s.toList).length + 1 =
      (doubleQuotes '\'' s.toList ++ ['\'']).length := by
    rw [List.length_append, List.length_singleton]
  have hpiece : piece '\'' (doubleQuotes '\'' s.toList ++ ['\'']) =
      (.token (.string s), (doubleQuotes '\'' s.toList).length + 1) :=
    piece_quoted s nofun
  rw [hlength] at hpiece
  rw [scan, ← byteLength_toList, quoteText_toList, scanFrom]
  simp only [hpiece, List.take_length, List.drop_length, scanFrom, Nat.zero_add]

/-- In every dialect a string literal is one complete literal that says `s`: read from behind its
first quote, it ends at its last character. So it is in the schema language, where the scanner takes
the whole text as one string and gives the text between the quotes back. -/
theorem string_literal_contained (d : Dialect) (s : String) :
    (∃ body, (d.stringLiteral s).toList = '\'' :: body ∧
      ∀ behind : List Char, behind.head? ≠ some '\'' →
        d.literalQuoting.read (body ++ behind) = some (s.toList, behind)) ∧
    (∃ between, (quoteText s).toList = '\'' :: (between ++ ['\'']) ∧
      collapseQuotes '\'' between = s.toList ∧
      ∀ behind : List Char, behind.head? ≠ some '\'' →
        piece '\'' (between ++ '\'' :: behind) = (.token (.string s), between.length + 1)) ∧
    scan (quoteText s) = [.lexeme ⟨.string s, ⟨0, (quoteText s).utf8ByteSize⟩⟩] := by
  refine ⟨⟨_, d.stringLiteral_toList s, fun behind hbehind => ?_⟩,
    ⟨_, quoteText_toList s, collapseQuotes_doubleQuotes _ _, fun _ => piece_quoted s⟩,
    scan_quoteText s⟩
  rw [List.append_assoc]
  exact d.literalQuoting.read_written (by simp [Dialect.literalQuoting]) s.toList hbehind

/-- A quote behind a backslash ends nothing, though the backslash escapes. -/
theorem backslash_quote_contained :
    Dialect.mySql.stringLiteral "\\' OR 1 --" = "'\\\\'' OR 1 --'" ∧
      ", 2".toList.head? ≠ some '\'' ∧
      Dialect.mySql.literalQuoting.read "\\\\'' OR 1 --', 2".toList =
        some ("\\' OR 1 --".toList, ", 2".toList) := by
  have htext : Dialect.mySql.stringLiteral "\\' OR 1 --" = "'\\\\'' OR 1 --'" := by
    decide +kernel
  have hbehind : ", 2".toList.head? ≠ some '\'' := by decide
  obtain ⟨⟨body, hbody, hread⟩, -⟩ := string_literal_contained .mySql "\\' OR 1 --"
  rw [htext] at hbody
  obtain rfl : "\\\\'' OR 1 --'".toList = body := (List.cons.inj hbody).2
  exact ⟨htext, hbehind, hread _ hbehind⟩

end Schemata
