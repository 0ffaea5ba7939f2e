import Schemata.Token

/-!
From characters to tokens. The longest match wins; blanks and comments make no token, and what
no rule accepts becomes a stray piece of its own.
-/

namespace Schemata

/-- What the characters at the start of a text make. -/
inductive Piece where
  | gap
  | token (t : Token)
  | stray
  deriving DecidableEq, Repr

/-- Space, tab, carriage return, line feed and form feed separate tokens, nothing else. -/
def isGap (c : Char) : Bool :=
  c == ' ' || c == '\t' || c == '\r' || c == '\n' || c == '\x0c'

/-- A word is a keyword if it is spelled like one, and else a name. -/
def wordToken (word : List Char) : Token :=
  match Keyword.ofText? (String.ofList word) with
  | some k => .keyword k
  | none => .name (String.ofList word)

/-- Length of a string's content and closing quote; a doubled quote is content. `none` if the
text ends first. -/
def stringLength? : List Char → Option Nat
  | [] => none
  | '\'' :: '\'' :: cs => (stringLength? cs).map (· + 2)
  | '\'' :: _ => some 1
  | _ :: cs => (stringLength? cs).map (· + 1)

/-- Length of a block comment's content and end. A star and the character after it are read as a
pair, whatever that character is. If the text ends first, `error` has the length up to there,
without a star that is the very last character. -/
def commentLength : List Char → Except Nat Nat
  | [] => .error 0
  | '*' :: '/' :: _ => .ok 2
  | ['*'] => .error 0
  | '*' :: _ :: cs => shift 2 (commentLength cs)
  | _ :: cs => shift 1 (commentLength cs)
where
  shift (n : Nat) : Except Nat Nat → Except Nat Nat
    | .ok m => .ok (n + m)
    | .error m => .error (n + m)

/-- A number at `c :: cs`: digits, then a dot with more digits if there are any. -/
def numberPiece (c : Char) (cs : List Char) : Piece × Nat :=
  let whole := cs.takeWhile Char.isDigit
  match cs.drop whole.length with
  | '.' :: d :: rest =>
    if d.isDigit then
      let n := whole.length + 2 + (rest.takeWhile Char.isDigit).length
      (.token (.decimal (String.ofList (c :: cs.take n))), n)
    else (.token (.integer (String.ofList (c :: whole))), whole.length)
  | _ => (.token (.integer (String.ofList (c :: whole))), whole.length)

/-- A parameter after its colon, or the colon alone. -/
def parameterPiece : List Char → Piece × Nat
  | c :: cs =>
    if isNameStart c then
      let word := c :: cs.takeWhile isNameChar
      (.token (.parameter (String.ofList word)), word.length)
    else (.stray, 0)
  | [] => (.stray, 0)

/-- A quoted name after its opening quote. Without a word the quote is stray, and without the
closing quote the quote and the word are. -/
def quotedNamePiece : List Char → Piece × Nat
  | c :: cs =>
    if isNameStart c then
      let word := c :: cs.takeWhile isNameChar
      match (c :: cs).drop word.length with
      | '"' :: _ => (.token (.quotedName (String.ofList word)), word.length + 1)
      | _ => (.stray, word.length)
    else (.stray, 0)
  | [] => (.stray, 0)

/-- A string after its opening quote; one that does not end is stray as a whole. -/
def stringPiece (cs : List Char) : Piece × Nat :=
  match stringLength? cs with
  | some n => (.token (.string (String.ofList (collapseQuotes '\'' (cs.take (n - 1))))), n)
  | none => (.stray, cs.length)

/-- A block comment after its slash and star. -/
def commentPiece (cs : List Char) : Piece × Nat :=
  match commentLength cs with
  | .ok n => (.gap, n + 1)
  | .error n => (.stray, n + 1)

def symbolPiece (s : Symbol) (more : Nat) : Piece × Nat :=
  (.token (.symbol s), more)

/-- What stands at the start of `c :: cs`, and how many characters of `cs` belong to it. -/
def piece (c : Char) (cs : List Char) : Piece × Nat :=
  if isGap c then (.gap, (cs.takeWhile isGap).length)
  else if isNameStart c then
    let more := cs.takeWhile isNameChar
    (.token (wordToken (c :: more)), more.length)
  else if c.isDigit then numberPiece c cs
  else
    match c, cs with
    | '-', '-' :: rest => (.gap, 1 + (rest.takeWhile (· != '\n')).length)
    | '/', '*' :: rest => commentPiece rest
    | '\'', rest => stringPiece rest
    | '"', rest => quotedNamePiece rest
    | ':', rest => parameterPiece rest
    | '<', '>' :: _ => symbolPiece .notEq 1
    | '<', '=' :: _ => symbolPiece .ltEq 1
    | '>', '=' :: _ => symbolPiece .gtEq 1
    | '!', '=' :: _ => symbolPiece .bangEq 1
    | '|', '|' :: _ => symbolPiece .concat 1
    | '(', _ => symbolPiece .lparen 0
    | ')', _ => symbolPiece .rparen 0
    | ',', _ => symbolPiece .comma 0
    | ';', _ => symbolPiece .semicolon 0
    | '.', _ => symbolPiece .dot 0
    | '=', _ => symbolPiece .eq 0
    | '<', _ => symbolPiece .lt 0
    | '>', _ => symbolPiece .gt 0
    | '+', _ => symbolPiece .plus 0
    | '-', _ => symbolPiece .minus 0
    | '*', _ => symbolPiece .star 0
    | '/', _ => symbolPiece .slash 0
    | _, _ => (.stray, 0)

/-- Bytes that the characters take in UTF-8. -/
def byteLength (cs : List Char) : Nat :=
  cs.foldl (fun n c => n + c.utf8Size) 0

/-- A token or a stray piece of text, with its place. -/
inductive Scanned where
  | lexeme (l : Lexeme)
  | stray (text : String) (span : Span)
  deriving DecidableEq, Repr

/-- The tokens and stray pieces of a text whose first character stands at byte `start`. -/
def scanFrom (start : Nat) : List Char → List Scanned
  | [] => []
  | c :: cs =>
    let text := c :: cs.take (piece c cs).2
    let stop := start + byteLength text
    match (piece c cs).1 with
    | .gap => scanFrom stop (cs.drop (piece c cs).2)
    | .token t => .lexeme ⟨t, ⟨start, stop⟩⟩ :: scanFrom stop (cs.drop (piece c cs).2)
    | .stray =>
      .stray (String.ofList text) ⟨start, stop⟩ :: scanFrom stop (cs.drop (piece c cs).2)
termination_by cs => cs.length
decreasing_by all_goals simp only [List.length_drop, List.length_cons]; omega

def scan (text : String) : List Scanned :=
  scanFrom 0 text.toList

namespace Scanned

def lexeme? : Scanned → Option Lexeme
  | lexeme l => some l
  | stray _ _ => none

def stray? : Scanned → Option (String × Span)
  | lexeme _ => none
  | stray text span => some (text, span)

end Scanned

/-- Whether the whole text is one token other than a name. -/
def isReserved (text : String) : Bool :=
  match text.toList with
  | [] => false
  | c :: cs =>
    match piece c cs with
    | (.token t, n) => n == cs.length && !t.isName
    | _ => false

end Schemata
