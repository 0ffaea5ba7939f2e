import Schemata.Toml
import Schemata.Toml.Scalar

/-!
Reading a TOML document. Each step reads a construct at the start of the text and returns what
follows it.
-/

namespace Schemata.Toml

abbrev Step (α : Type) := List Char → Option (α × List Char)

/-- Tabs and all that is no control character. -/
def isTextChar (c : Char) : Bool :=
  c == '\t' || decide (' ' ≤ c) && c != '\x7f'

def isBlankChar (c : Char) : Bool :=
  c == ' ' || c == '\t'

def skipBlanks (cs : List Char) : List Char :=
  cs.dropWhile isBlankChar

/-- What follows a line feed, which may have a carriage return before it. -/
def afterNewline? : List Char → Option (List Char)
  | '\n' :: rest | '\r' :: '\n' :: rest => some rest
  | _ => none

def skipComment : List Char → List Char
  | '#' :: rest => rest.dropWhile isTextChar
  | cs => cs

/-- Blanks and a comment up to the end of the line or of the text. -/
def afterLine? (cs : List Char) : Option (List Char) :=
  match skipComment (skipBlanks cs) with
  | [] => some []
  | rest => afterNewline? rest

/-- Blanks, comments and ends of lines; `fuel` bounds the number of lines. -/
def skipLines : Nat → List Char → List Char
  | 0, cs => cs
  | fuel + 1, cs =>
    match afterNewline? (skipComment (skipBlanks cs)) with
    | some rest => skipLines fuel rest
    | none => skipBlanks cs

/-! ### Strings -/

def escaped? : Char → Option Char
  | 'b' => some '\x08'
  | 't' => some '\t'
  | 'n' => some '\n'
  | 'f' => some '\x0c'
  | 'r' => some '\r'
  | '"' => some '"'
  | '\\' => some '\\'
  | _ => none

/-- The character with a code in hexadecimal digits. -/
def codePoint? (digits : List Char) : Option Char :=
  let code := numeral 16 digits
  if digits.all (fun c => c.isAlphanum && decide (digitValue c < 16)) ∧ code.isValidChar then
    some (Char.ofNat code)
  else none

def prepend (c? : Option Char) (rest : Option (List Char × List Char)) :
    Option (List Char × List Char) := do
  let c ← c?
  let (cs, after) ← rest
  return (c :: cs, after)

def textChar? (c : Char) : Option Char :=
  if isTextChar c then some c else none

/-- The inside of a string in double quotes, and what follows the closing quote. -/
def basicBody : Step (List Char)
  | [] => none
  | '"' :: rest => some ([], rest)
  | '\\' :: 'u' :: a :: b :: c :: d :: rest => prepend (codePoint? [a, b, c, d]) (basicBody rest)
  | '\\' :: 'U' :: a :: b :: c :: d :: e :: f :: g :: h :: rest =>
    prepend (codePoint? [a, b, c, d, e, f, g, h]) (basicBody rest)
  | '\\' :: c :: rest => prepend (escaped? c) (basicBody rest)
  | c :: rest => prepend (if c = '\\' then none else textChar? c) (basicBody rest)

/-- Whether nothing but blanks stands before the end of the line. -/
def endsLine (cs : List Char) : Bool :=
  (afterNewline? (skipBlanks cs)).isSome

/-- The inside of a string in three double quotes. Up to two more quotes at its end belong to it. A
backslash at the end of a line takes all blanks and line ends after it away, which is what
`skipping` stands for. -/
def longBasicBody : Bool → Step (List Char)
  | _, [] => none
  | _, '"' :: '"' :: '"' :: '"' :: '"' :: rest => some (['"', '"'], rest)
  | _, '"' :: '"' :: '"' :: '"' :: rest => some (['"'], rest)
  | _, '"' :: '"' :: '"' :: rest => some ([], rest)
  | _, '\\' :: 'u' :: a :: b :: c :: d :: rest =>
    prepend (codePoint? [a, b, c, d]) (longBasicBody false rest)
  | _, '\\' :: 'U' :: a :: b :: c :: d :: e :: f :: g :: h :: rest =>
    prepend (codePoint? [a, b, c, d, e, f, g, h]) (longBasicBody false rest)
  | skipping, '\r' :: '\n' :: rest =>
    if skipping then longBasicBody true rest else prepend (some '\n') (longBasicBody false rest)
  | skipping, '\n' :: rest =>
    if skipping then longBasicBody true rest else prepend (some '\n') (longBasicBody false rest)
  | _, ['\\'] => none
  | _, '\\' :: c :: rest =>
    if endsLine (c :: rest) then longBasicBody true (c :: rest)
    else prepend (escaped? c) (longBasicBody false rest)
  | skipping, c :: rest =>
    if skipping && isBlankChar c then longBasicBody true rest
    else prepend (textChar? c) (longBasicBody false rest)

/-- The inside of a string in single quotes. -/
def literalBody : Step (List Char)
  | [] => none
  | '\'' :: rest => some ([], rest)
  | c :: rest => prepend (textChar? c) (literalBody rest)

/-- The inside of a string in three single quotes. -/
def longLiteralBody : Step (List Char)
  | [] => none
  | '\'' :: '\'' :: '\'' :: '\'' :: '\'' :: rest => some (['\'', '\''], rest)
  | '\'' :: '\'' :: '\'' :: '\'' :: rest => some (['\''], rest)
  | '\'' :: '\'' :: '\'' :: rest => some ([], rest)
  | '\r' :: '\n' :: rest | '\n' :: rest => prepend (some '\n') (longLiteralBody rest)
  | c :: rest => prepend (textChar? c) (longLiteralBody rest)

/-- A line end right after the opening quotes does not count. -/
def trimFirstNewline (cs : List Char) : List Char :=
  (afterNewline? cs).getD cs

/-- A string in quotes of any kind. -/
def quoted : Step (List Char)
  | '"' :: '"' :: '"' :: rest => longBasicBody false (trimFirstNewline rest)
  | '\'' :: '\'' :: '\'' :: rest => longLiteralBody (trimFirstNewline rest)
  | '"' :: rest => basicBody rest
  | '\'' :: rest => literalBody rest
  | _ => none

/-! ### Keys -/

def isKeyChar (c : Char) : Bool :=
  c.isAlphanum || c == '_' || c == '-'

def simpleKey (cs : List Char) : Option (String × List Char) := do
  let (key, rest) ← match cs with
    | '"' :: rest => basicBody rest
    | '\'' :: rest => literalBody rest
    | _ =>
      let word := cs.takeWhile isKeyChar
      if word.isEmpty then none else some (word, cs.dropWhile isKeyChar)
  return (String.ofList key, rest)

/-- Keys with dots between them and blanks around them; `fuel` bounds their number. -/
def dottedKey : Nat → Step (List String)
  | 0, _ => none
  | fuel + 1, cs => do
    let (key, rest) ← simpleKey (skipBlanks cs)
    match skipBlanks rest with
    | '.' :: rest => do
      let (keys, rest) ← dottedKey fuel rest
      return (key :: keys, rest)
    | rest => return ([key], rest)

/-- The depth to which keys, lists and inline tables go. -/
def depthLimit : Nat := 79

def keyPath : Step (List String) :=
  dottedKey depthLimit

/-! ### Values -/

/-- A key, an equals sign and a value. -/
def assignment (value : Step Item) : Step (List String × Item)
  | cs => do
    let (keys, rest) ← keyPath cs
    match rest with
    | '=' :: rest =>
      let (item, rest) ← value (skipBlanks rest)
      return ((keys, item), rest)
    | _ => none

/-- The elements of a list up to its closing bracket. A comma may follow the last one. -/
def listItems (value : Step Item) : Nat → Step (List Item)
  | 0, _ => none
  | fuel + 1, cs =>
    match skipLines cs.length cs with
    | ']' :: rest => some ([], rest)
    | cs => do
      let (item, rest) ← value cs
      match skipLines rest.length rest with
      | ',' :: rest =>
        let (items, rest) ← listItems value fuel rest
        return (item :: items, rest)
      | ']' :: rest => return ([item], rest)
      | _ => none

/-- The members of an inline table from a key on up to its closing brace. -/
def inlineMembers (value : Step Item) : Nat → Members → Step Members
  | 0, _, _ => none
  | fuel + 1, members, cs => do
    let ((keys, item), rest) ← assignment value cs
    let members ← members.assign? keys item
    match skipBlanks rest with
    | ',' :: rest => inlineMembers value fuel members rest
    | '\x7d' :: rest => return (members, rest)
    | _ => none

def plainValue (cs : List Char) : Option (Item × List Char) :=
  let (word, rest) := takePlain cs
  if isPlain word then some (.plain (String.ofList word), rest) else none

/-- A value; lists and inline tables hold values of a depth less by one. -/
def value : Nat → Step Item
  | 0, cs =>
    match quoted cs with
    | some (text, rest) => some (.text (String.ofList text), rest)
    | none => plainValue cs
  | depth + 1, '[' :: rest => do
    let (items, rest) ← listItems (value depth) (rest.length + 1) rest
    return (.list items, rest)
  | depth + 1, '\x7b' :: rest =>
    match skipBlanks rest with
    | '\x7d' :: rest => some (.table .inline [], rest)
    | rest => do
      let (members, rest) ← inlineMembers (value depth) (rest.length + 1) [] rest
      return (.table .inline members, rest)
  | _ + 1, cs =>
    match quoted cs with
    | some (text, rest) => some (.text (String.ofList text), rest)
    | none => plainValue cs

/-! ### Documents -/

/-- A header: whether it opens an element of an array of tables, and its keys. -/
def header : Step (Bool × List String)
  | '[' :: '[' :: rest => do
    match ← keyPath rest with
    | (keys, ']' :: ']' :: rest) => return ((true, keys), rest)
    | _ => none
  | '[' :: rest => do
    match ← keyPath rest with
    | (keys, ']' :: rest) => return ((false, keys), rest)
    | _ => none
  | _ => none

/-- The lines of a document. `current` is the table that the last header has opened, and `fuel`
bounds the number of lines. -/
def lines : Nat → List String → Members → List Char → Option Members
  | 0, _, _, _ => none
  | fuel + 1, current, document, cs =>
    match skipBlanks cs with
    | [] => some document
    | '[' :: rest => do
      let ((isElement, keys), rest) ← header ('[' :: rest)
      let opening := if isElement then Members.openElement? else Members.openTable?
      lines fuel keys (← document.openAt? opening keys) (← afterLine? rest)
    | cs =>
      match afterLine? cs with
      | some rest => lines fuel current document rest
      | none => do
        let ((keys, item), rest) ← assignment (value depthLimit) cs
        lines fuel current (← document.modify? (Members.assign? keys item) current)
          (← afterLine? rest)

/-- The table of a document; a mark of the byte order at its start does not count. -/
def parse? (text : String) : Option Members :=
  let cs := match text.toList with
    | '\ufeff' :: rest => rest
    | cs => cs
  lines (cs.length + 1) [] [] cs

end Schemata.Toml
