import Schemata.Dialect.Reserved
import Schemata.Text.Fingerprint

/-!
How a dialect writes names: which it quotes, how it folds the letters of a quoted one, and how long
a generated one may be.
-/

namespace Schemata

inductive LetterCase where
  | preserve
  | upper
  | lower
  deriving DecidableEq, Repr

def LetterCase.fold : LetterCase → String → String
  | preserve, name => name
  | upper, name => upperAscii name
  | lower, name => lowerAscii name

/-- A name is folded before it is quoted, so that it means what the unquoted name means. -/
structure Naming where
  opening : String := "\""
  closing : String := "\""
  reserved : List String
  folding : LetterCase
  maxLength : Nat
  deriving DecidableEq, Repr

namespace Naming

def isReserved (n : Naming) (name : String) : Bool :=
  let word := upperAscii name
  commonReservedWords.contains word || n.reserved.contains word

/-- A reserved word, and a name that does not start with a letter, has to be quoted. -/
def needsQuotes (n : Naming) (name : String) : Bool :=
  n.isReserved name ||
    match name.toList.head? with
    | some c => !c.isAlpha
    | none => true

def quote (n : Naming) (name : String) : String :=
  if n.needsQuotes name then n.opening ++ n.folding.fold name ++ n.closing else name

/-- The name itself if it fits, else its start and a fingerprint of the whole. -/
def shorten (n : Naming) (name : String) : String :=
  if name.utf8ByteSize ≤ n.maxLength then name
  else String.ofList (name.toList.take (n.maxLength - 9)) ++ "_" ++ fingerprintText name

/-- A generated name, shortened and then quoted. -/
def objectName (n : Naming) (name : String) : String :=
  n.quote (n.shorten name)

end Naming

namespace Dialect

def naming (d : Dialect) : Naming :=
  match d with
  | oracle => { reserved := d.reservedWords, folding := .upper, maxLength := 30 }
  | sqlServer =>
    { opening := "[", closing := "]", reserved := d.reservedWords, folding := .preserve
      maxLength := 128 }
  | sybase =>
    { opening := "[", closing := "]", reserved := d.reservedWords, folding := .preserve
      maxLength := 30 }
  | postgreSql => { reserved := d.reservedWords, folding := .lower, maxLength := 63 }
  | mySql =>
    { opening := "`", closing := "`", reserved := d.reservedWords, folding := .preserve
      maxLength := 64 }
  | db2 | derby | hsqldb => { reserved := d.reservedWords, folding := .upper, maxLength := 128 }
  | sqlite => { reserved := d.reservedWords, folding := .preserve, maxLength := 1024 }

def quote (d : Dialect) (name : String) : String :=
  d.naming.quote name

def objectName (d : Dialect) (name : String) : String :=
  d.naming.objectName name

def quotedList (d : Dialect) (names : List String) : String :=
  String.intercalate ", " (names.map d.quote)

end Dialect

end Schemata
