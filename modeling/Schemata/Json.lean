import Schemata.Text.Fingerprint

/-!
JSON values and their text, on one line or indented. The members of an object are written in the
order of their keys.
-/

namespace Schemata

inductive Json where
  | null
  | bool (value : Bool)
  | number (value : Int)
  | fraction (digits : Int) (places : Nat)
  | string (value : String)
  | array (items : List Json)
  | object (members : List (String × Json))
  deriving Inhabited, Repr

namespace Json

instance : Coe String Json := ⟨string⟩

instance : Coe Bool Json := ⟨bool⟩

def nat (n : Nat) : Json := number n

def strings (items : List String) : Json := array (items.map string)

def orNull {α : Type} (f : α → Json) : Option α → Json
  | some a => f a
  | none => null

/-- Control characters, the quote and the backslash are escaped. -/
def escapeChar (c : Char) : List Char :=
  match c with
  | '"' => ['\\', '"']
  | '\\' => ['\\', '\\']
  | '\n' => ['\\', 'n']
  | '\r' => ['\\', 'r']
  | '\t' => ['\\', 't']
  | '\x08' => ['\\', 'b']
  | '\x0c' => ['\\', 'f']
  | c =>
    if c.toNat < 32 then '\\' :: 'u' :: (upperHex 4 c.toNat).map Char.toLower else [c]

def quoted (text : String) : String :=
  String.ofList ('"' :: (text.toList.flatMap escapeChar ++ ['"']))

/-- A number whose last digits, so many as there are places, stand after the point. -/
def fractionText (digits : Int) (places : Nat) : String :=
  let sign := if digits < 0 then ['-'] else []
  let all := (toString digits.natAbs).toList
  let padded := List.replicate (places + 1 - all.length) '0' ++ all
  let whole := padded.length - places
  String.ofList (sign ++ padded.take whole ++ '.' :: padded.drop whole)

def sortMembers (members : List (String × String)) : List (String × String) :=
  members.mergeSort fun a b => decide (a.1 ≤ b.1)

/-- A bracketed list on one line. -/
def onOneLine (opening closing : String) (items : List String) : String :=
  opening ++ String.intercalate "," items ++ closing

mutual

/-- The value on one line, without blanks. -/
def compact : Json → String
  | null => "null"
  | bool value => if value then "true" else "false"
  | number value => toString value
  | fraction digits places => fractionText digits places
  | string value => quoted value
  | array items => onOneLine "[" "]" (compactItems items)
  | object members =>
    onOneLine "\x7b" "\x7d"
      ((sortMembers (compactMembers members)).map fun (key, text) => quoted key ++ ":" ++ text)

def compactItems : List Json → List String
  | [] => []
  | j :: js => compact j :: compactItems js

def compactMembers : List (String × Json) → List (String × String)
  | [] => []
  | (key, j) :: rest => (key, compact j) :: compactMembers rest

end

/-- A bracketed list with each item on a line of its own, two blanks further in. -/
def onLines (depth : Nat) (opening closing : String) : List String → String
  | [] => opening ++ closing
  | items =>
    let margin := String.ofList (List.replicate (2 * depth) ' ')
    opening ++ "\n" ++ String.intercalate ",\n" (items.map fun item => margin ++ "  " ++ item) ++
      "\n" ++ margin ++ closing

mutual

/-- The value over several lines, at some depth of nesting. -/
def prettyAt (depth : Nat) : Json → String
  | array items => onLines depth "[" "]" (prettyItems (depth + 1) items)
  | object members =>
    onLines depth "\x7b" "\x7d"
      ((sortMembers (prettyMembers (depth + 1) members)).map fun (key, text) =>
        quoted key ++ ": " ++ text)
  | null => compact null
  | bool value => compact (bool value)
  | number value => compact (number value)
  | fraction digits places => compact (fraction digits places)
  | string value => compact (string value)

def prettyItems (depth : Nat) : List Json → List String
  | [] => []
  | j :: js => prettyAt depth j :: prettyItems depth js

def prettyMembers (depth : Nat) : List (String × Json) → List (String × String)
  | [] => []
  | (key, j) :: rest => (key, prettyAt depth j) :: prettyMembers depth rest

end

def pretty (j : Json) : String :=
  prettyAt 0 j

mutual

/-- How deep arrays and objects are nested. -/
def depth : Json → Nat
  | array items => depthItems items + 1
  | object members => depthMembers members + 1
  | _ => 0

def depthItems : List Json → Nat
  | [] => 0
  | j :: js => max (depth j) (depthItems js)

def depthMembers : List (String × Json) → Nat
  | [] => 0
  | (_, j) :: rest => max (depth j) (depthMembers rest)

end

end Json

end Schemata
