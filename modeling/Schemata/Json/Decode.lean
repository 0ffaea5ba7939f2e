import Schemata.Json
import Schemata.SchemaError

/-!
Reading values out of JSON. For `need` and `want` a member that is missing and one that is null mean
the same. A record is given by its members or, in an array, by the values of its fields in order.
-/

namespace Schemata

/-- The JSON has another shape, or what it describes is refused by the schema model. -/
inductive DecodeError where
  | shape
  | invalid (error : SchemaError)
  deriving DecidableEq, Repr

abbrev Decoded := Except DecodeError

/-- A checked value of the model. -/
def Decoded.ofSchema {α : Type} : Except SchemaError α → Decoded α
  | .ok a => .ok a
  | .error e => .error (.invalid e)

namespace Json

/-- The member with that key, null or not. -/
def present? (j : Json) (key : String) : Option Json :=
  match j with
  | object members => members.lookup key
  | _ => none

def member? (j : Json) (key : String) : Option Json :=
  match j.present? key with
  | some null => none
  | found => found

def asString : Json → Decoded String
  | string s => .ok s
  | _ => .error .shape

def asBool : Json → Decoded Bool
  | bool b => .ok b
  | _ => .error .shape

def asIntIn (least greatest : Int) : Json → Decoded Int
  | number n => if least ≤ n ∧ n ≤ greatest then .ok n else .error .shape
  | _ => .error .shape

/-- A number that fits into an unsigned word of that many bits. -/
def asWord (bits : Nat) (j : Json) : Decoded Nat :=
  Int.toNat <$> asIntIn 0 (Nat.pow 2 bits - 1) j

def asList {α : Type} (item : Json → Decoded α) : Json → Decoded (List α)
  | array items => items.mapM item
  | _ => .error .shape

def asPair {α β : Type} (first : Json → Decoded α) (second : Json → Decoded β) :
    Json → Decoded (α × β)
  | array [a, b] => do return (← first a, ← second b)
  | _ => .error .shape

/-- All members of an object, in the same form. -/
def asMembers {α : Type} (read : Json → Decoded α) : Json → Decoded (List (String × α))
  | object members => members.mapM fun (key, value) => do return (key, ← read value)
  | _ => .error .shape

/-- The member that has to be there. -/
def need {α : Type} (read : Json → Decoded α) (j : Json) (key : String) : Decoded α :=
  match j.member? key with
  | some v => read v
  | none => .error .shape

/-- The member that may be missing. -/
def want {α : Type} (read : Json → Decoded α) (j : Json) (key : String) : Decoded (Option α) :=
  match j.member? key with
  | some v => some <$> read v
  | none => .ok none

def wantList {α : Type} (read : Json → Decoded α) (j : Json) (key : String) : Decoded (List α) := do
  return (← want (asList read) j key).getD []

def wantFlag (j : Json) (key : String) (fallback : Bool) : Decoded Bool := do
  return (← want asBool j key).getD fallback

/-- The member that may be missing, but is a list if it is there. -/
def listIfPresent {α : Type} (read : Json → Decoded α) (j : Json) (key : String) :
    Decoded (List α) :=
  match j.present? key with
  | some v => asList read v
  | none => .ok []

/-- The members of a record. An array has the values of its fields, of which at least the first
`least` are needed. -/
def asRecord (fields : List String) (least : Nat) : Json → Decoded Json
  | object members => .ok (object members)
  | array items =>
    if least ≤ items.length ∧ items.length ≤ fields.length then .ok (object (fields.zip items))
    else .error .shape
  | _ => .error .shape

/-- The one of the values that has the code. -/
def byCode {α : Type} (all : List α) (code : α → String) (text : String) : Decoded α :=
  match all.find? fun a => code a == text with
  | some a => .ok a
  | none => .error .shape

/-- Whether nothing is said: by null, and inside a tagged record also by an object without
members. -/
def isVoid (nested : Bool) : Json → Bool
  | null => true
  | object [] => nested
  | _ => false

/-- A code, which may also be the only key of an object with nothing under it. -/
def asCode (nested : Bool) : Json → Decoded String
  | string text => .ok text
  | object [(text, content)] => if content.isVoid nested then .ok text else .error .shape
  | _ => .error .shape

/-- One of the values, by its code. -/
def asOneOf {α : Type} (nested : Bool) (all : List α) (code : α → String) (j : Json) :
    Decoded α := do
  byCode all code (← asCode nested j)

/-- A record with a tag: the tag and the record. In an array the tag comes first. -/
def asTagged (readTag : Json → Decoded String) (tag : String) : Json → Decoded (String × Json)
  | object members => do return (← need readTag (object members) tag, object members)
  | array (first :: items) => do return (← readTag first, array items)
  | _ => .error .shape

/-- A tag, which inside another tagged record may be the number of its place in a list. -/
def asTag (nested : Bool) (tags : List String) : Json → Decoded String
  | string text => .ok text
  | number n =>
    match tags.drop n.toNat with
    | text :: _ => if nested && decide (0 ≤ n) then .ok text else .error .shape
    | [] => .error .shape
  | _ => .error .shape

/-- A tag and what it is about, which only an object may leave out. In an array one follows the
other. -/
def asTagAndContent (nested : Bool) (tag content : String) : Json → Decoded (String × Option Json)
  | object members => do
    return (← need (asCode nested) (object members) tag, members.lookup content)
  | array [first, second] => do return (← asCode nested first, some second)
  | _ => .error .shape

/-- What a tag is about. -/
def content {α : Type} (read : Json → Decoded α) : Option Json → Decoded α
  | some j => read j
  | none => .error .shape

/-- The value of a tag that is about nothing. -/
def noContent {α : Type} (value : α) : Option Json → Decoded α
  | none | some null => .ok value
  | some _ => .error .shape

/-- A member that is left out when there is no value. -/
def memberIfAny {α : Type} (key : String) (f : α → Json) : Option α → List (String × Json)
  | some a => [(key, f a)]
  | none => []

/-- A member that is left out when there are no values. -/
def membersIfAny {α : Type} (key : String) (f : α → Json) : List α → List (String × Json)
  | [] => []
  | items => [(key, array (items.map f))]

end Json

end Schemata
