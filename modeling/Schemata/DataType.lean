import Schemata.SchemaError

/-!
Column types of the schema language.
-/

namespace Schemata

inductive DataType where
  | bit
  | integer
  | bigInt
  | float
  | decimal (precision scale : Nat)
  | number (precision scale : Option Nat)
  | char (length : Nat)
  | varchar (length : Nat)
  | clob
  | date
  | time
  | dateTime
  | blob
  deriving DecidableEq, Repr

/-- Types of one family convert into each other; only length or precision can be lost. -/
inductive TypeFamily where
  | numeric
  | character
  | temporal
  | largeCharacter
  | binary
  deriving DecidableEq, Repr

namespace DataType

/-- A decimal whose scale does not exceed its precision. -/
def decimal? (precision scale : Nat) : Except SchemaError DataType :=
  if precision < scale then .error (.invalidScale precision scale)
  else .ok (.decimal precision scale)

def varchar? (length : Nat) : Except SchemaError DataType :=
  if length = 0 then .error (.invalidLength length) else .ok (.varchar length)

def char? (length : Nat) : Except SchemaError DataType :=
  if length = 0 then .error (.invalidLength length) else .ok (.char length)

def family : DataType → TypeFamily
  | bit | integer | bigInt | float | decimal _ _ | number _ _ => .numeric
  | char _ | varchar _ => .character
  | date | time | dateTime => .temporal
  | clob => .largeCharacter
  | blob => .binary

def length? : DataType → Option Nat
  | char length | varchar length => some length
  | _ => none

def isLob : DataType → Bool
  | clob | blob => true
  | _ => false

/-- One of `name`, `name(p)` and `name(p, s)`; a scale without a precision is not written. -/
def numericText (name : String) (precision scale : Option Nat) : String :=
  match precision, scale with
  | some p, some s => name ++ "(" ++ toString p ++ ", " ++ toString s ++ ")"
  | some p, none => name ++ "(" ++ toString p ++ ")"
  | none, _ => name

/-- The type as the schema language writes it. -/
def text : DataType → String
  | bit => "BIT"
  | integer => "INTEGER"
  | bigInt => "BIGINT"
  | float => "FLOAT"
  | decimal p s => numericText "DECIMAL" (some p) (some s)
  | number p s => numericText "NUMBER" p s
  | char n => "CHAR(" ++ toString n ++ ")"
  | varchar n => "VARCHAR(" ++ toString n ++ ")"
  | clob => "CLOB"
  | date => "DATE"
  | time => "TIME"
  | dateTime => "DATETIME"
  | blob => "BLOB"

end DataType

end Schemata
