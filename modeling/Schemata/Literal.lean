import Schemata.Text.Quoted

/-!
Constants, and the values a column takes when none is given.
-/

namespace Schemata

/-- A decimal keeps its digits as they were written. -/
inductive Literal where
  | null
  | integer (value : Int)
  | decimal (digits : String)
  | string (value : String)
  deriving DecidableEq, Repr

def Literal.text : Literal → String
  | null => "NULL"
  | integer value => toString value
  | decimal digits => digits
  | string value => quoteText value

inductive DefaultValue where
  | literal (value : Literal)
  | currentTimestamp
  deriving DecidableEq, Repr

def DefaultValue.text : DefaultValue → String
  | literal value => value.text
  | currentTimestamp => "CURRENT_TIMESTAMP"

end Schemata
