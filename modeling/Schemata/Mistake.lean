import Schemata.Hint
import Schemata.SchemaError
import Schemata.Token

/-!
Mistakes in a source text: what is wrong, and where.
-/

namespace Schemata

inductive ArtifactKind where
  | table
  | view
  | statement
  deriving DecidableEq, Repr

def ArtifactKind.text : ArtifactKind → String
  | table => "table"
  | view => "view"
  | statement => "statement"

inductive Fault where
  | invalidToken (text : String)
  | unexpectedToken (expected found : String)
  | unexpectedEnd (expected : String)
  | invalidInteger (text : String)
  | unknownDialect (name : String)
  | unknownHint (key : String)
  | misplacedHint (key : HintKey) (target : HintTarget)
  | missingHintValue (key : HintKey)
  | unexpectedHintValue (key : HintKey)
  | duplicate (kind : ArtifactKind) (name : String)
  | invalidSchema (error : SchemaError)
  deriving DecidableEq, Repr

structure Mistake where
  fault : Fault
  span : Span
  deriving DecidableEq, Repr

/-- The message with its place; the end of the input needs none. -/
def Mistake.message (m : Mistake) : String :=
  let place := m.span.text
  match m.fault with
  | .invalidToken text => "invalid token '" ++ text ++ "' at " ++ place
  | .unexpectedToken expected found =>
    "unexpected token at " ++ place ++ ": expected " ++ expected ++ ", found " ++ found
  | .unexpectedEnd expected => "unexpected end of input: expected " ++ expected
  | .invalidInteger text =>
    "invalid integer literal '" ++ text ++ "' at " ++ place ++ ": value out of range"
  | .unknownDialect name => "unknown dialect '" ++ name ++ "' at " ++ place
  | .unknownHint key => "unknown hint '" ++ key ++ "' at " ++ place
  | .misplacedHint key target =>
    "hint '" ++ key.keyword ++ "' at " ++ place ++ " is not allowed on a " ++ target.text
  | .missingHintValue key =>
    "hint '" ++ key.keyword ++ "' at " ++ place ++ " requires a value: " ++ key.keyword ++
      " = '...'"
  | .unexpectedHintValue key =>
    "hint '" ++ key.keyword ++ "' at " ++ place ++ " does not take a value"
  | .duplicate kind name => "duplicate " ++ kind.text ++ " '" ++ name ++ "' at " ++ place
  | .invalidSchema error => "schema validation error at " ++ place ++ ": " ++ error.message

end Schemata
