import Schemata.Text.Split

/-!
Lines of a text. A line ends at a line feed, a carriage return right before it belongs to the
ending, and a last line that is empty does not count.
-/

namespace Schemata

def stripReturn (line : List Char) : List Char :=
  match line.getLast? with
  | some '\r' => line.dropLast
  | _ => line

/-- The lines of a text; only a line that ends in a line feed loses its carriage return. -/
def textLines (text : String) : List String :=
  let parts := splitOnChar '\n' text.toList
  let ended := parts.dropLast.map fun line => String.ofList (stripReturn line)
  match parts.getLast? with
  | some [] => ended
  | some line => ended ++ [String.ofList line]
  | none => ended

end Schemata
