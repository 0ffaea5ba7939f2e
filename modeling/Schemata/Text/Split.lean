/-!
Cutting a text at a separator.
-/

namespace Schemata

/-- The pieces of a text between its separators; there is always at least one. -/
def splitOnChar (separator : Char) : List Char → List (List Char)
  | [] => [[]]
  | c :: cs =>
    if c = separator then [] :: splitOnChar separator cs
    else
      match splitOnChar separator cs with
      | [] => [[c]]
      | piece :: pieces => (c :: piece) :: pieces

theorem splitOnChar_ne_nil (separator : Char) (cs : List Char) : splitOnChar separator cs ≠ [] := by
  cases cs with
  | nil => simp [splitOnChar]
  | cons c cs =>
    simp only [splitOnChar]
    split
    · simp
    · split <;> simp

/-- The pieces of a string. -/
def splitText (separator : Char) (text : String) : List String :=
  (splitOnChar separator text.toList).map String.ofList

end Schemata
