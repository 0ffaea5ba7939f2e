/-!
Quoted texts: the quote is written twice inside, and two quotes in a row are read as one.
-/

namespace Schemata

/-- Every quote in the text is written twice. -/
def doubleQuotes (quote : Char) : List Char → List Char
  | [] => []
  | c :: cs => if c = quote then quote :: quote :: doubleQuotes quote cs
      else c :: doubleQuotes quote cs

/-- Every two quotes in a row are read as one. -/
def collapseQuotes (quote : Char) : List Char → List Char
  | [] => []
  | [c] => [c]
  | c :: d :: cs =>
    if c = quote ∧ d = quote then quote :: collapseQuotes quote cs
    else c :: collapseQuotes quote (d :: cs)

theorem collapseQuotes_doubleQuotes (quote : Char) (cs : List Char) :
    collapseQuotes quote (doubleQuotes quote cs) = cs := by
  induction cs with
  | nil => rfl
  | cons c cs ih =>
    by_cases h : c = quote
    · simp [doubleQuotes, collapseQuotes, h, ih]
    · cases hd : doubleQuotes quote cs with
      | nil => simp_all [doubleQuotes, collapseQuotes]
      | cons d ds => simp_all [doubleQuotes, collapseQuotes]

/-- The text between single quotes, with the quotes inside it doubled. -/
def quoteText (text : String) : String :=
  String.ofList ('\'' :: (doubleQuotes '\'' text.toList ++ ['\'']))

end Schemata
