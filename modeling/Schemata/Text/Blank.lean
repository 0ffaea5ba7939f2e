/-!
White space as the character standard lists it, and texts with none at either end.
-/

namespace Schemata

/-- The characters with the property `White_Space`. -/
def isBlank (c : Char) : Bool :=
  let n := c.toNat
  (9 ≤ n && n ≤ 13) || n == 0x20 || n == 0x85 || n == 0xA0 || n == 0x1680 ||
    (0x2000 ≤ n && n ≤ 0x200A) || n == 0x2028 || n == 0x2029 || n == 0x202F || n == 0x205F ||
    n == 0x3000

/-- The text without the white space at its two ends. -/
def trimBlank (text : String) : String :=
  String.ofList ((text.toList.dropWhile isBlank).reverse.dropWhile isBlank).reverse

/-- The text with every ASCII capital letter made small. -/
def lowerAscii (text : String) : String :=
  text.map Char.toLower

/-- The text with every ASCII small letter made capital. -/
def upperAscii (text : String) : String :=
  text.map Char.toUpper

end Schemata
