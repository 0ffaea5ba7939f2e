import Schemata.Text.Split

/-!
The values of TOML that are neither strings nor collections: Boolean values, integers, fractions,
dates and times.
-/

namespace Schemata.Toml

/-- Digits with single underscores between them. -/
def isDigitGroups (isDigit : Char → Bool) (cs : List Char) : Bool :=
  (splitOnChar '_' cs).all fun group => !group.isEmpty && group.all isDigit

/-- The characters after a sign, if there is one. -/
def unsigned : List Char → List Char
  | '+' :: cs | '-' :: cs => cs
  | cs => cs

/-- A decimal number without needless zeros in front. -/
def isDecimal (cs : List Char) : Bool :=
  isDigitGroups Char.isDigit cs && (cs.head? != some '0' || cs.length == 1)

def digitValue (c : Char) : Nat :=
  if c.isDigit then c.toNat - '0'.toNat
  else if c.isLower then c.toNat - 'a'.toNat + 10
  else c.toNat - 'A'.toNat + 10

def numeral (base : Nat) (cs : List Char) : Nat :=
  (cs.filter (· != '_')).foldl (fun n c => base * n + digitValue c) 0

def isBased (base : Nat) (cs : List Char) : Bool :=
  isDigitGroups (fun c => c.isAlphanum && decide (digitValue c < base)) cs &&
    decide (numeral base cs < 0x8000000000000000)

/-- An integer of 64 bits. -/
def isInteger : List Char → Bool
  | '0' :: 'x' :: cs => isBased 16 cs
  | '0' :: 'o' :: cs => isBased 8 cs
  | '0' :: 'b' :: cs => isBased 2 cs
  | '-' :: cs => isDecimal cs && decide (numeral 10 cs ≤ 0x8000000000000000)
  | cs => isDecimal (unsigned cs) && decide (numeral 10 (unsigned cs) < 0x8000000000000000)

/-- A part of a list up to the first element with a property, and the rest from there. -/
def cutAt (stop : Char → Bool) (cs : List Char) : List Char × List Char :=
  (cs.takeWhile fun c => !stop c, cs.dropWhile fun c => !stop c)

def isExponentMark (c : Char) : Bool :=
  c == 'e' || c == 'E'

/-- The least number that is rounded to infinity: half a unit in the last place above the largest
float of 64 bits. -/
def floatBound : Nat := 0x3fffffffffffff <<< 970

/-- Whether digits times a power of ten stay below the bound. One digit that is not zero is above it
with 309 zeros behind, and no digits reach one if the point is moved over all of them, so that
powers further out make no difference. -/
def isBelowFloatBound (digits : List Char) (power : Int) : Bool :=
  let power := max (-(digits.length : Int)) (min 309 power)
  decide (numeral 10 digits * Nat.pow 10 power.toNat < floatBound * Nat.pow 10 (-power).toNat)

/-- The number after the mark of an exponent; without a mark it is zero. -/
def exponentValue (power : List Char) : Int :=
  match power.drop 1 with
  | '-' :: cs => -(numeral 10 cs : Int)
  | cs => numeral 10 (unsigned cs)

/-- A fraction or a power of ten. One that is too large for a float of 64 bits needs a minus
sign. -/
def isFloat (cs : List Char) : Bool :=
  let body := unsigned cs
  let (mantissa, power) := cutAt isExponentMark body
  let (whole, fraction) := cutAt (· == '.') mantissa
  let places := (fraction.drop 1).filter (· != '_')
  body == ['i', 'n', 'f'] || body == ['n', 'a', 'n'] ||
    isDecimal whole && !(fraction.isEmpty && power.isEmpty) &&
      (fraction.isEmpty || isDigitGroups Char.isDigit (fraction.drop 1)) &&
      (power.isEmpty || isDigitGroups Char.isDigit (unsigned (power.drop 1))) &&
      (cs.head? == some '-' ||
        isBelowFloatBound (whole ++ places) (exponentValue power - places.length))

/-- A number of two digits between bounds. -/
def isPair (low high : Nat) (tens units : Char) : Bool :=
  tens.isDigit && units.isDigit &&
    decide (low ≤ numeral 10 [tens, units]) && decide (numeral 10 [tens, units] ≤ high)

def isLeapYear (year : Nat) : Bool :=
  year % 4 == 0 && (year % 100 != 0 || year % 400 == 0)

def daysInMonth (year month : Nat) : Nat :=
  if month = 2 then (if isLeapYear year then 29 else 28)
  else if month ∈ [4, 6, 9, 11] then 30
  else 31

/-- Reads over a date at the start. -/
def afterDate? : List Char → Option (List Char)
  | y₁ :: y₂ :: y₃ :: y₄ :: '-' :: m₁ :: m₂ :: '-' :: d₁ :: d₂ :: rest =>
    let year := [y₁, y₂, y₃, y₄]
    if year.all Char.isDigit && isPair 1 12 m₁ m₂ &&
        isPair 1 (daysInMonth (numeral 10 year) (numeral 10 [m₁, m₂])) d₁ d₂ then
      some rest
    else none
  | _ => none

/-- Reads over a time at the start. -/
def afterTime? : List Char → Option (List Char)
  | h₁ :: h₂ :: ':' :: m₁ :: m₂ :: ':' :: s₁ :: s₂ :: rest =>
    if isPair 0 23 h₁ h₂ && isPair 0 59 m₁ m₂ && isPair 0 60 s₁ s₂ then
      match rest with
      | '.' :: c :: cs => if c.isDigit then some (cs.dropWhile Char.isDigit) else none
      | _ => some rest
    else none
  | _ => none

def isOffset : List Char → Bool
  | [] | ['Z'] | ['z'] => true
  | [sign, h₁, h₂, ':', m₁, m₂] =>
    (sign == '+' || sign == '-') && isPair 0 23 h₁ h₂ && isPair 0 59 m₁ m₂
  | _ => false

/-- A time alone, a date alone, or both with an offset that may be left out. -/
def isDateTime (cs : List Char) : Bool :=
  afterTime? cs == some [] ||
    match afterDate? cs with
    | none => false
    | some [] => true
    | some (c :: rest) =>
      (c == 'T' || c == 't' || c == ' ') && ((afterTime? rest).map isOffset).getD false

def isPlain (cs : List Char) : Bool :=
  cs == "true".toList || cs == "false".toList || isInteger cs || isFloat cs || isDateTime cs

def isPlainChar (c : Char) : Bool :=
  c.isAlphanum || c ∈ ['+', '-', '.', '_', ':']

/-- The characters of a plain value at the start, and the rest. Only between a date and a time there
is a blank. -/
def takePlain (cs : List Char) : List Char × List Char :=
  let word := cs.takeWhile isPlainChar
  match afterDate? word, cs.dropWhile isPlainChar with
  | some [], ' ' :: c :: rest =>
    if c.isDigit then
      (word ++ ' ' :: (c :: rest).takeWhile isPlainChar, (c :: rest).dropWhile isPlainChar)
    else (word, ' ' :: c :: rest)
  | _, rest => (word, rest)

end Schemata.Toml
