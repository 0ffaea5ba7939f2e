/-!
A 32-bit fingerprint of a text and its hexadecimal form.
-/

namespace Schemata

/-- FNV-1a over the UTF-8 bytes: each byte is mixed in by exclusive or, then multiplied through. -/
def fingerprint (text : String) : UInt32 :=
  text.toUTF8.data.toList.foldl (fun hash byte => (hash ^^^ byte.toUInt32) * 16777619) 2166136261

/-- The last `width` hexadecimal digits, in upper case. -/
def upperHex : Nat → Nat → List Char
  | 0, _ => []
  | width + 1, n => upperHex width (n / 16) ++ [(Nat.digitChar (n % 16)).toUpper]

/-- The fingerprint as eight digits. -/
def fingerprintText (text : String) : String :=
  String.ofList (upperHex 8 (fingerprint text).toNat)

end Schemata
