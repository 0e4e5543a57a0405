/-!
# Bytes as text and text as bytes

Hexadecimal is written in lower case with a fixed number of digits, text is encoded as
UTF-8, and machine words are stored with the low byte first.
-/

namespace ClassLang.Bytes

/-- The hexadecimal digit of `n % 16`. -/
def hexDigit (n : Nat) : Char := Nat.digitChar (n % 16)

/-- The last `width` hexadecimal digits of `n`, leading zeros included. -/
def hex (width n : Nat) : String :=
  String.ofList (go width n [])
where
  /-- Put the last `width` digits of `n` in front of `acc`. -/
  go : Nat → Nat → List Char → List Char
    | 0, _, acc => acc
    | width + 1, n, acc => go width (n / 16) (hexDigit n :: acc)

/-- The value of a hexadecimal digit. -/
def hexValue? (c : Char) : Option Nat :=
  if '0' ≤ c ∧ c ≤ '9' then some (c.toNat - '0'.toNat)
  else if 'a' ≤ c ∧ c ≤ 'f' then some (c.toNat - 'a'.toNat + 10)
  else if 'A' ≤ c ∧ c ≤ 'F' then some (c.toNat - 'A'.toNat + 10)
  else none

/-- The number that hexadecimal digits stand for. -/
def ofHex? (s : String) : Option Nat := do
  return (← s.toList.mapM hexValue?).foldl (16 * · + ·) 0

/-- Two digits for each byte, in order. -/
def hexDump (bytes : List UInt8) : String :=
  String.join (bytes.map fun b => hex 2 b.toNat)

/-- The UTF-8 encoding of `s`. -/
def utf8 (s : String) : List UInt8 := s.toList.flatMap String.utf8EncodeChar

/-- The eight bytes of a word, low byte first. -/
def littleEndian (w : UInt64) : List UInt8 :=
  (List.range 8).map fun i => (w >>> (8 * i).toUInt64).toUInt8

end ClassLang.Bytes
