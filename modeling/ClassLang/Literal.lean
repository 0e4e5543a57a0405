import ClassLang.Text.Bytes

/-!
# Literal values

Integers are signed 64-bit words, floats are kept as their IEEE-754 bits, characters are
single bytes. Two literals share storage when their keys agree. The key of a float is
coarser than its bits: all NaNs have one key, and so do the two zeros.
-/

namespace ClassLang

/-- The value of a literal. -/
inductive Literal where
  | int (value : Int64)
  | float (bits : UInt64)
  | char (value : UInt8)
  | str (value : String)
  deriving DecidableEq

namespace Literal

/-- Whether the bits are those of a NaN: all exponent bits set and a non-zero fraction. -/
def isNaN (bits : UInt64) : Bool := bits &&& 0x7fffffffffffffff > 0x7ff0000000000000

/-- The float that stands for `bits` when floats are compared as numbers. -/
def canonicalFloat (bits : UInt64) : UInt64 :=
  if isNaN bits then 0x7ff8000000000000
  else if bits == 0x8000000000000000 then 0
  else bits

/-- What decides whether two literals share storage. -/
def key : Literal → Literal
  | float bits => float (canonicalFloat bits)
  | other => other

/-- The stored bytes; a string is its byte length in eight bytes, then its UTF-8 text. -/
def encode : Literal → List UInt8
  | int value => Bytes.littleEndian value.toUInt64
  | float bits => Bytes.littleEndian bits
  | char value => [value]
  | str value => Bytes.littleEndian (Bytes.utf8 value).length.toUInt64 ++ Bytes.utf8 value

end Literal

end ClassLang
