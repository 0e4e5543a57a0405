import ClassLang.Hash.Xxh64
import ClassLang.Text.Bytes

/-!
# Names as 64-bit keys

A class is known by a hash of its linkable name, so it can be referred to before its
declaration has been read. Lists of parameter types are hashed too, to tell overloads
apart: every position has its own marker, so that `(int, float)` and `(float, int)` differ.
-/

namespace ClassLang

/-- A 64-bit hash of a name or of a list of type spellings. -/
structure TypeHash where
  bits : UInt64
  deriving DecidableEq, Repr, Inhabited

namespace TypeHash

/-- Marks hashes of names. -/
def nameDomain : UInt64 := 0x2fac10b63a6cc57c

/-- Marks hashes of parameter lists. -/
def signatureDomain : UInt64 := 0x5ea77ffbcdf5f302

/-- Separates one parameter from the next. -/
def separator : UInt64 := 0x4bc94d6bd06053ad

/-- Markers of the first eight parameter positions. -/
def positionMarkers : List UInt64 :=
  [0x9e3779b97f4a7c15, 0xbf58476d1ce4e5b9, 0x94d049bb133111eb, 0xd6e8feb86659fd93,
   0xe7037ed1a0b428db, 0xc6a4a7935bd1e995, 0x8648dbbc94d49b8d, 0xa2b48b2c69e0d657]

/-- The marker of position `i`; later positions count on from the first marker. -/
def positionMarker (i : Nat) : UInt64 :=
  positionMarkers[i]?.getD (0x9e3779b97f4a7c15 + i.toUInt64)

/-- The unseeded digest of a text. -/
def digest (s : String) : UInt64 := Xxh64.digest 0 (Bytes.utf8 s)

/-- The hash of a name. -/
def ofName (name : String) : TypeHash := ⟨nameDomain ^^^ digest name⟩

/-- The hash of an ordered list of type spellings. -/
def ofSignature (types : List String) : TypeHash :=
  ⟨(types.zipIdx).foldl
    (fun h (ty, i) => h * separator + (positionMarker i ^^^ digest ty)) signatureDomain⟩

/-- Whether this is the zero hash. -/
def isEmpty (h : TypeHash) : Bool := h.bits == 0

/-- The eight digits that tell overloads apart: the two halves of the hash, combined. -/
def shortHex (h : TypeHash) : String :=
  Bytes.hex 8 ((h.bits >>> 32).toUInt32 ^^^ h.bits.toUInt32).toNat

/-- All sixteen digits, after `0x`. -/
def render (h : TypeHash) : String := "0x" ++ Bytes.hex 16 h.bits.toNat

/-- How a hash that names no registered class is shown. -/
def describe (h : TypeHash) : String := s!"TypeHash({h.render})"

end TypeHash

end ClassLang
