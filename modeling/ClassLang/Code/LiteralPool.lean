import ClassLang.Code.Operand
import ClassLang.Literal
import ClassLang.Table

/-!
# The literal pool

Literals are stored once: a literal whose key is already there gets the place of the first
one. Bytes are only ever appended.
-/

namespace ClassLang

/-- The stored bytes, and where each literal starts. -/
structure LiteralPool where
  bytes : Array UInt8
  offsets : Table Literal Nat

namespace LiteralPool

def empty : LiteralPool := ⟨#[], .empty⟩

/-- The place of a literal, which is stored if its key is new. -/
def intern (p : LiteralPool) (l : Literal) : Address × LiteralPool :=
  match p.offsets.find? l.key with
  | some offset => (.literal offset, p)
  | none =>
    let offset := p.bytes.size
    (.literal offset, ⟨p.bytes ++ l.encode.toArray, p.offsets.insert l.key offset⟩)

/-- The whole pool in hexadecimal. -/
def hex (p : LiteralPool) : String := Bytes.hexDump p.bytes.toList

end LiteralPool

end ClassLang
