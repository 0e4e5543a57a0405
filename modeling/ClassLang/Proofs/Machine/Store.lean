import ClassLang.Code.Operand
import ClassLang.Text.Bytes
import ClassLang.Ty.Basic
import Mathlib.Algebra.Group.Int.Defs
import Mathlib.Algebra.GroupWithZero.Nat

/-!
# Storage of the machine

The machine addresses bytes, and a place that is known when the program is compiled is the
address of its first byte. Words are stored with the low byte first. A scalar value is looked at
as a signed word: `char` and `byte` are a single byte, which is filled up with zeros. A register
holds a place, wherever it is.
-/

namespace ClassLang

namespace Address

/-- How many bytes `b` is behind `a`, in the same segment. -/
def distance? : Address → Address → Option Nat
  | frame n, frame k | global n, global k | literal n, literal k =>
    if n ≤ k then some (k - n) else none
  | _, _ => none

theorem distance?_shift (a : Address) (i : Nat) : a.distance? (a.shift i) = some i := by
  cases a <;> simp [distance?, shift]

theorem eq_shift_of_distance? {a b : Address} {i : Nat} (h : a.distance? b = some i) :
    b = a.shift i := by
  unfold distance? at h
  split at h
  all_goals first
    | cases h
    | (split at h
       · injection h with h
         rw [shift]
         congr 1
         omega
       · cases h)

theorem shift_injective (a : Address) {i j : Nat} (h : a.shift i = a.shift j) : i = j := by
  have hi := a.distance?_shift i
  rw [h, a.distance?_shift j] at hi
  injection hi with hi
  exact hi.symm

end Address

/-! ## Words -/

namespace Bytes

/-- The number that some bytes stand for, low byte first. -/
def toNat : List UInt8 → Nat
  | [] => 0
  | b :: bs => b.toNat + 256 * toNat bs

/-- The signed word that at most eight bytes stand for, filled up with zeros. -/
def word (bs : List UInt8) : Int64 := (UInt64.ofNat (toNat bs)).toInt64

theorem littleEndian_eq (w : UInt64) : littleEndian w =
    [(w >>> 0).toUInt8, (w >>> 8).toUInt8, (w >>> 16).toUInt8, (w >>> 24).toUInt8,
      (w >>> 32).toUInt8, (w >>> 40).toUInt8, (w >>> 48).toUInt8, (w >>> 56).toUInt8] := rfl

theorem length_littleEndian (w : UInt64) : (littleEndian w).length = 8 := rfl

/-- The eight bytes of a word stand for the word. -/
theorem toNat_littleEndian (w : UInt64) : toNat (littleEndian w) = w.toNat := by
  have hlt := w.toNat_lt
  simp only [littleEndian_eq, toNat, UInt64.toNat_toUInt8, UInt64.toNat_shiftRight,
    Nat.shiftRight_eq_div_pow, UInt64.toNat_ofNat, Nat.reduceMod, Nat.reducePow]
  omega

theorem toNat_lt (bs : List UInt8) : toNat bs < 256 ^ bs.length := by
  induction bs with
  | nil => decide
  | cons b bs ih =>
    have hb := b.toNat_lt
    rw [toNat, List.length_cons, Nat.pow_succ]
    omega

/-- Up to eight bytes are not cut off. -/
theorem toNat_word {bs : List UInt8} (h : bs.length ≤ 8) :
    (word bs).toUInt64.toNat = toNat bs := by
  have hlt := Nat.lt_of_lt_of_le (toNat_lt bs) (Nat.pow_le_pow_right (by decide) h)
  rw [word, UInt64.toUInt64_toInt64, UInt64.toNat_ofNat']
  exact Nat.mod_eq_of_lt hlt

theorem word_littleEndian (v : Int64) : word (littleEndian v.toUInt64) = v := by
  unfold word
  rw [toNat_littleEndian, UInt64.ofNat_toNat, Int64.toInt64_toUInt64]

end Bytes

namespace Prim

/-- The bytes of a scalar value. -/
def encode (p : Prim) (v : Int64) : List UInt8 := (Bytes.littleEndian v.toUInt64).take p.size

/-- A value as far as the scalar type can hold it. -/
def fit (p : Prim) (v : Int64) : Int64 := Bytes.word (p.encode v)

theorem size_le (p : Prim) : p.size ≤ 8 := by
  cases p <;> decide

theorem length_encode (p : Prim) (v : Int64) : (p.encode v).length = p.size := by
  rw [encode, List.length_take, Bytes.length_littleEndian]
  exact Nat.min_eq_left p.size_le

@[simp]
theorem fit_int (v : Int64) : fit .int v = v := Bytes.word_littleEndian v

/-- A scalar type holds what fits into its bytes. -/
theorem fit_word {p : Prim} (hp : p.isIntegral = true) {bs : List UInt8}
    (h : bs.length ≤ p.size) : p.fit (Bytes.word bs) = Bytes.word bs := by
  have hbyte : bs.length ≤ 1 →
      Bytes.word [(Bytes.word bs).toUInt64.toUInt8] = Bytes.word bs := by
    intro h
    have hlt := Nat.lt_of_lt_of_le (Bytes.toNat_lt bs) (Nat.pow_le_pow_right (by decide) h)
    have hnat := Bytes.toNat_word (Nat.le_trans h (by decide : 1 ≤ 8))
    unfold Bytes.word at hnat ⊢
    simp only [Bytes.toNat, UInt64.toNat_toUInt8, hnat]
    congr 2
    omega
  cases p with
  | void => cases hp
  | float => cases hp
  | int => exact fit_int _
  | char => exact hbyte h
  | byte => exact hbyte h

end Prim

/-! ## Reading and writing -/

/-- What every byte holds, and where every register points to. -/
@[ext]
structure Store where
  bytes : Address → UInt8
  registers : Register → Address

namespace Store

instance : CoeFun Store fun _ => Address → UInt8 := ⟨bytes⟩

/-- Write bytes one after another. -/
def write (m : Store) (a : Address) (bs : List UInt8) : Store where
  bytes b := ((a.distance? b).bind (bs[·]?)).getD (m b)
  registers := m.registers

/-- Let a register point to a place. -/
def point (m : Store) (reg : Register) (a : Address) : Store where
  bytes := m.bytes
  registers k := if k = reg then a else m.registers k

/-- The bytes from an address on. -/
def read (m : Store) (a : Address) (n : Nat) : List UInt8 :=
  (List.range n).map fun i => m (a.shift i)

/-- A scalar value. -/
def value (m : Store) (p : Prim) (a : Address) : Int64 := Bytes.word (m.read a p.size)

/-- A word. -/
def word (m : Store) (a : Address) : Int64 := m.value .int a

theorem write_apply (m : Store) (a b : Address) (bs : List UInt8) :
    m.write a bs b = ((a.distance? b).bind (bs[·]?)).getD (m b) := rfl

theorem write_inside (m : Store) (a : Address) {bs : List UInt8} {i : Nat} (h : i < bs.length) :
    m.write a bs (a.shift i) = bs[i] := by
  rw [write_apply, a.distance?_shift]
  simp [h]

theorem write_outside (m : Store) {a b : Address} {bs : List UInt8}
    (h : ∀ i < bs.length, b ≠ a.shift i) : m.write a bs b = m b := by
  rw [write_apply]
  cases hd : a.distance? b with
  | none => rfl
  | some i =>
    have hi : ¬i < bs.length := fun hi => h i hi (Address.eq_shift_of_distance? hd)
    simp [hi]

theorem length_read (m : Store) (a : Address) (n : Nat) : (m.read a n).length = n := by
  simp [read]

/-- What was written is read. -/
theorem read_write (m : Store) (a : Address) (bs : List UInt8) :
    (m.write a bs).read a bs.length = bs := by
  refine List.ext_getElem (length_read ..) ?_
  intro i _ hi
  simp only [read, List.getElem_map, List.getElem_range]
  exact m.write_inside a hi

theorem read_congr {m m' : Store} {a : Address} {n : Nat}
    (h : ∀ i < n, m' (a.shift i) = m (a.shift i)) : m'.read a n = m.read a n := by
  refine List.map_congr_left ?_
  intro i hi
  exact h i (List.mem_range.mp hi)

theorem take_read (m : Store) (a : Address) (n k : Nat) :
    (m.read a n).take k = m.read a (min k n) := by
  rw [read, read, ← List.map_take, List.take_range]

/-- Writing what is there changes nothing. -/
theorem write_read (m : Store) (a : Address) (n : Nat) : m.write a (m.read a n) = m := by
  refine Store.ext (funext fun b => ?_) rfl
  by_cases h : ∃ i < n, b = a.shift i
  · obtain ⟨i, hi, rfl⟩ := h
    rw [write_inside _ _ (by rw [length_read]; exact hi)]
    simp [read]
  · refine write_outside _ ?_
    intro i hi heq
    rw [length_read] at hi
    exact h ⟨i, hi, heq⟩

/-- Writing over zeros. -/
theorem read_write_zeros (m : Store) (a : Address) (bs : List UInt8) (n : Nat) :
    ((m.write a (List.replicate n 0)).write a bs).read a n =
      (bs ++ List.replicate n 0).take n := by
  refine List.ext_getElem (by simp [read]) ?_
  intro i hi _
  rw [length_read] at hi
  simp only [read, List.getElem_map, List.getElem_range, List.getElem_take]
  by_cases hlt : i < bs.length
  · rw [write_inside _ _ hlt, List.getElem_append_left hlt]
  · rw [write_outside, write_inside _ _ (by simpa using hi),
      List.getElem_append_right (Nat.le_of_not_lt hlt)]
    · simp
    · intro j hj heq
      exact hlt (a.shift_injective heq ▸ hj)

theorem value_congr {m m' : Store} {p : Prim} {a : Address}
    (h : ∀ i < p.size, m' (a.shift i) = m (a.shift i)) : m'.value p a = m.value p a := by
  unfold value
  rw [read_congr h]

/-- A value that was written is read as far as its type can hold it. -/
theorem value_write_encode (m : Store) (p : Prim) (a : Address) (v : Int64) :
    (m.write a (p.encode v)).value p a = p.fit v := by
  have hread := m.read_write a (p.encode v)
  rw [p.length_encode v] at hread
  rw [value, hread]
  rfl

/-- A scalar type holds the values of every type that is not larger. -/
theorem fit_value (m : Store) {p q : Prim} (a : Address) (hq : q.isIntegral = true)
    (h : p.size ≤ q.size) : q.fit (m.value p a) = m.value p a :=
  Prim.fit_word hq (by rw [length_read]; exact h)

end Store

end ClassLang
