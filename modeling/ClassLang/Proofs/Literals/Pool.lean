import ClassLang.Proofs.Machine.Literals
import ClassLang.Proofs.Safety.Access

/-!
# The literal pool over a whole compilation

Literals are stored one after the other, and each of them gets a place. The bytes at a place are
those of the first literal with the same key, since bytes are only ever appended, and places of
different keys do not overlap. The key of an integer, a character or a string is the literal itself,
so for these the pool is exact: equal literals share a place, all others are apart, and what is
stored is the literal at any later time.
-/

namespace ClassLang

namespace Bytes

/-- The encoding is that of the standard library. -/
theorem utf8_eq (s : String) : utf8 s = s.toUTF8.data.toList := by
  have hs : s.toUTF8 = s.toList.utf8Encode := by
    rw [← String.toByteArray_ofList, String.ofList_toList]
    rfl
  rw [hs, List.utf8Encode, List.data_toByteArray]
  rfl

theorem length_utf8 (s : String) : (utf8 s).length = s.utf8ByteSize := by
  rw [utf8_eq]
  exact String.size_toByteArray

end Bytes

namespace Literal

/-! ## How a literal is stored -/

def isFloat : Literal → Bool
  | float _ => true
  | _ => false

/-- The number of bytes that a literal takes. -/
def size : Literal → Nat
  | int _ | float _ => 8
  | char _ => 1
  | str value => 8 + value.utf8ByteSize

/-- What the bytes of a literal have to be: numbers are in eight bytes with the low byte first, a
character is one byte, and a string is the length of its UTF-8 text as a number, then that text. -/
def Written : Literal → List UInt8 → Prop
  | int value, bs => bs.length = 8 ∧ Bytes.word bs = value
  | float bits, bs => bs.length = 8 ∧ Bytes.toNat bs = bits.toNat
  | char value, bs => bs = [value]
  | str value, bs => ∃ length, bs = length ++ value.toUTF8.data.toList ∧ length.length = 8 ∧
      Bytes.toNat length = value.utf8ByteSize

theorem length_encode (l : Literal) : l.encode.length = l.size := by
  cases l with
  | int | float | char => rfl
  | str value => rw [encode, List.length_append, Bytes.length_utf8]; rfl

theorem size_pos (l : Literal) : 0 < l.size := by
  cases l <;> simp only [size] <;> omega

theorem size_key (l : Literal) : l.key.size = l.size := by
  cases l <;> rfl

/-- A string has to be short enough for its length to fit into a word. -/
theorem written_encode {l : Literal} (h : l.size < 2 ^ 64) : l.Written l.encode := by
  cases l with
  | int value => exact ⟨rfl, Bytes.word_littleEndian value⟩
  | float bits => exact ⟨rfl, Bytes.toNat_littleEndian bits⟩
  | char value => rfl
  | str value =>
    refine ⟨_, by rw [encode, Bytes.utf8_eq], rfl, ?_⟩
    have hlt : value.utf8ByteSize < 2 ^ 64 := by
      have h : 8 + value.utf8ByteSize < 2 ^ 64 := h
      omega
    rw [Bytes.toNat_littleEndian, ← Bytes.utf8_eq, Bytes.length_utf8]
    exact Nat.mod_eq_of_lt hlt

theorem key_of_not_isFloat {l : Literal} (h : l.isFloat = false) : l.key = l := by
  cases l <;> first | rfl | cases h

/-- Nothing but the literal itself has the key of an integer, a character or a string. -/
theorem eq_of_key_eq {k l : Literal} (hl : l.isFloat = false) (h : k.key = l.key) : k = l := by
  rw [key_of_not_isFloat hl] at h
  cases k with
  | float bits =>
    rw [← h] at hl
    cases hl
  | int | char | str => exact h

end Literal

namespace LiteralPool

open Literal

variable {p : LiteralPool} {ls : List Literal} {k l : Literal} {o : Nat}

/-! ## Storing one literal after the other -/

/-- The pool after some literals were stored. -/
def internAll (p : LiteralPool) (ls : List Literal) : LiteralPool :=
  ls.foldl (fun p l => (p.intern l).2) p

/-- The literals that are stored, each with the place that it gets. -/
def calls (p : LiteralPool) : List Literal → List (Literal × Address)
  | [] => []
  | l :: ls => (l, (p.intern l).1) :: calls (p.intern l).2 ls

/-- The pool after some literals were stored, and no others before. -/
def stored (ls : List Literal) : LiteralPool := internAll .empty ls

/-- Some bytes of the pool. -/
def read (p : LiteralPool) : Access → List UInt8
  | (.literal o, n) => (p.bytes.toList.drop o).take n
  | _ => []

theorem internAll_append (p : LiteralPool) (ls more : List Literal) :
    p.internAll (ls ++ more) = (p.internAll ls).internAll more := List.foldl_append

/-- Bytes are only appended. -/
theorem bytes_internAll (p : LiteralPool) (ls : List Literal) :
    p.bytes.toList <+: (p.internAll ls).bytes.toList := by
  induction ls generalizing p with
  | nil => exact List.prefix_refl _
  | cons l ls ih =>
    obtain ⟨more, hmore⟩ := p.intern_bytes l
    refine List.IsPrefix.trans ?_ (ih (p.intern l).2)
    rw [hmore, Array.toList_append]
    exact List.prefix_append ..

/-! ## Places stay -/

theorem find?_intern (p : LiteralPool) (l : Literal) :
    ∃ o, (p.intern l).1 = .literal o ∧ (p.intern l).2.offsets.find? l.key = some o := by
  unfold intern
  split
  · rename_i o hfind
    exact ⟨o, rfl, hfind⟩
  · exact ⟨_, rfl, Table.find?_insert_self ..⟩

theorem find?_intern_of_some (h : p.offsets.find? k = some o) :
    (p.intern l).2.offsets.find? k = some o := by
  unfold intern
  split
  · exact h
  · rename_i hnone
    have hne : l.key ≠ k := fun hkey => by rw [hkey, h] at hnone; cases hnone
    rw [Table.find?_insert_of_ne _ hne, h]

theorem find?_internAll (h : p.offsets.find? k = some o) :
    (p.internAll ls).offsets.find? k = some o := by
  induction ls generalizing p with
  | nil => exact h
  | cons l ls ih => exact ih (find?_intern_of_some h)

/-- The place that a literal got is the one under its key. -/
theorem find?_of_mem_calls {x : Literal × Address} (hx : x ∈ p.calls ls) :
    ∃ o, x.2 = .literal o ∧ (p.internAll ls).offsets.find? x.1.key = some o := by
  induction ls generalizing p with
  | nil => cases hx
  | cons l ls ih =>
    rcases List.mem_cons.mp hx with rfl | hx
    · obtain ⟨o, hplace, hfind⟩ := p.find?_intern l
      have hrest : ((p.intern l).2.internAll ls).offsets.find? l.key = some o :=
        find?_internAll hfind
      exact ⟨o, hplace, hrest⟩
    · exact ih hx

/-! ## What is at a place -/

/-- The pool has some bytes from an offset on. -/
def HasAt (p : LiteralPool) (o : Nat) (bs : List UInt8) : Prop := bs <+: p.bytes.toList.drop o

theorem HasAt.append {bs more : List UInt8} {q : LiteralPool} (h : p.HasAt o bs)
    (hq : q.bytes.toList = p.bytes.toList ++ more) : q.HasAt o bs := by
  unfold HasAt
  rw [hq, List.drop_append]
  exact List.IsPrefix.trans h (List.prefix_append ..)

theorem HasAt.read {bs : List UInt8} (h : p.HasAt o bs) :
    p.read (.literal o, bs.length) = bs := (List.prefix_iff_eq_take.mp h).symm

theorem HasAt.le {bs : List UInt8} (h : p.HasAt o bs) (hbs : 0 < bs.length) :
    o + bs.length ≤ p.bytes.size := by
  have hle := List.IsPrefix.length_le h
  have hsize : p.bytes.toList.length = p.bytes.size := Array.length_toList
  rw [List.length_drop, hsize] at hle
  omega

theorem key_of_find? (h : ls.find? (fun l => l.key = k) = some l) : l.key = k := by
  simpa using List.find?_some h

/-- How a pool stands to the literals that were stored in it. -/
structure Records (p : LiteralPool) (ls : List Literal) : Prop where
  known : ∀ l ∈ ls, ∃ o, p.offsets.find? l.key = some o
  /-- At a place are the bytes of the first literal with the key. -/
  holds : ∀ {k o}, p.offsets.find? k = some o →
    ∃ l, ls.find? (fun l => l.key = k) = some l ∧ p.HasAt o l.encode
  apart : ∀ {j k o o'}, p.offsets.find? j = some o → p.offsets.find? k = some o' → j ≠ k →
    Access.Apart (.literal o, j.size) (.literal o', k.size)

theorem records_empty : Records .empty [] where
  known l hl := by cases hl
  holds h := by cases h
  apart h := by cases h

theorem Records.le (h : p.Records ls) (hfind : p.offsets.find? k = some o) :
    o + k.size ≤ p.bytes.size := by
  obtain ⟨l, hl, hat⟩ := h.holds hfind
  have hle := hat.le (by rw [length_encode]; exact l.size_pos)
  rwa [length_encode, ← size_key, key_of_find? hl] at hle

/-- A literal whose key is there already is not stored again. -/
theorem Records.again (h : p.Records ls) (hfind : p.offsets.find? l.key = some o) :
    p.Records (ls ++ [l]) where
  known k hk := by
    rcases List.mem_append.mp hk with hk | hk
    · exact h.known k hk
    · exact ⟨o, List.mem_singleton.mp hk ▸ hfind⟩
  holds hk := by
    -- The first literal with a key is among the earlier ones, also if the key is that of `l`.
    obtain ⟨f, hf, hat⟩ := h.holds hk
    exact ⟨f, by rw [List.find?_append, hf]; rfl, hat⟩
  apart := h.apart

/-- The pool with the bytes of a literal behind all others. -/
def extend (p : LiteralPool) (l : Literal) : LiteralPool :=
  ⟨p.bytes ++ l.encode.toArray, p.offsets.insert l.key p.bytes.size⟩

theorem bytes_extend (p : LiteralPool) (l : Literal) :
    (p.extend l).bytes.toList = p.bytes.toList ++ l.encode := by
  simp [extend]

theorem hasAt_extend (p : LiteralPool) (l : Literal) :
    (p.extend l).HasAt p.bytes.size l.encode := by
  have hsize : p.bytes.toList.length = p.bytes.size := Array.length_toList
  have hdrop : (p.extend l).bytes.toList.drop p.bytes.size = l.encode := by
    rw [bytes_extend, ← hsize, List.drop_left]
  unfold HasAt
  exact hdrop.symm ▸ List.prefix_refl _

theorem find?_extend (h : (p.extend l).offsets.find? k = some o) :
    k = l.key ∧ o = p.bytes.size ∨ k ≠ l.key ∧ p.offsets.find? k = some o := by
  unfold extend at h
  by_cases hkey : k = l.key
  · rw [hkey, Table.find?_insert_self] at h
    injection h with h
    exact .inl ⟨hkey, h.symm⟩
  · rw [Table.find?_insert_of_ne _ (Ne.symm hkey)] at h
    exact .inr ⟨hkey, h⟩

/-- A literal with a new key gets bytes of its own. -/
theorem Records.extend (h : p.Records ls) (hnone : p.offsets.find? l.key = none) :
    (p.extend l).Records (ls ++ [l]) where
  known k hk := by
    unfold LiteralPool.extend
    by_cases hkey : k.key = l.key
    · exact ⟨p.bytes.size, by rw [hkey]; exact Table.find?_insert_self ..⟩
    · rcases List.mem_append.mp hk with hk | hk
      · obtain ⟨o, ho⟩ := h.known k hk
        exact ⟨o, by rw [Table.find?_insert_of_ne _ (Ne.symm hkey), ho]⟩
      · exact absurd (congrArg key (List.mem_singleton.mp hk)) hkey
  holds {k o} hk := by
    rcases find?_extend hk with ⟨rfl, rfl⟩ | ⟨_, hk⟩
    · -- None of the earlier literals has the new key.
      have hnew : ls.find? (fun k => k.key = l.key) = none := by
        refine List.find?_eq_none.mpr fun k hk hkey => ?_
        obtain ⟨o, ho⟩ := h.known k hk
        rw [of_decide_eq_true hkey, hnone] at ho
        cases ho
      exact ⟨l, by simp [List.find?_append, hnew], p.hasAt_extend l⟩
    · obtain ⟨f, hf, hat⟩ := h.holds hk
      exact ⟨f, by rw [List.find?_append, hf]; rfl, hat.append (p.bytes_extend l)⟩
  apart hj hk hne := by
    -- All earlier bytes end where the new ones start.
    rcases find?_extend hj with ⟨rfl, rfl⟩ | ⟨_, hj⟩ <;>
      rcases find?_extend hk with ⟨rfl, rfl⟩ | ⟨_, hk⟩
    · exact absurd rfl hne
    · exact .inr (h.le hk)
    · exact .inl (h.le hj)
    · exact h.apart hj hk hne

theorem Records.intern (h : p.Records ls) (l : Literal) :
    (p.intern l).2.Records (ls ++ [l]) := by
  unfold LiteralPool.intern
  split
  · rename_i o hfind
    exact h.again hfind
  · rename_i hnone
    exact h.extend hnone

theorem Records.internAll (h : p.Records ls) (more : List Literal) :
    (p.internAll more).Records (ls ++ more) := by
  induction more generalizing p ls with
  | nil => rwa [List.append_nil]
  | cons l more ih =>
    have hrest := ih (h.intern l)
    rwa [List.append_assoc] at hrest

theorem records_stored (ls : List Literal) : (stored ls).Records ls := records_empty.internAll ls

/-! ## Integers, characters and strings -/

section Calls

variable {x y : Literal × Address}

/-- A place is still the one under the key after any more literals. -/
theorem place_of_mem_calls (hx : x ∈ calls .empty ls) (more : List Literal) :
    ∃ o, x.2 = .literal o ∧ (stored (ls ++ more)).offsets.find? x.1.key = some o := by
  obtain ⟨o, hplace, hfind⟩ := find?_of_mem_calls hx
  refine ⟨o, hplace, ?_⟩
  unfold stored
  rw [internAll_append]
  exact find?_internAll hfind

theorem apart_of_mem_calls (hx : x ∈ calls .empty ls) (hy : y ∈ calls .empty ls)
    (hxf : x.1.isFloat = false) (hyf : y.1.isFloat = false) (hne : x.1 ≠ y.1) :
    Access.Apart (x.2, x.1.size) (y.2, y.1.size) := by
  obtain ⟨o, hxo, ho⟩ := find?_of_mem_calls hx
  obtain ⟨o', hyo, ho'⟩ := find?_of_mem_calls hy
  rw [key_of_not_isFloat hxf] at ho
  rw [key_of_not_isFloat hyf] at ho'
  rw [hxo, hyo]
  exact (records_stored ls).apart ho ho' hne

theorem place_eq_iff (hx : x ∈ calls .empty ls) (hy : y ∈ calls .empty ls)
    (hxf : x.1.isFloat = false) (hyf : y.1.isFloat = false) : x.2 = y.2 ↔ x.1 = y.1 := by
  obtain ⟨o, hxo, ho⟩ := find?_of_mem_calls hx
  obtain ⟨o', hyo, ho'⟩ := find?_of_mem_calls hy
  constructor
  · -- Bytes that are apart are not the same bytes.
    intro hplace
    refine Classical.byContradiction fun hne => ?_
    have hapart := apart_of_mem_calls hx hy hxf hyf hne
    rw [← hplace, hxo] at hapart
    have hapart : o + x.1.size ≤ o ∨ o + y.1.size ≤ o := hapart
    have hxpos := x.1.size_pos
    have hypos := y.1.size_pos
    omega
  · intro heq
    rw [heq, ho'] at ho
    injection ho with ho
    rw [hxo, hyo, ho]

theorem written_of_mem_calls (hx : x ∈ calls .empty ls) (hxf : x.1.isFloat = false)
    {more : List Literal} (hsize : (stored (ls ++ more)).bytes.size < 2 ^ 64) :
    x.1.Written ((stored (ls ++ more)).read (x.2, x.1.size)) := by
  have hrecords := records_stored (ls ++ more)
  obtain ⟨o, hplace, ho⟩ := place_of_mem_calls hx more
  obtain ⟨l, hl, hat⟩ := hrecords.holds ho
  have hle := hrecords.le ho
  rw [size_key] at hle
  rw [eq_of_key_eq hxf (key_of_find? hl)] at hat
  rw [hplace, ← length_encode, hat.read]
  exact written_encode (by omega)

end Calls

/-- The pool after `ls`, and after any more literals, with regard to all but the floats in `ls`. -/
structure Exact (ls more : List Literal) : Prop where
  /-- Bytes that are written stay. -/
  bytes : (stored ls).bytes.toList <+: (stored (ls ++ more)).bytes.toList
  /-- A place is an offset that fits into a word of 32 bits. -/
  offsets : ∀ x ∈ calls .empty ls, ∃ o < 2 ^ 32, x.2 = .literal o
  /-- The same place is given exactly to equal literals. -/
  places : ∀ x ∈ calls .empty ls, ∀ y ∈ calls .empty ls, x.1.isFloat = false →
    y.1.isFloat = false → (x.2 = y.2 ↔ x.1 = y.1)
  /-- Different literals share no byte. -/
  apart : ∀ x ∈ calls .empty ls, ∀ y ∈ calls .empty ls, x.1.isFloat = false →
    y.1.isFloat = false → x.1 ≠ y.1 → Access.Apart (x.2, x.1.size) (y.2, y.1.size)
  /-- What is at the place of a literal is that literal. -/
  contents : ∀ x ∈ calls .empty ls, x.1.isFloat = false →
    x.1.Written ((stored (ls ++ more)).read (x.2, x.1.size))

/-- The pool is an exact store for integers, characters and strings that only grows at its end. -/
theorem pool_exact (ls more : List Literal) (hsize : (stored (ls ++ more)).bytes.size < 2 ^ 32) :
    Exact ls more where
  bytes := by
    unfold stored
    rw [internAll_append]
    exact bytes_internAll ..
  offsets x hx := by
    obtain ⟨o, hplace, ho⟩ := place_of_mem_calls hx more
    have hle := (records_stored (ls ++ more)).le ho
    exact ⟨o, by omega, hplace⟩
  places x hx y hy hxf hyf := place_eq_iff hx hy hxf hyf
  apart x hx y hy hxf hyf hne := apart_of_mem_calls hx hy hxf hyf hne
  contents x hx hxf := written_of_mem_calls hx hxf (by omega)

/-- Literals of all kinds, among them different ones with the same bytes. -/
def sampleLiterals : List Literal :=
  [.int 5, .char 120, .str "hi", .int 5, .float 0, .int 0, .str "", .str "hi"]

/-- Equal literals share a place, and a float, an integer and a string without text have places of
their own although all their bytes are zero. -/
theorem pool_exact_sampleLiterals :
    (stored (sampleLiterals ++ [.char 5, .int 0])).bytes.size < 2 ^ 32 ∧
    (calls .empty sampleLiterals).map (·.2) =
      [0, 8, 9, 0, 19, 27, 35, 9].map Address.literal ∧
    Exact sampleLiterals [.char 5, .int 0] := by
  have hsize : (stored (sampleLiterals ++ [.char 5, .int 0])).bytes.size < 2 ^ 32 := by
    decide +kernel
  exact ⟨hsize, by decide +kernel, pool_exact sampleLiterals [.char 5, .int 0] hsize⟩

end LiteralPool

end ClassLang
