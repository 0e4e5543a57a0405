import ClassLang.Proofs.Literals.Pool

/-!
# Floats in the literal pool

The key of a float is the number that it is, and that is less than its bits: all NaNs share a key,
and so do the two zeros. Of the floats that are the same number only the first one is stored. So the
bytes at the place of a float are its own exactly if no float with other bits and the same key came
first, and the bytes of a float that is neither a NaN nor a zero are always its own.
-/

namespace ClassLang

namespace Literal

variable {a b : UInt64}

/-! ## Floats as numbers -/

def isZero (bits : UInt64) : Bool := bits == 0 || bits == 0x8000000000000000

/-- Two floats are not told apart when floats are compared as numbers. -/
def SameNumber (a b : UInt64) : Prop :=
  isNaN a = true ∧ isNaN b = true ∨ isZero a = true ∧ isZero b = true ∨ a = b

instance (a b : UInt64) : Decidable (SameNumber a b) :=
  inferInstanceAs (Decidable (_ ∨ _ ∨ _))

theorem canonicalFloat_of_isNaN (h : isNaN a = true) : canonicalFloat a = 0x7ff8000000000000 :=
  if_pos h

theorem canonicalFloat_of_isZero (h : isZero a = true) : canonicalFloat a = 0 := by
  rcases (Bool.or_eq_true _ _).mp h with h | h <;> rw [eq_of_beq h] <;> rfl

theorem canonicalFloat_of_ordinary (hnan : isNaN a = false) (hzero : isZero a = false) :
    canonicalFloat a = a := by
  obtain ⟨_, hminus⟩ := Bool.or_eq_false_iff.mp hzero
  simp only [canonicalFloat, hnan, hminus, Bool.false_eq_true, ↓reduceIte]

/-- No zero is a NaN. -/
theorem isNaN_of_isZero (h : isZero a = true) : isNaN a = false := by
  rcases (Bool.or_eq_true _ _).mp h with h | h <;> rw [eq_of_beq h] <;> decide

theorem canonicalFloat_eq_iff : canonicalFloat a = canonicalFloat b ↔ SameNumber a b := by
  -- What the floats are can be seen from what stands for them.
  have hkind : ∀ c, isNaN (canonicalFloat c) = isNaN c ∧ isZero (canonicalFloat c) = isZero c := by
    intro c
    cases hn : isNaN c with
    | true =>
      have hz : isZero c = false := by
        refine Bool.eq_false_iff.mpr fun hz => ?_
        rw [isNaN_of_isZero hz] at hn
        cases hn
      rw [canonicalFloat_of_isNaN hn, hz]
      decide
    | false =>
      cases hz : isZero c with
      | true => rw [canonicalFloat_of_isZero hz]; decide
      | false => rw [canonicalFloat_of_ordinary hn hz]; exact ⟨hn, hz⟩
  constructor
  · intro h
    obtain ⟨han, haz⟩ := hkind a
    obtain ⟨hbn, hbz⟩ := hkind b
    rw [h, hbn] at han
    rw [h, hbz] at haz
    by_cases hn : isNaN a = true
    · exact .inl ⟨hn, han.trans hn⟩
    · by_cases hz : isZero a = true
      · exact .inr (.inl ⟨hz, haz.trans hz⟩)
      · have hn := Bool.eq_false_iff.mpr hn
        have hz := Bool.eq_false_iff.mpr hz
        rw [canonicalFloat_of_ordinary hn hz,
          canonicalFloat_of_ordinary (han.trans hn) (haz.trans hz)] at h
        exact .inr (.inr h)
  · rintro (⟨ha, hb⟩ | ⟨ha, hb⟩ | rfl)
    · rw [canonicalFloat_of_isNaN ha, canonicalFloat_of_isNaN hb]
    · rw [canonicalFloat_of_isZero ha, canonicalFloat_of_isZero hb]
    · rfl

/-- A float that is neither a NaN nor a zero has only one form. -/
theorem eq_of_sameNumber (h : SameNumber a b) (hnan : isNaN b = false) (hzero : isZero b = false) :
    a = b := by
  rcases h with ⟨_, h⟩ | ⟨_, h⟩ | rfl
  · rw [h] at hnan
    cases hnan
  · rw [h] at hzero
    cases hzero
  · rfl

/-- A float shares its key with nothing but floats that are the same number. -/
theorem key_eq_key_float {l : Literal} :
    l.key = (float b).key ↔ ∃ a, l = float a ∧ SameNumber a b := by
  cases l with
  | float a =>
    rw [key, key, float.injEq, canonicalFloat_eq_iff]
    exact ⟨fun h => ⟨a, rfl, h⟩, fun ⟨a', ha, h⟩ => by injection ha with ha; exact ha ▸ h⟩
  | int | char | str => simp [key]

end Literal

theorem Bytes.littleEndian_inj {v w : UInt64} : littleEndian v = littleEndian w ↔ v = w := by
  refine ⟨fun h => ?_, congrArg littleEndian⟩
  have hnat := congrArg toNat h
  rw [toNat_littleEndian, toNat_littleEndian] at hnat
  exact UInt64.toNat_inj.mp hnat

namespace LiteralPool

open Literal

variable {before more : List Literal}

/-! ## Which bytes a float gets -/

/-- The literal whose bytes are stored for `l`: the first one with its key, or `l` itself. -/
def standIn (before : List Literal) (l : Literal) : Literal :=
  (before.find? fun k => k.key = l.key).getD l

/-- What is at the place of a literal, when it got that place and at any later time. -/
theorem read_place (before more : List Literal) (l : Literal) :
    ∃ o, ((stored before).intern l).1 = .literal o ∧
      o + l.size ≤ ((stored before).intern l).2.bytes.size ∧
      (stored (before ++ l :: more)).read (.literal o, l.size) = (standIn before l).encode := by
  obtain ⟨o, hplace, hfind⟩ := (stored before).find?_intern l
  have hsize := ((records_stored before).intern l).le hfind
  rw [size_key] at hsize
  refine ⟨o, hplace, hsize, ?_⟩
  -- The place stays, and at a place are the bytes of the first literal with the key.
  have hlater : (stored (before ++ l :: more)).offsets.find? l.key = some o := by
    unfold stored
    rw [internAll_append]
    exact (find?_internAll hfind : (((stored before).intern l).2.internAll more).offsets.find? _ = _)
  obtain ⟨f, hf, hat⟩ := (records_stored (before ++ l :: more)).holds hlater
  have hstand : standIn before l = f := by
    rw [List.find?_append, List.find?_cons_of_pos (by simp)] at hf
    unfold standIn
    cases h : before.find? fun k => k.key = l.key with
    | none => rw [h] at hf; exact Option.some.inj hf
    | some k => rw [h] at hf; exact Option.some.inj hf
  have hread := hat.read
  rw [length_encode, ← size_key, key_of_find? hf, size_key] at hread
  rw [hread, hstand]

/-- The floats among some literals. -/
def floats (ls : List Literal) : List UInt64 :=
  ls.filterMap fun | .float bits => some bits | _ => none

theorem find?_key_float (ls : List Literal) (bits : UInt64) :
    ls.find? (fun k => k.key = (Literal.float bits).key) =
      ((floats ls).find? fun w => SameNumber w bits).map .float := by
  induction ls with
  | nil => rfl
  | cons l ls ih =>
    cases l with
    | float w =>
      have hfloats : floats (.float w :: ls) = w :: floats ls := rfl
      rw [hfloats]
      by_cases h : SameNumber w bits
      · have hkey := key_eq_key_float.mpr ⟨w, rfl, h⟩
        rw [List.find?_cons_of_pos (by simpa using hkey), List.find?_cons_of_pos (by simpa using h)]
        rfl
      · have hkey : (Literal.float w).key ≠ (Literal.float bits).key := by
          intro hkey
          obtain ⟨a, ha, hsame⟩ := key_eq_key_float.mp hkey
          injection ha with ha
          exact h (ha ▸ hsame)
        rw [List.find?_cons_of_neg (by simpa using hkey), List.find?_cons_of_neg (by simpa using h), ih]
    -- No other literal has the key of a float.
    | int | char | str => exact (List.find?_cons_of_neg (by simp [key])).trans ih

/-- The bytes of a float that is neither a NaN nor a zero are its own. -/
theorem standIn_of_ordinary {bits : UInt64} (before : List Literal) (hnan : isNaN bits = false)
    (hzero : isZero bits = false) : standIn before (.float bits) = .float bits := by
  rw [standIn, find?_key_float]
  cases h : (floats before).find? fun w => SameNumber w bits with
  | none => rfl
  | some w =>
    have hsame : SameNumber w bits := by simpa using List.find?_some h
    rw [eq_of_sameNumber hsame hnan hzero]
    rfl

/-- What is at the place of a float is the float exactly if the first float before it that is the
same number has the same bits. -/
theorem read_float_iff (before more : List Literal) (bits : UInt64) :
    ∃ o, ((stored before).intern (.float bits)).1 = .literal o ∧
      o + 8 ≤ ((stored before).intern (.float bits)).2.bytes.size ∧
      ((stored (before ++ .float bits :: more)).read (.literal o, 8) = Bytes.littleEndian bits ↔
        ∀ w, (floats before).find? (fun w => SameNumber w bits) = some w → w = bits) := by
  obtain ⟨o, hplace, hsize, hread⟩ := read_place before more (.float bits)
  refine ⟨o, hplace, hsize, ?_⟩
  rw [show (8 : Nat) = (Literal.float bits).size from rfl, hread, standIn, find?_key_float]
  cases (floats before).find? (fun w => SameNumber w bits) with
  | none =>
    constructor
    · intro _ w hw
      cases hw
    · intro _
      rfl
  | some w =>
    constructor
    · intro h w' hw'
      injection hw' with hw'
      exact hw' ▸ Bytes.littleEndian_inj.mp h
    · intro h
      exact Bytes.littleEndian_inj.mpr (h w rfl)

/-- Pools only grow. -/
theorem size_intern_le (before more : List Literal) (l : Literal) :
    ((stored before).intern l).2.bytes.size ≤ (stored (before ++ l :: more)).bytes.size := by
  have hprefix : ((stored before).intern l).2.bytes.toList <+:
      (stored (before ++ l :: more)).bytes.toList := by
    unfold stored
    rw [internAll_append]
    exact bytes_internAll ..
  exact hprefix.length_le

/-- In a pool that stays below `2 ^ 32` bytes, the bytes at the place of a float are those of the
float, when it got its place and at any later time, exactly if the first float before it that is the
same number has the same bits. -/
theorem float_kept_iff (before more : List Literal) (bits : UInt64)
    (hsize : (stored (before ++ .float bits :: more)).bytes.size < 2 ^ 32) :
    ∃ o < 2 ^ 32, ((stored before).intern (.float bits)).1 = .literal o ∧
      o + 8 ≤ ((stored before).intern (.float bits)).2.bytes.size ∧
      ((stored (before ++ .float bits :: more)).read (.literal o, 8) = Bytes.littleEndian bits ↔
        ∀ w, (floats before).find? (fun w => SameNumber w bits) = some w → w = bits) := by
  obtain ⟨o, hplace, hle, hiff⟩ := read_float_iff before more bits
  have hgrows := size_intern_le before more (.float bits)
  exact ⟨o, by omega, hplace, hle, hiff⟩

/-- A float that was stored before gets the place that it has, and its bytes are there. -/
theorem float_kept_iff_repeated :
    (stored [.float 0x3ff8000000000000, .float 0, .float 0x3ff8000000000000,
      .char 1]).bytes.size < 2 ^ 32 ∧
    ∃ o < 2 ^ 32, ((stored [.float 0x3ff8000000000000, .float 0]).intern
        (.float 0x3ff8000000000000)).1 = .literal o ∧
      (stored [.float 0x3ff8000000000000, .float 0, .float 0x3ff8000000000000, .char 1]).read
        (.literal o, 8) = Bytes.littleEndian 0x3ff8000000000000 := by
  have hsize : (stored [.float 0x3ff8000000000000, .float 0, .float 0x3ff8000000000000,
      .char 1]).bytes.size < 2 ^ 32 := by decide +kernel
  obtain ⟨o, ho, hplace, -, hiff⟩ :=
    float_kept_iff [.float 0x3ff8000000000000, .float 0] [.char 1] 0x3ff8000000000000 hsize
  refine ⟨hsize, o, ho, hplace, hiff.mpr fun w hw => ?_⟩
  have hfirst : some w = some 0x3ff8000000000000 := hw.symm.trans (by decide +kernel)
  exact Option.some.inj hfirst

/-- A zero with a sign that is stored after one without gets the bytes of the latter. -/
theorem float_kept_fails_zeros :
    ((stored [.float 0]).intern (.float 0x8000000000000000)).1 = .literal 0 ∧
    (stored [.float 0, .float 0x8000000000000000]).read (.literal 0, 8) = Bytes.littleEndian 0 ∧
    Bytes.littleEndian 0 ≠ Bytes.littleEndian 0x8000000000000000 := by
  decide

end LiteralPool

end ClassLang
