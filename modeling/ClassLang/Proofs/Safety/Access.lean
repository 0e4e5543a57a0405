import ClassLang.Lowering.State

/-!
# What an instruction reads, writes and refers to

An instruction names the places it reads and writes, and how many bytes it touches there is
fixed by the instruction and by the size of a pointer. An emitted instruction *fits* if all these
bytes lay in the storage when it was emitted: below the top of the frame, below the end of the
globals, inside the literal pool. A call counts with the whole frame that its caller has laid out:
the result, the receiver and the arguments. A place whose address is taken has to be in the storage
too, but no bytes are counted there. Two accesses are *apart* if no byte is in both.

An instruction that calls a native or writes a class tag is *permitted* if the native was visible
and if there can be objects of the class.
-/

namespace ClassLang

/-- Some bytes at a place. -/
abbrev Access := Address × Nat

/-- Bytes that a change of representation reads and writes. -/
def ConvertOp.sizes : ConvertOp → Nat × Nat
  | intToFloat => (Prim.int.size, Prim.float.size)
  | floatToInt => (Prim.float.size, Prim.int.size)
  | intToChar => (Prim.int.size, Prim.char.size)
  | charToInt => (Prim.char.size, Prim.int.size)

namespace Instr

/-- What an instruction reads, where a pointer has `p` bytes. -/
def reads (p : Nat) : Instr → List Access
  | mov _ src n => [(src, n)]
  | int _ _ lhs rhs => [(lhs, Prim.int.size), (rhs, Prim.int.size)]
  | float _ _ lhs rhs => [(lhs, Prim.float.size), (rhs, Prim.float.size)]
  | unary _ _ src => [(src, Prim.int.size)]
  | convert op _ src => [(src, op.sizes.1)]
  | addr _ src => [(src, 0)]
  | ptr _ src => [(src, p)]
  | index _ position _ _ => [(position, Prim.int.size)]
  | store _ src n => [(src, n)]
  | ifTrue c _ | ifFalse c _ => [(c, Prim.int.size)]
  | _ => []

/-- What an instruction writes, where a pointer has `p` bytes. A call leaves to the callee all that
was laid out for it. -/
def writes (p : Nat) (region : Nat := 0) : Instr → List Access
  | mov dst _ n => [(dst, n)]
  | imm dst _ n => [(dst, n)]
  | int _ dst _ _ => [(dst, Prim.int.size)]
  | float _ dst _ _ => [(dst, Prim.float.size)]
  | unary _ dst _ => [(dst, Prim.int.size)]
  | convert op dst _ => [(dst, op.sizes.2)]
  | load dst _ n => [(dst, n)]
  | setPtr dst _ | fnAddr dst _ | argv dst => [(dst, p)]
  | instanceOf dst _ _ => [(dst, Prim.int.size)]
  | callFn _ base | callNative _ base | callPtr _ base => [(base, region)]
  | _ => []

end Instr

/-- The bytes lie in the storage. -/
def Extent.Holds (x : Extent) : Access → Prop
  | (.frame k, n) => k + n ≤ x.top
  | (.global k, n) => k + n ≤ x.globalLength
  | (.literal k, n) => k + n ≤ x.literalLength

instance (x : Extent) : DecidablePred x.Holds
  | (.frame _, _) => Nat.decLe ..
  | (.global _, _) => Nat.decLe ..
  | (.literal _, _) => Nat.decLe ..

namespace Emission

/-- What the instruction reads. -/
def reads (e : Emission) : List Access := e.instr.reads e.extent.pointerSize

/-- What the instruction writes. -/
def writes (e : Emission) : List Access := e.instr.writes e.extent.pointerSize e.region

/-- All that the instruction reads and writes lay in the storage. -/
def Fits (e : Emission) : Prop := ∀ x ∈ e.reads ++ e.writes, e.extent.Holds x

end Emission

/-! ## Storage that is apart -/

/-- One ends before the other begins, or they are in different storage. -/
def Access.Apart : Access → Access → Prop
  | (.frame k, n), (.frame j, m) => k + n ≤ j ∨ j + m ≤ k
  | (.global k, n), (.global j, m) => k + n ≤ j ∨ j + m ≤ k
  | (.literal k, n), (.literal j, m) => k + n ≤ j ∨ j + m ≤ k
  | _, _ => True

instance : ∀ x y : Access, Decidable (x.Apart y)
  | (.frame _, _), (.frame _, _) | (.global _, _), (.global _, _)
  | (.literal _, _), (.literal _, _) => inferInstanceAs (Decidable (_ ∨ _))
  | (.frame _, _), (.global _, _) | (.frame _, _), (.literal _, _) | (.global _, _), (.frame _, _)
  | (.global _, _), (.literal _, _) | (.literal _, _), (.frame _, _)
  | (.literal _, _), (.global _, _) => inferInstanceAs (Decidable True)

namespace Access

variable {x y : Access} {a : Address} {n m k : Nat}

theorem Apart.symm (h : x.Apart y) : y.Apart x := by
  rcases x with ⟨_ | _ | _, n⟩ <;> rcases y with ⟨_ | _ | _, m⟩ <;>
    simp only [Apart] at h ⊢ <;> omega

/-- A part of one is apart from the other. -/
theorem Apart.part (h : Apart (a, n) y) (hk : k + m ≤ n) : Apart (a.shift k, m) y := by
  rcases y with ⟨_ | _ | _, j⟩ <;> cases a <;> simp only [Apart, Address.shift] at h ⊢ <;> omega

theorem Apart.shorter (h : Apart (a, n) y) (hm : m ≤ n) : Apart (a, m) y := by
  rcases y with ⟨_ | _ | _, j⟩ <;> cases a <;> simp only [Apart] at h ⊢ <;> omega

end Access

/-! ## Natives and class tags -/

/-- The native is visible, under whatever name. -/
def Scopes.Offers (s : Scopes) (n : Native) : Prop :=
  ∃ name e, s.find? name = some e ∧ e.meaning = .native n

/-- The tag is that of a class of which there can be objects. -/
def Registry.Tags (r : Registry) (id : Nat) : Prop :=
  ∃ h k, r.class? h = some k ∧ k.id = id ∧ k.isAbstract = false

/-- There can be values of the type: it is not an abstract class. -/
def Registry.Concrete (r : Registry) (t : Ty) : Prop :=
  ∀ h k, t.classHash? = some h → r.class? h = some k → k.isAbstract = false

/-- A native that is called is visible, and a class tag that is written is that of a class of which
there can be objects. -/
def Instr.Permitted (r : Registry) (s : Scopes) : Instr → Prop
  | callNative id _ => ∃ n : Native, n.id = id ∧ s.Offers n
  | setTag _ id => r.Tags id
  | _ => True

/-- The instruction was right where it was emitted. -/
structure Emission.Sound (e : Emission) : Prop where
  fits : e.Fits
  permitted : e.instr.Permitted e.registry e.scopes

/-! ## Storage that grows -/

/-- One storage reaches at least as far as the other. -/
structure Extent.Le (x y : Extent) : Prop where
  top : x.top ≤ y.top
  globalLength : x.globalLength ≤ y.globalLength
  literalLength : x.literalLength ≤ y.literalLength

theorem Extent.Le.refl (x : Extent) : x.Le x := ⟨Nat.le_refl _, Nat.le_refl _, Nat.le_refl _⟩

theorem Extent.Holds.mono {x y : Extent} (hle : x.Le y) {a : Address} {n m : Nat}
    (h : x.Holds (a, n)) (hm : m ≤ n) : y.Holds (a, m) := by
  have := hle.top
  have := hle.globalLength
  have := hle.literalLength
  cases a <;> simp only [Extent.Holds] at h ⊢ <;> omega

/-- A part of what is in the storage is in the storage. -/
theorem Extent.Holds.shift {x : Extent} {a : Address} {n k m : Nat} (h : x.Holds (a, n))
    (hk : k + m ≤ n) : x.Holds (a.shift k, m) := by
  cases a <;> simp only [Extent.Holds, Address.shift] at h ⊢ <;> omega

end ClassLang
