import ClassLang.Proofs.Registration.Members
import ClassLang.Proofs.Ty.Conversion

/-!
# How values are stored

What a value occupies depends only on whether it is a scalar, one machine word or an object of
a class. Substitution does not change that, except for a template parameter itself, and a
strong conversion changes it only between the numeric scalars, of which `char` and `byte` are
narrow and `int` and `float` wide.
-/

namespace ClassLang

/-- How a value is stored. -/
inductive Storage where
  | scalar (p : Prim)
  /-- A pointer, an array or a callable. -/
  | word
  | object (hash : TypeHash)
  | nothing
  deriving DecidableEq

/-- The storage of the values of a type; those of a template parameter are stored as objects of
its bound. -/
def Ty.storage : Ty → Storage
  | .prim p => .scalar p
  | .pointer _ | .array _ | .callable .. => .word
  | .classRef h | .applied h _ | .param _ h => .object h
  | .intrinsic .. => .nothing

/-- Bytes that some storage takes. -/
def Registry.storageLength (r : Registry) : Storage → Nat
  | .scalar p => p.size
  | .word => r.pointerSize
  | .object h => ((r.class? h).map (·.length)).getD 0
  | .nothing => 0

theorem Registry.length_eq (r : Registry) (t : Ty) : r.length t = r.storageLength t.storage := by
  cases t <;> rfl

/-- But for those of a template parameter, only values of a class are stored as objects. -/
theorem Ty.storage_eq_object {t : Ty} (ht : t.isParam = false) {k : TypeHash} :
    t.storage = .object k ↔ t.isClass = true ∧ t.classHash? = some k := by
  cases t with
  | param n h => cases ht
  | _ => simp [storage, isClass, classHash?]

/-- Storage up to the difference between numeric scalars. -/
def Storage.family : Storage → Storage
  | .scalar p => if p.isNumeric then .scalar .int else .scalar p
  | s => s

namespace Ty

/-- `char` and `byte` -/
def isNarrow (t : Ty) : Bool := t = .char || t = .byte

/-- `int` and `float` -/
def isWide (t : Ty) : Bool := t = .int || t = .float

theorem storage_substitute (names : List String) (args : List Ty) {t : Ty}
    (ht : t.isParam = false) :
    (t.substitute names args).storage = t.storage ∧ (t.substitute names args).isParam = false := by
  cases t with
  | param n h => cases ht
  | _ => exact ⟨rfl, rfl⟩

end Ty

theorem Class.storage_inOwnTerms (c ancestor : Class) {t : Ty} (ht : t.isParam = false) :
    (c.inOwnTerms ancestor t).storage = t.storage ∧
      (c.inOwnTerms ancestor t).isParam = false := by
  unfold inOwnTerms
  split
  · exact Ty.storage_substitute _ _ ht
  · exact ⟨rfl, ht⟩

/-- Strong conversions between scalars are between numeric ones. -/
theorem Conversion.family_betweenPrims {p q : Prim} {k : Conversion}
    (h : Conversion.betweenPrims? p q = some k) :
    (Storage.scalar p).family = (Storage.scalar q).family := by
  cases p <;> cases q <;> first | rfl | cases h

namespace Registry

theorem family_of_plainConversion {r : Registry} {a b : Ty} {k : Conversion}
    (h : r.plainConversion? a b = some k) (hk : k.isStrong = true) :
    a.storage.family = b.storage.family := by
  unfold plainConversion? at h
  split at h
  · exact Conversion.family_betweenPrims h
  -- A strong conversion between a word and anything else is between words.
  all_goals first
    | rfl
    | (cases h
       cases hk)
    | cases h

/-- A strong conversion does not change how a value is stored, except between numeric
scalars. -/
theorem family_of_convertsStrongly {r : Registry} {a b : Ty}
    (h : r.convertsStrongly a b = true) : a.storage.family = b.storage.family := by
  unfold convertsStrongly conversion? at h
  unfold conversionAlong? at h
  split at h
  · rename_i heq
    rw [heq]
  · split at h
    · rfl
    · dsimp only at h
      cases hk : r.plainConversion? a b with
      | none =>
        rw [hk] at h
        cases h
      | some k =>
        rw [hk] at h
        exact family_of_plainConversion hk h

/-- Values of one family take the same space unless one is narrow and the other wide. -/
theorem length_eq_iff_of_family (r : Registry) {a b : Ty}
    (h : a.storage.family = b.storage.family) :
    r.length a = r.length b ↔
      ¬(a.isNarrow = true ∧ b.isWide = true ∨ a.isWide = true ∧ b.isNarrow = true) := by
  by_cases heq : a.storage = b.storage
  · refine iff_of_true (by rw [r.length_eq, r.length_eq, heq]) ?_
    rintro (⟨ha, hb⟩ | ⟨ha, hb⟩)
    all_goals
      simp only [Ty.isNarrow, Ty.isWide, Bool.or_eq_true, decide_eq_true_eq] at ha hb
      rcases ha with rfl | rfl <;> rcases hb with rfl | rfl <;> cases heq
  · -- Different storage in one family: both are numeric scalars.
    cases a with
    | prim p =>
      cases b with
      | prim q =>
        show p.size = q.size ↔ _
        cases p <;> cases q <;> first | decide | cases h
      | _ => cases p <;> cases h
    | _ =>
      cases b with
      | prim q => cases q <;> cases h
      | _ => exact absurd h heq

end Registry

end ClassLang
