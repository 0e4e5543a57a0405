import ClassLang.Proofs.Registration.Overflow
import ClassLang.Proofs.Safety.Access

/-!
# Storage in 32 bits

The operands of instructions and the ends of the storage are kept in 32 bits. As long as no end
reaches `2 ^ 32`, nothing is lost of what lies in the storage. A frame that grows beyond that starts
again at its bottom, where the variables are.
-/

namespace ClassLang

/-- What 32 bits keep of a place. -/
def Address.wrapped : Address → Address
  | frame k => frame (wrap k)
  | global k => global (wrap k)
  | literal k => literal (wrap k)

/-- What 32 bits keep of some bytes. -/
def Access.wrapped (x : Access) : Access := (x.1.wrapped, wrap x.2)

/-- What 32 bits keep of the ends of the storage. -/
def Extent.wrapped (x : Extent) : Extent :=
  ⟨wrap x.top, wrap x.globalLength, wrap x.literalLength, x.pointerSize⟩

/-- All that the instruction reads and writes lay in the storage, as 32 bits have it. -/
def Emission.FitsWrapped (e : Emission) : Prop :=
  ∀ x ∈ e.reads ++ e.writes, e.extent.wrapped.Holds x.wrapped

instance : DecidablePred Emission.FitsWrapped := fun _ => List.decidableBAll _ _

/-- A sum below `2 ^ 32` is kept, and so is what was added. -/
theorem wrap_add_le {k n m : Nat} (h : k + n ≤ m) (hm : m < UInt32.size) :
    wrap k + wrap n ≤ wrap m := by
  have hsum := Nat.lt_of_le_of_lt h hm
  rw [wrap_of_lt hm, wrap_of_lt (Nat.lt_of_le_of_lt (Nat.le_add_right ..) hsum),
    wrap_of_lt (Nat.lt_of_le_of_lt (Nat.le_add_left ..) hsum)]
  exact h

theorem Extent.Holds.wrapped {x : Extent} {r : Registry} {a : Access} (h : x.Holds a)
    (hx : x.Representable r) : x.wrapped.Holds a.wrapped := by
  rcases a with ⟨_ | _ | _, n⟩
  · exact wrap_add_le h hx.top
  · exact wrap_add_le h hx.globalLength
  · exact wrap_add_le h hx.literalLength

theorem Emission.Fits.wrapped {e : Emission} (h : e.Fits) (hx : e.extent.Representable e.registry) :
    e.FitsWrapped := fun x hmem => (h x hmem).wrapped hx

/-- `g() {}` and `main() { var a: Giant; var b: Giant; g() }`. -/
def twoGiants : Program :=
  let function (name : String) (body : List Stmt) : Item :=
    .function ⟨⟨name, .unknown⟩, [], none, some body, false, false, .unknown⟩
  let giant (name : String) : Stmt :=
    .declare ⟨⟨name, .unknown⟩, some (.named "Giant" [] .unknown), none, false, .unknown⟩
  ⟨[⟨"m", Registration.giants ++ [
    function "g" [],
    function "main" [giant "a", giant "b",
      .expr (.call (.name "g" .unknown) [] .unknown) .unknown]]⟩]⟩

end ClassLang
