import ClassLang.Proofs.Dispatch.CallFrame
import ClassLang.Proofs.Ty.Plain

/-!
# When a converted function value can be called

A value of a callable type is an address, and a conversion between callable types copies it. The
function behind it stays what it is: it finds its parameters where its own type puts them, while
the caller puts the arguments where the type of the value says. Results and parameters of
callables convert strongly, one way or the other, so both types store them alike up to the
difference between numeric scalars. Where one of the types has `char` or `byte` and the other has
`int` or `float`, the lengths differ, and nothing adapts the call; everywhere else they agree.
-/

namespace ClassLang

open Dispatch

/-- The parameters that a conversion compares: all but the receiver of a method. -/
def CallKind.compared (k : CallKind) (ps : List Ty) : List Ty :=
  if k = .method then ps.drop 1 else ps

namespace Registry

variable (r : Registry)

/-- The offsets of the parameters in the frame of a free function: they follow the return slot. -/
def argOffsets (result : Ty) (params : List Ty) : List Nat :=
  offsetsFrom (r.length result) (params.map r.length)

/-- A strong conversion in either direction is between types of one family. -/
theorem family_of_strongAlong {d : Direction} {a b : Ty} (h : r.strongAlong d a b = true) :
    a.storage.family = b.storage.family := by
  cases d with
  | forward => exact family_of_convertsStrongly h
  | backward =>
    have hforward := (r.strongAlong_reverse .backward a b).mpr h
    exact (family_of_convertsStrongly hforward).symm

/-- Parameters that are compared are converted, one by one. -/
theorem forall₂_of_paramsAlong {d : Direction} {as : List Ty} :
    ∀ {bs : List Ty} {skip : Bool}, as.length = bs.length → r.paramsAlong d skip as bs = true →
      List.Forall₂ (fun a b => r.strongAlong d a b = true)
        (if skip then as.drop 1 else as) (if skip then bs.drop 1 else bs) := by
  induction as with
  | nil =>
    intro bs skip hlen _
    rw [List.length_eq_zero_iff.mp hlen.symm]
    cases skip <;> exact .nil
  | cons a as ih =>
    intro bs skip hlen h
    obtain ⟨b, bs, rfl⟩ := List.exists_cons_of_length_eq_add_one hlen.symm
    obtain ⟨hfirst, hrest⟩ := (r.paramsAlong_cons d skip).mp h
    have hrest := ih (Nat.succ.inj hlen) hrest
    cases skip with
    | true => exact hrest
    | false => exact .cons (hfirst.resolve_left Bool.false_ne_true) hrest

/-- There is no weak conversion between callables. -/
theorem strongAlong_of_converts {k k' : CallKind} {ps ps' : List Ty} {res res' : Ty}
    (h : r.converts (.callable k ps res) (.callable k' ps' res') = true) :
    r.strongAlong .forward (.callable k ps res) (.callable k' ps' res') = true := by
  unfold converts conversion? at h
  unfold strongAlong
  rw [conversionAlong?] at h ⊢
  split
  · rfl
  · rename_i hne
    rw [if_neg hne] at h
    split
    · rfl
    · rename_i hnone
      rw [if_neg hnone] at h
      cases h

end Registry

/-- Let one callable type convert to another, in any registry. Then kinds and arities agree, and
results and parameters take the same space in both types except where one of them has `char` or
`byte` and the other `int` or `float`. If that happens nowhere, a function of the first type finds
its parameters where a caller through the second one puts the arguments. -/
theorem converted_lengths_agree_iff (r : Registry) {k k' : CallKind} {ps ps' : List Ty}
    {res res' : Ty} (h : r.converts (.callable k ps res) (.callable k' ps' res') = true) :
    k = k' ∧ ps.length = ps'.length ∧
    (r.length res = r.length res' ↔ ¬WidthDiffers res res') ∧
    List.Forall₂ (fun a b => r.length a = r.length b ↔ ¬WidthDiffers a b)
      (k.compared ps) (k.compared ps') ∧
    (k ≠ .method → ¬WidthDiffers res res' →
      (∀ x ∈ ps.zip ps', ¬WidthDiffers x.1 x.2) → r.argOffsets res ps = r.argOffsets res' ps') := by
  obtain ⟨hk, hlen, hparams, hres⟩ :=
    (r.strongAlong_callable .forward).mp (r.strongAlong_of_converts h)
  have hwidth : ∀ {d a b}, r.strongAlong d a b = true →
      (r.length a = r.length b ↔ ¬WidthDiffers a b) :=
    fun h => r.length_eq_iff_of_family (r.family_of_strongAlong h)
  have hcompared : List.Forall₂ (fun a b => r.length a = r.length b ↔ ¬WidthDiffers a b)
      (k.compared ps) (k.compared ps') := by
    have hall := (r.forall₂_of_paramsAlong hlen hparams).imp fun _ _ => hwidth
    simpa only [CallKind.compared, beq_iff_eq] using hall
  refine ⟨hk, hlen, hwidth hres, hcompared, ?_⟩
  intro hfree hsame hall
  rw [CallKind.compared, CallKind.compared, if_neg hfree, if_neg hfree] at hcompared
  have hlengths : ps.map r.length = ps'.map r.length := by
    clear h hlen hparams
    induction hcompared with
    | nil => rfl
    | cons hab _ ih =>
      rw [List.zip_cons_cons] at hall
      obtain ⟨hfirst, hrest⟩ := List.forall_mem_cons.mp hall
      rw [List.map_cons, List.map_cons, hab.mpr hfirst, ih hrest]
  rw [Registry.argOffsets, Registry.argOffsets, (hwidth hres).mpr hsame, hlengths]

/-- A function that takes anything and returns a pointer to a character, as one that takes a string
and returns anything. -/
theorem converted_lengths_agree_pointers :
    (Registry.initial 8).converts (.callable .func [.voidPointer] (.pointer .char))
      (.callable .func [.string] .voidPointer) = true ∧
    (Registry.initial 8).argOffsets (.pointer .char) [.voidPointer] =
      (Registry.initial 8).argOffsets .voidPointer [.string] := by
  have hconverts : (Registry.initial 8).converts
      (.callable .func [.voidPointer] (.pointer .char))
      (.callable .func [.string] .voidPointer) = true := by
    decide +kernel
  obtain ⟨_, _, _, _, hoffsets⟩ := converted_lengths_agree_iff _ hconverts
  refine ⟨hconverts, hoffsets CallKind.noConfusion ?_ ?_⟩
  · simp [WidthDiffers, Ty.isNarrow, Ty.isWide, Ty.voidPointer, Ty.char, Ty.byte, Ty.int, Ty.float]
  · simp [WidthDiffers, Ty.isNarrow, Ty.isWide, Ty.voidPointer, Ty.string, Ty.char, Ty.byte,
      Ty.int, Ty.float]

/-- A function that returns `char` converts to one that returns `int`. -/
theorem converted_lengths_can_differ : ¬∀ (r : Registry) (k k' : CallKind) (ps ps' : List Ty)
    (res res' : Ty), r.converts (.callable k ps res) (.callable k' ps' res') = true →
    r.length res = r.length res' ∧ ps.map r.length = ps'.map r.length := by
  intro hall
  have hconverts : (Registry.initial 8).converts (.callable .func [.int] .char)
      (.callable .func [.int] .int) = true := by
    decide +kernel
  have hlength := (hall _ _ _ _ _ _ _ hconverts).1
  have hdiffer : (Registry.initial 8).length .char ≠ (Registry.initial 8).length .int := by decide
  exact hdiffer hlength

end ClassLang
