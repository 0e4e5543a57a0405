import ClassLang.Proofs.Ty.Instances
import ClassLang.Proofs.Ty.Storage

/-!
# Types along a chain of generic classes

What a class records about an ancestor is rewritten once for each class on the way: the parameters
of the ancestor are replaced by what its heir gives for them, then those of the heir, and so on. As
long as a type mentions no parameter but those of its own class, the steps can be taken in any
grouping, and how much storage a value takes is the same in the terms of every class on the way.
-/

namespace ClassLang.Ty

variable {names : List String} {args : List Ty}

/-! ## Types in the terms of a class -/

mutual

theorem isBoundBy_iff : ∀ {t : Ty}, t.isBoundBy names args = true ↔
    ∀ y ∈ t.params, (binding? names args y.1).isSome = true
  | param n bound => by simp [isBoundBy, params]
  | pointer t => isBoundBy_iff (t := t)
  | array t => isBoundBy_iff (t := t)
  | callable k ps r => by
    rw [isBoundBy, Bool.and_eq_true, allBoundBy_iff, isBoundBy_iff (t := r), params,
      List.forall_mem_append]
  | applied h as => by
    rw [isBoundBy, params]
    exact allBoundBy_iff
  | prim _ => by simp [isBoundBy, params]
  | classRef _ => by simp [isBoundBy, params]
  | intrinsic .. => by simp [isBoundBy, params]

theorem allBoundBy_iff : ∀ {ts : List Ty}, allBoundBy names args ts = true ↔
    ∀ y ∈ allParams ts, (binding? names args y.1).isSome = true
  | [] => by simp [allBoundBy, allParams]
  | t :: ts => by
    rw [allBoundBy, Bool.and_eq_true, isBoundBy_iff (t := t), allBoundBy_iff, allParams,
      List.forall_mem_append]

end

/-- With as many arguments as parameters, a type in the terms of a class has an argument for each of
its parameters. -/
theorem isBoundBy_of_named (hlength : args.length = names.length) {t : Ty}
    (ht : ∀ y ∈ t.params, y.1 ∈ names) : t.isBoundBy names args = true :=
  isBoundBy_iff.mpr fun y hy => Option.isSome_iff_ne_none.mpr (binding?_ne_none hlength (ht y hy))

theorem length_substitute (r : Registry) {t : Ty} (ht : t.isParam = false) :
    r.length (t.substitute names args) = r.length t := by
  rw [r.length_eq, r.length_eq, (storage_substitute names args ht).1]

/-! ## Rewriting twice -/

/-- Replacing the parameters of a type, and then those of the arguments, is replacing the parameters
by the rewritten arguments; after the first step no parameter is left but those of the arguments.
And unless it is a parameter itself, a type is as long as before. -/
theorem substitution_composes (names : List String) (args : List Ty) (t : Ty) :
    (args.length = names.length → (∀ y ∈ t.params, y.1 ∈ names) →
      (∀ y ∈ (t.substitute names args).params, y ∈ allParams args) ∧
      ∀ (others : List String) (final : List Ty),
        (t.substitute names args).substitute others final =
          t.substitute names (args.map (substitute others final))) ∧
    (t.isParam = false → ∀ r : Registry, r.length (t.substitute names args) = r.length t) := by
  refine ⟨fun hlength ht => ⟨fun y hy => ?_, fun others final => ?_⟩, fun ht r => length_substitute r ht⟩
  · rcases mem_params_substitute hy with ⟨hparam, hnone⟩ | hargs
    · exact absurd hnone (binding?_ne_none hlength (ht y hparam))
    · exact hargs
  · rw [substitute_substitute (isBoundBy_of_named hlength ht), substituteAll_eq_map]

/-- A function from pairs of `T` and `U` to pointers to `T`. -/
def sampleGenericType : Ty :=
  .callable .func [.applied ⟨7⟩ [.param "T" ⟨1⟩, .param "U" ⟨1⟩]] (.pointer (.param "T" ⟨1⟩))

/-- The second class calls its parameter like one of the first class, and gives it for the other
one. -/
theorem substitution_composes_swapped :
    (∀ y ∈ sampleGenericType.params, y.1 ∈ ["T", "U"]) ∧
    (sampleGenericType.substitute ["T", "U"] [.array (.param "U" ⟨2⟩), .int]).substitute ["U"] [.classRef ⟨3⟩] =
      sampleGenericType.substitute ["T", "U"] [.array (.classRef ⟨3⟩), .int] ∧
    sampleGenericType.isParam = false ∧
    ∀ r : Registry, r.length (sampleGenericType.substitute ["T", "U"] [.array (.param "U" ⟨2⟩), .int]) =
      r.length sampleGenericType := by
  obtain ⟨hcomposes, hlength⟩ :=
    substitution_composes ["T", "U"] [.array (.param "U" ⟨2⟩), .int] sampleGenericType
  have hnamed : ∀ y ∈ sampleGenericType.params, y.1 ∈ ["T", "U"] := by decide
  exact ⟨hnamed, (hcomposes rfl hnamed).2 ["U"] [.classRef ⟨3⟩], rfl, hlength rfl⟩

end ClassLang.Ty
