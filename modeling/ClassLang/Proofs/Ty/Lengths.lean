import ClassLang.Ty.Conversion

/-!
# The lengths of converted values

What a conversion does tells how many bytes the value has before and after it.
-/

namespace ClassLang

/-- The lengths of the types between which a conversion is, and that only the identity leaves the
type as it is. -/
theorem Registry.conversion?_lengths {r : Registry} {s t : Ty} {k : Conversion}
    (h : r.conversion? s t = some k) :
    match k.kind with
    | .identity => s = t
    | .charByte => r.length s = 1 ∧ r.length t = 1
    | .intWiden => r.length s = 1 ∧ r.length t = 8
    | .intToFloat => r.length s = (if s = .int then 8 else 1) ∧ r.length t = 8
    | .intNarrow => r.length s = 8 ∧ r.length t = 1
    | .floatToInt => r.length s = 8 ∧ (r.length t = 8 ∨ r.length t = 1)
    | _ => s ≠ t := by
  unfold conversion? conversionAlong? at h
  split at h
  · rename_i heq
    injection h with h
    subst h
    exact heq
  · rename_i hne
    split at h
    · split at h
      · injection h with h
        subst h
        exact hne
      · cases h
    · dsimp only at h
      unfold plainConversion? at h
      split at h
      · -- Between two scalar types.
        rename_i p q _
        cases p <;> cases q <;> first
          | cases h; done
          | (injection h with h; subst h
             first | exact ⟨rfl, rfl⟩ | exact ⟨rfl, .inl rfl⟩ | exact ⟨rfl, .inr rfl⟩)
      all_goals
        try split at h
        all_goals try split at h
        all_goals first
          | cases h; done
          | (injection h with h; subst h; exact hne)
          | (rw [Option.map_eq_some_iff] at h
             obtain ⟨_, _, rfl⟩ := h
             exact hne)

end ClassLang
