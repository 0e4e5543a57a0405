import ClassLang.Overload
import ClassLang.Proofs.Step

/-!
# Overload resolution

What resolving an overload chooses is one of the candidates, and it has one to choose from unless
there is none at all.
-/

namespace ClassLang

namespace Overload

variable {κ : Type} {r : Registry} {args : List Ty} {name : String} {span : Span}

/-- Of the candidates at least the first is kept, and only candidates are. -/
theorem distinct_of_foldl (cs seen : List (Candidate κ)) :
    (seen ≠ [] → cs.foldl (fun seen c =>
      if seen.any (·.params = c.params) then seen else seen ++ [c]) seen ≠ []) ∧
    ∀ c ∈ cs.foldl (fun seen c =>
      if seen.any (·.params = c.params) then seen else seen ++ [c]) seen, c ∈ seen ∨ c ∈ cs := by
  induction cs generalizing seen with
  | nil => exact ⟨id, fun c hc => .inl hc⟩
  | cons x cs ih =>
    simp only [List.foldl_cons]
    split
    · obtain ⟨hne, hmem⟩ := ih seen
      refine ⟨hne, fun c hc => ?_⟩
      exact (hmem c hc).imp_right (List.mem_cons_of_mem x)
    · obtain ⟨hne, hmem⟩ := ih (seen ++ [x])
      refine ⟨fun _ => hne (by simp), fun c hc => ?_⟩
      rcases hmem c hc with hc | hc
      · rcases List.mem_append.mp hc with hc | hc
        · exact .inl hc
        · exact .inr (List.mem_singleton.mp hc ▸ List.mem_cons_self)
      · exact .inr (List.mem_cons_of_mem x hc)

theorem distinct_ne_nil {cs : List (Candidate κ)} (h : cs ≠ []) : distinct cs ≠ [] := by
  cases cs with
  | nil => exact absurd rfl h
  | cons x cs =>
    have hfirst : distinct (x :: cs) = cs.foldl (fun seen c =>
        if seen.any (·.params = c.params) then seen else seen ++ [c]) [x] := rfl
    rw [hfirst]
    exact (distinct_of_foldl cs [x]).1 (by simp)

theorem mem_of_mem_distinct {cs : List (Candidate κ)} {c : Candidate κ} (h : c ∈ distinct cs) :
    c ∈ cs := ((distinct_of_foldl cs []).2 c h).resolve_left List.not_mem_nil

theorem fit?_eq_some {c : Candidate κ} {f : Fit κ} (h : fit? r args c = some f) :
    f.key = c.key ∧ f.params = c.params := by
  unfold fit? at h
  split at h
  · obtain ⟨cs, _, rfl⟩ := Option.map_eq_some_iff.mp h
    exact ⟨rfl, rfl⟩
  · cases h

theorem mem_of_mem_best {fits : List (Fit κ)} {f : Fit κ} (h : f ∈ best fits) : f ∈ fits :=
  (List.mem_filter.mp (List.mem_filter.mp h).1).1

/-- What is chosen is how one of the candidates accepts the arguments. -/
theorem exists_fit_of_resolve {cs : List (Candidate κ)} {f : Fit κ}
    (h : resolve r name cs args span = .ok f) : ∃ c ∈ cs, fit? r args c = some f := by
  unfold resolve at h
  split at h
  · cases h
  · rename_i only honly
    have hmem : only ∈ cs := mem_of_mem_distinct (honly ▸ List.mem_cons_self)
    unfold resolveSingle at h
    split at h
    · split at h
      · rename_i f' hf
        injection h with h
        subst h
        exact ⟨only, hmem, hf⟩
      · cases h
    · cases h
  · unfold resolveSeveral at h
    split at h
    · rename_i winner hwinner
      injection h with h
      subst h
      have hbest := mem_of_mem_best (hwinner ▸ List.mem_cons_self (a := winner) (l := []))
      obtain ⟨c, hc, hfit⟩ := List.mem_filterMap.mp hbest
      exact ⟨c, mem_of_mem_distinct hc, hfit⟩
    · cases h
    · cases h

/-- What is chosen is one of the candidates. -/
theorem resolve_eq_ok {cs : List (Candidate κ)} {f : Fit κ}
    (h : resolve r name cs args span = .ok f) :
    ∃ c ∈ cs, f.key = c.key ∧ f.params = c.params := by
  obtain ⟨c, hc, hfit⟩ := exists_fit_of_resolve h
  exact ⟨c, hc, fit?_eq_some hfit⟩

/-- What is chosen has a parameter for every argument. -/
theorem length_params_of_resolve {cs : List (Candidate κ)} {f : Fit κ}
    (h : resolve r name cs args span = .ok f) : f.params.length = args.length := by
  obtain ⟨c, _, hfit⟩ := exists_fit_of_resolve h
  rw [(fit?_eq_some hfit).2]
  unfold fit? at hfit
  split at hfit
  · rename_i hlength
    exact hlength
  · cases hfit

end Overload

end ClassLang
