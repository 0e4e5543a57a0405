import ClassLang.Proofs.Dispatch.Vtable
import ClassLang.Proofs.Ty.Conversion

/-!
# Nearer ancestors cost less

An upcast costs more the later the ancestor comes in the linearization of the class. A linearization
lists no class twice and keeps the order of the ancestors of each ancestor, so an ancestor of an
ancestor comes later; whatever other ways lead to it, the upcast to it costs more.
-/

namespace ClassLang

open Registration

/-! ## Positions in linearizations -/

/-- In a list without repetition what comes behind the head of a part comes behind it in the
whole. -/
theorem findIdx?_lt_of_sublist {l rest : List TypeHash} {a b : TypeHash} {i j : Nat}
    (hl : l.Nodup) (hsub : (b :: rest).Sublist l) (ha : a ∈ rest)
    (hi : l.findIdx? (· = b) = some i) (hj : l.findIdx? (· = a) = some j) : i < j := by
  obtain ⟨before, after, rfl, hb, hrest⟩ := List.cons_sublist_iff.mp hsub
  have hafter : a ∈ after := hrest.subset ha
  have hbefore : before.findIdx? (· = a) = none := by
    refine List.findIdx?_eq_none_iff.mpr fun x hx => decide_eq_false ?_
    rintro rfl
    exact (List.nodup_append.mp hl).2.2 x hx x hafter rfl
  obtain ⟨k, hk⟩ : ∃ k, before.findIdx? (· = b) = some k := by
    refine Option.isSome_iff_exists.mp ?_
    rw [List.findIdx?_isSome]
    exact List.any_eq_true.mpr ⟨b, hb, decide_eq_true rfl⟩
  rw [List.findIdx?_append, hk, Option.some_or] at hi
  rw [List.findIdx?_append, hbefore, Option.none_or, Option.map_eq_some_iff] at hj
  obtain ⟨n, _, rfl⟩ := hj
  obtain ⟨hlt, _⟩ := List.findIdx?_eq_some_iff_getElem.mp hk
  injection hi with hi
  omega

/-! ## The cost of an upcast -/

/-- The distance to a class-like type is the position of its class in the linearization, unless both
are the same template parameter. -/
theorem Registry.upcastDistance?_eq_some {r : Registry} {source target : Ty} {n : Nat}
    {s t : TypeHash} {k : Class} (h : r.upcastDistance? source target = some n)
    (hne : source ≠ target) (hs : source.classHash? = some s) (ht : target.classHash? = some t)
    (hk : r.class? s = some k) : k.mro.findIdx? (· = t) = some n := by
  unfold upcastDistance? at h
  split at h
  · rw [if_neg hne] at h
    cases h
  · simp only [hs, ht, hk, Option.bind_eq_bind, Option.bind_some, Option.bind_eq_some_iff] at h
    obtain ⟨m, hm, h⟩ := h
    rw [hm]
    split at h
    · exact h
    · simp only [Option.bind_eq_some_iff] at h
      obtain ⟨_, _, h⟩ := h
      split at h
      · exact h
      · cases h

/-- The conversion between pointers to class-like types is the identity or an upcast. -/
theorem Registry.conversion?_pointer {r : Registry} {source target : Ty} {v : Conversion}
    {s t : TypeHash} {k : Class} (h : r.conversion? (.pointer source) (.pointer target) = some v)
    (hs : source.classHash? = some s) (ht : target.classHash? = some t)
    (hk : r.class? s = some k) :
    source = target ∧ v = .identity ∨
      source ≠ target ∧ ∃ n, k.mro.findIdx? (· = t) = some n ∧ v = .upcast n := by
  rw [conversion?, conversionAlong?_plain _ _ _ rfl] at h
  split at h
  · rename_i heq
    injection heq with heq
    injection h with h
    exact .inl ⟨heq, h.symm⟩
  · rename_i hne
    have hne : source ≠ target := fun heq => hne (congrArg _ heq)
    have hvoid : ∀ {u : Ty} {x : TypeHash}, u.classHash? = some x → u.isVoid = false := by
      intro u x hu
      cases u <;> first | rfl | cases hu
    simp only [plainAlong?, plainConversion?, hvoid hs, hvoid ht, Bool.false_eq_true, if_false,
      Option.map_eq_some_iff] at h
    obtain ⟨n, hn, rfl⟩ := h
    exact .inr ⟨hne, n, upcastDistance?_eq_some hn hne hs ht hk, rfl⟩

namespace Registration

/-- In a program that registration accepts, converting a pointer to a class-like type into one to an
ancestor costs less than converting it into one to a further ancestor of this ancestor. -/
theorem nearer_ancestor_costs_less {o : Options} {p : Program} {r : Registry}
    (h : accepted? o p = some r) {C B A : Ty} {c b a : TypeHash} {kc kb : Class}
    (hC : C.classHash? = some c) (hB : B.classHash? = some b) (hA : A.classHash? = some a)
    (hc : r.class? c = some kc) (hb : r.class? b = some kb)
    (hbc : b ∈ kc.mro) (hab : a ∈ kb.mro) (hne : a ≠ b) {near far : Conversion}
    (hnear : r.conversion? (.pointer C) (.pointer B) = some near)
    (hfar : r.conversion? (.pointer C) (.pointer A) = some far) : near.cost < far.cost := by
  have hr := (Dispatch.tables_of_accepted? h).hierarchy
  obtain ⟨rest, hmro, _⟩ := hr.mro_eq hb
  have hrest : a ∈ rest := by
    rw [hmro] at hab
    exact (List.mem_cons.mp hab).resolve_left hne
  have hsub : (b :: rest).Sublist kc.mro := hmro ▸ hr.mro_sublist hc hbc hb
  -- The class comes first in its linearization, so it is no further ancestor.
  have hca : C ≠ A := by
    rintro rfl
    rw [hC] at hA
    injection hA with hA
    subst hA
    have hlt := hr.length_mro_lt_of_mem hb hab hne hc
    have hle := (hr.mro_sublist hc hbc hb).length_le
    omega
  obtain ⟨heq, _⟩ | ⟨_, j, hj, rfl⟩ := Registry.conversion?_pointer hfar hC hA hc
  · exact absurd heq hca
  obtain ⟨_, rfl⟩ | ⟨_, i, hi, rfl⟩ := Registry.conversion?_pointer hnear hC hB hc
  · exact Nat.lt_of_lt_of_le (by decide : 0 < 3) (Nat.le_add_right 3 j)
  · have hij : i < j := findIdx?_lt_of_sublist (hr.mro_nodup hc) hsub hrest hi hj
    exact Nat.add_lt_add_left hij 3

set_option maxRecDepth 100000 in
theorem nearer_ancestor_costs_less_diamond : ∃ r near far,
    accepted? {} Dispatch.diamond = some r ∧
    r.conversion? (.pointer (.classRef (TypeHash.ofName "m$D")))
      (.pointer (.classRef (TypeHash.ofName "m$C"))) = some near ∧
    r.conversion? (.pointer (.classRef (TypeHash.ofName "m$D")))
      (.pointer (.classRef (TypeHash.ofName "m$A"))) = some far ∧
    near.cost < far.cost := by
  have hrun : (do
      let r ← accepted? {} Dispatch.diamond
      let d ← r.class? (TypeHash.ofName "m$D")
      let c ← r.class? (TypeHash.ofName "m$C")
      let near ← r.conversion? (.pointer (.classRef (TypeHash.ofName "m$D")))
        (.pointer (.classRef (TypeHash.ofName "m$C")))
      let far ← r.conversion? (.pointer (.classRef (TypeHash.ofName "m$D")))
        (.pointer (.classRef (TypeHash.ofName "m$A")))
      return (d.mro.contains (TypeHash.ofName "m$C"), c.mro.contains (TypeHash.ofName "m$A"),
        near.cost, far.cost)) = some (true, true, 5, 6) := by
    decide +kernel
  simp only [Option.bind_eq_bind, Option.bind_eq_some_iff, Option.pure_def, Option.some.injEq,
    Prod.mk.injEq] at hrun
  obtain ⟨r, hr, d, hd, c, hc, near, hnear, far, hfar, hcd, hac, -, -⟩ := hrun
  have hne : TypeHash.ofName "m$A" ≠ TypeHash.ofName "m$C" := by decide +kernel
  exact ⟨r, near, far, hr, hnear, hfar, nearer_ancestor_costs_less hr rfl rfl rfl hd hc
    (List.contains_iff_mem.mp hcd) (List.contains_iff_mem.mp hac) hne hnear hfar⟩

end Registration

end ClassLang
