import ClassLang.Proofs.Registration.Hierarchy

/-!
# Ancestors

In a finished hierarchy the linearization of a class starts with the class and goes on with
the ancestors of its bases. So a fact about classes can be proved by going from the bases to
the class, an ancestor of an ancestor is an ancestor, and a proper ancestor has the shorter
linearization.
-/

namespace ClassLang.Registration

variable {r : Registry}

/-- A class comes first in its linearization, and all that follows comes from its bases. -/
theorem Hierarchy.mro_eq (hr : Hierarchy r) {h : TypeHash} {c : Class}
    (hc : r.class? h = some c) :
    ∃ rest, c.mro = h :: rest ∧
      (∀ b ∈ baseHashes c, ∀ k, r.class? b = some k → k.mro.Sublist rest) ∧
      ∀ a ∈ rest, a ∈ baseHashes c ∨
        ∃ b ∈ baseHashes c, ∃ k, r.class? b = some k ∧ a ∈ k.mro := by
  obtain ⟨mros, hmros, hext⟩ := hr.linearized hc
  obtain ⟨rest, hmro, hsub, hmem⟩ := Linearization.extend_spec hmros.length_eq hext
  refine ⟨rest, by rw [hmro, hr.hash_eq hc], ?_, ?_⟩
  · intro b hb k hk
    obtain ⟨mro, hm, hbm⟩ := exists_right_of_forall₂ hmros hb
    rw [hbm k hk]
    exact hsub mro hm
  · intro a ha
    rcases hmem a ha with ha | ⟨mro, hm, ha⟩
    · exact .inl ha
    · obtain ⟨b, hb, hbm⟩ := exists_right_of_forall₂ hmros.flip hm
      obtain ⟨k, hk⟩ := hr.bases hc b hb
      exact .inr ⟨b, hb, k, hk, hbm k hk ▸ ha⟩

theorem Hierarchy.self_mem_mro (hr : Hierarchy r) {h : TypeHash} {c : Class}
    (hc : r.class? h = some c) : h ∈ c.mro := by
  obtain ⟨rest, hmro, _⟩ := hr.mro_eq hc
  rw [hmro]
  exact List.mem_cons_self ..

/-- The ancestors of a class are the class itself and the ancestors of its bases. -/
theorem Hierarchy.mem_mro_iff (hr : Hierarchy r) {h a : TypeHash} {c : Class}
    (hc : r.class? h = some c) :
    a ∈ c.mro ↔ a = h ∨ ∃ b ∈ baseHashes c, ∃ k, r.class? b = some k ∧ a ∈ k.mro := by
  obtain ⟨rest, hmro, hsub, hmem⟩ := hr.mro_eq hc
  rw [hmro, List.mem_cons]
  constructor
  · rintro (rfl | ha)
    · exact .inl rfl
    · rcases hmem a ha with hb | hb
      · obtain ⟨k, hk⟩ := hr.bases hc a hb
        exact .inr ⟨a, hb, k, hk, hr.self_mem_mro hk⟩
      · exact .inr hb
  · rintro (rfl | ⟨b, hb, k, hk, ha⟩)
    · exact .inl rfl
    · exact .inr ((hsub b hb k hk).subset ha)

/-- A base has the shorter linearization. -/
theorem Hierarchy.length_mro_lt (hr : Hierarchy r) {h b : TypeHash} {c k : Class}
    (hc : r.class? h = some c) (hb : b ∈ baseHashes c) (hk : r.class? b = some k) :
    k.mro.length < c.mro.length := by
  obtain ⟨rest, hmro, hsub, _⟩ := hr.mro_eq hc
  have hle := (hsub b hb k hk).length_le
  rw [hmro, List.length_cons]
  omega

/-- What holds of a class when it holds of its bases holds of every class. -/
theorem Hierarchy.induction (hr : Hierarchy r) {P : TypeHash → Class → Prop}
    (step : ∀ h c, r.class? h = some c →
      (∀ b ∈ baseHashes c, ∀ k, r.class? b = some k → P b k) → P h c) :
    ∀ {h c}, r.class? h = some c → P h c := by
  have hall : ∀ n h c, r.class? h = some c → c.mro.length ≤ n → P h c := by
    intro n
    induction n with
    | zero =>
      intro h c hc hn
      obtain ⟨rest, hmro, _⟩ := hr.mro_eq hc
      rw [hmro, List.length_cons] at hn
      omega
    | succ n ih =>
      intro h c hc hn
      refine step h c hc ?_
      intro b hb k hk
      have := hr.length_mro_lt hc hb hk
      exact ih b k hk (by omega)
  intro h c hc
  exact hall _ h c hc (Nat.le_refl _)

/-- Ancestors are registered. -/
theorem Hierarchy.exists_of_mem_mro (hr : Hierarchy r) {h a : TypeHash} {c : Class}
    (hc : r.class? h = some c) (ha : a ∈ c.mro) : ∃ k, r.class? a = some k := by
  revert ha
  refine hr.induction (P := fun _ c => a ∈ c.mro → ∃ k, r.class? a = some k) ?_ hc
  intro h c hc ih ha
  rcases (hr.mem_mro_iff hc).mp ha with rfl | ⟨b, hb, k, hk, ha⟩
  · exact ⟨c, hc⟩
  · exact ih b hb k hk ha

/-- An ancestor of an ancestor is an ancestor. -/
theorem Hierarchy.mro_trans (hr : Hierarchy r) {h a d : TypeHash} {c k : Class}
    (hc : r.class? h = some c) (ha : a ∈ c.mro) (hk : r.class? a = some k) (hd : d ∈ k.mro) :
    d ∈ c.mro := by
  revert ha
  refine hr.induction (P := fun _ c => a ∈ c.mro → d ∈ c.mro) ?_ hc
  intro h c hc ih ha
  rcases (hr.mem_mro_iff hc).mp ha with rfl | ⟨b, hb, e, he, ha⟩
  · rw [hc] at hk
    injection hk with hk
    exact hk ▸ hd
  · exact (hr.mem_mro_iff hc).mpr (.inr ⟨b, hb, e, he, ih b hb e he ha⟩)

/-- A proper ancestor has the shorter linearization. -/
theorem Hierarchy.length_mro_lt_of_mem (hr : Hierarchy r) {h a : TypeHash} {c k : Class}
    (hc : r.class? h = some c) (ha : a ∈ c.mro) (hne : a ≠ h) (hk : r.class? a = some k) :
    k.mro.length < c.mro.length := by
  have hle : ∀ {h c}, r.class? h = some c → a ∈ c.mro → k.mro.length ≤ c.mro.length := by
    intro h c hc
    refine hr.induction (P := fun _ c => a ∈ c.mro → k.mro.length ≤ c.mro.length) ?_ hc
    intro h c hc ih ha
    rcases (hr.mem_mro_iff hc).mp ha with rfl | ⟨b, hb, e, he, ha⟩
    · rw [hc] at hk
      injection hk with hk
      exact hk ▸ Nat.le_refl _
    · have := ih b hb e he ha
      have := hr.length_mro_lt hc hb he
      omega
  rcases (hr.mem_mro_iff hc).mp ha with rfl | ⟨b, hb, e, he, ha⟩
  · exact absurd rfl hne
  · have := hle he ha
    have := hr.length_mro_lt hc hb he
    omega

/-- A class is not among its own proper ancestors. -/
theorem Hierarchy.not_mem_drop_mro (hr : Hierarchy r) {h : TypeHash} {c : Class}
    (hc : r.class? h = some c) : h ∉ c.mro.drop 1 := by
  intro hmem
  obtain ⟨rest, hmro, hsub, hfrom⟩ := hr.mro_eq hc
  rw [hmro, List.drop_succ_cons, List.drop_zero] at hmem
  rcases hfrom h hmem with hb | ⟨b, hb, k, hk, hmem⟩
  · exact Nat.lt_irrefl _ (hr.length_mro_lt hc hb hc)
  · have hlt := hr.length_mro_lt hc hb hk
    by_cases hne : h = b
    · subst hne
      exact Nat.lt_irrefl _ (hr.length_mro_lt hc hb hc)
    · have := hr.length_mro_lt_of_mem hk hmem hne hc
      omega

/-- A class is no ancestor of its bases. -/
theorem Hierarchy.ne_of_mem_base (hr : Hierarchy r) {h a b : TypeHash} {c k : Class}
    (hc : r.class? h = some c) (hb : b ∈ baseHashes c) (hk : r.class? b = some k)
    (ha : a ∈ k.mro) : a ≠ h := by
  rintro rfl
  obtain ⟨rest, hmro, hsub, _⟩ := hr.mro_eq hc
  have hself := hr.not_mem_drop_mro hc
  rw [hmro, List.drop_succ_cons, List.drop_zero] at hself
  exact hself ((hsub b hb k hk).subset ha)

/-- A linearization lists no class twice. -/
theorem Hierarchy.mro_nodup (hr : Hierarchy r) {h : TypeHash} {c : Class}
    (hc : r.class? h = some c) : c.mro.Nodup := by
  obtain ⟨mros, _, hext⟩ := hr.linearized hc
  obtain ⟨rest, hmro, _⟩ := hr.mro_eq hc
  have htail := Linearization.nodup_of_extend hext
  have hself := hr.not_mem_drop_mro hc
  rw [hmro, List.drop_succ_cons, List.drop_zero] at htail hself
  rw [hmro]
  exact List.nodup_cons.mpr ⟨hself, htail⟩

/-- A class keeps the order of the ancestors of each of its ancestors. -/
theorem Hierarchy.mro_sublist (hr : Hierarchy r) {h a : TypeHash} {c k : Class}
    (hc : r.class? h = some c) (ha : a ∈ c.mro) (hk : r.class? a = some k) :
    k.mro.Sublist c.mro := by
  revert ha
  refine hr.induction (P := fun _ c => a ∈ c.mro → k.mro.Sublist c.mro) ?_ hc
  intro h c hc ih ha
  rcases (hr.mem_mro_iff hc).mp ha with rfl | ⟨b, hb, e, he, ha⟩
  · rw [hc] at hk
    injection hk with hk
    exact hk ▸ List.Sublist.refl _
  · obtain ⟨rest, hmro, hsub, _⟩ := hr.mro_eq hc
    rw [hmro]
    exact ((ih b hb e he ha).trans (hsub b hb e he)).cons h

theorem Hierarchy.mem_mro_of_mem_bases (hr : Hierarchy r) {h b : TypeHash} {c : Class}
    (hc : r.class? h = some c) (hb : b ∈ baseHashes c) : b ∈ c.mro := by
  obtain ⟨k, hk⟩ := hr.bases hc b hb
  exact (hr.mem_mro_iff hc).mpr (.inr ⟨b, hb, k, hk, hr.self_mem_mro hk⟩)

/-- No class is listed twice among the bases of another. -/
theorem Hierarchy.baseHashes_nodup (hr : Hierarchy r) {h : TypeHash} {c : Class}
    (hc : r.class? h = some c) : (baseHashes c).Nodup := by
  obtain ⟨mros, _, hext⟩ := hr.linearized hc
  exact (Linearization.nodup_of_extend hext).sublist
    (Linearization.direct_sublist_of_extend hext)

/-- The first ancestor of a class is its first base. -/
theorem Hierarchy.primary_eq (hr : Hierarchy r) {h : TypeHash} {c : Class}
    (hc : r.class? h = some c) : c.mro[1]? = (baseHashes c).head? := by
  obtain ⟨mros, hmros, hext⟩ := hr.linearized hc
  refine Linearization.head?_of_extend ?_ hext
  have hboth := (List.forall₂_and_left (p := fun b => ∃ k, r.class? b = some k) ..).mpr
    ⟨hr.bases hc, hmros⟩
  refine List.Forall₂.imp ?_ hboth
  rintro b mro ⟨⟨k, hk⟩, hmro⟩
  obtain ⟨rest, hcons, _⟩ := hr.mro_eq hk
  rw [← hmro k hk, hcons]
  rfl

/-- The hierarchy is in the headers. -/
theorem Hierarchy.congr (hr : Hierarchy r) {r' : Registry} (h : SameHeaders r r') :
    Hierarchy r' := by
  have hstand : ∀ k, (r'.class? k).map standing = (r.class? k).map standing := by
    intro k
    have hmap : ∀ o : Option Class, o.map standing = (o.map header).map standing := by
      intro o
      cases o <;> rfl
    rw [hmap, h k, ← hmap]
  refine ⟨?_, ?_, ?_⟩
  · intro k c' hc'
    obtain ⟨c, hc, heq⟩ := h.symm.exists_class hc'
    have hhash := congrArg (fun c : Class => c.hash) heq
    rw [← hr.hash_eq hc]
    exact hhash.symm
  · intro k c' hc' b hb
    obtain ⟨c, hc, heq⟩ := h.symm.exists_class hc'
    have hbases := congrArg baseHashes heq
    obtain ⟨d, hd⟩ := hr.bases hc b (hbases ▸ hb)
    obtain ⟨d', hd', _⟩ := h.exists_class hd
    exact ⟨d', hd'⟩
  · intro k c' hc'
    obtain ⟨c, hc, heq⟩ := h.symm.exists_class hc'
    exact (hr.linearized hc).congr hstand (congrArg standing heq).symm

end ClassLang.Registration
