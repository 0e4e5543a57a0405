import ClassLang.Class.Dispatch
import ClassLang.Proofs.Registration.Members

/-!
# How one method table is built

The slots a class inherits are those of its bases, each taken from the first base that has it.
Reading the class body keeps an invariant: a method that was read fills exactly the slots with
its name and parameters, every inherited slot is still there with its name and parameters, and
every other slot was taken from the registry on the way. Since no two methods of a body have
the same name and parameters, no two of them fill the same slot.
-/

namespace ClassLang

/-- A slot of a base in the terms of a class. -/
def Rank.inTerms (k : Rank) (c base : Class) : Rank :=
  { k with params := k.params.map (c.inOwnTerms base), result := c.inOwnTerms base k.result }

/-- Whether a class sees a slot. -/
def Class.sees (c : Class) (slot : Nat) : Bool := c.ranks.any fun k => k.slot == slot

theorem Class.sees_iff {c : Class} {slot : Nat} :
    c.sees slot = true ↔ ∃ k ∈ c.ranks, k.slot = slot := by
  simp [Class.sees]

/-- The first of the given classes that sees a slot. -/
def Registry.firstSeeing? (r : Registry) (slot : Nat) (hs : List TypeHash) : Option Class :=
  (hs.filterMap r.class?).find? fun k => k.sees slot

namespace Dispatch

/-! ## Inherited slots -/

/-- Adding slots in the terms of a class, one by one. -/
structure Added (c base : Class) (from_ : List Rank) (ranks ranks' : List Rank) : Prop where
  keeps : ∀ k ∈ ranks, k ∈ ranks'
  covers : ∀ k ∈ from_, ∃ k' ∈ ranks', k'.slot = k.slot
  origin : ∀ k' ∈ ranks', k' ∈ ranks ∨
    (∀ k ∈ ranks, k.slot ≠ k'.slot) ∧ ∃ k ∈ from_, k' = k.inTerms c base
  nodup : (ranks.map (·.slot)).Nodup → (ranks'.map (·.slot)).Nodup

theorem foldl_addRanks (c base : Class) (from_ : List Rank) :
    ∀ ranks, Added c base from_ ranks (from_.foldl
      (fun ranks k => if ranks.any (·.slot == k.slot) then ranks else ranks ++ [k.inTerms c base])
      ranks) := by
  induction from_ with
  | nil =>
    intro ranks
    exact ⟨fun _ h => h, fun _ h => absurd h List.not_mem_nil, fun _ h => .inl h, id⟩
  | cons k from_ ih =>
    intro ranks
    rw [List.foldl_cons]
    split
    · rename_i hany
      -- A slot that is there already covers the one of the base.
      obtain ⟨k₀, hk₀, hslot⟩ : ∃ k₀ ∈ ranks, k₀.slot = k.slot := by simpa using hany
      have h := ih ranks
      refine ⟨h.keeps, ?_, ?_, h.nodup⟩
      · intro k₁ hk₁
        rcases List.mem_cons.mp hk₁ with rfl | hk₁
        · exact ⟨k₀, h.keeps k₀ hk₀, hslot⟩
        · exact h.covers k₁ hk₁
      · intro k' hk'
        rcases h.origin k' hk' with hk' | ⟨hfresh, k₁, hk₁, heq⟩
        · exact .inl hk'
        · exact .inr ⟨hfresh, k₁, List.mem_cons_of_mem _ hk₁, heq⟩
    · rename_i hany
      -- Otherwise it goes behind, in the terms of the class.
      have hfresh : ∀ k₀ ∈ ranks, k₀.slot ≠ k.slot := by simpa using hany
      have h := ih (ranks ++ [k.inTerms c base])
      have hlast : k.inTerms c base ∈ ranks ++ [k.inTerms c base] := by simp
      refine ⟨fun k₀ hk₀ => h.keeps k₀ (List.mem_append_left _ hk₀), ?_, ?_, ?_⟩
      · intro k₁ hk₁
        rcases List.mem_cons.mp hk₁ with rfl | hk₁
        · exact ⟨_, h.keeps _ hlast, rfl⟩
        · exact h.covers k₁ hk₁
      · intro k' hk'
        rcases h.origin k' hk' with hk' | ⟨hnew, k₁, hk₁, heq⟩
        · rcases List.mem_append.mp hk' with hk' | hk'
          · exact .inl hk'
          · rw [List.mem_singleton] at hk'
            subst hk'
            exact .inr ⟨hfresh, k, List.mem_cons_self .., rfl⟩
        · exact .inr ⟨fun k₀ hk₀ => hnew k₀ (List.mem_append_left _ hk₀), k₁,
            List.mem_cons_of_mem _ hk₁, heq⟩
      · intro hnodup
        refine h.nodup ?_
        rw [List.map_append, List.map_singleton]
        refine List.nodup_append.mpr ⟨hnodup, by simp, ?_⟩
        intro a ha b hb
        obtain ⟨k₀, hk₀, rfl⟩ := List.mem_map.mp ha
        rw [List.mem_singleton.mp hb]
        exact hfresh k₀ hk₀

theorem addRanks_added (c base : Class) (ranks : List Rank) :
    Added c base base.ranks ranks (addRanks c base ranks) :=
  foldl_addRanks c base base.ranks ranks

/-- The slots that `c` sees through some bases, after those it saw before. -/
structure Inherited (r : Registry) (c : Class) (hs : List TypeHash) (ranks ranks' : List Rank) :
    Prop where
  keeps : ∀ k ∈ ranks, k ∈ ranks'
  covers : ∀ h ∈ hs, ∀ base, r.class? h = some base → ∀ k ∈ base.ranks,
    ∃ k' ∈ ranks', k'.slot = k.slot
  origin : ∀ k' ∈ ranks', k' ∈ ranks ∨ (∀ k ∈ ranks, k.slot ≠ k'.slot) ∧
    ∃ base, r.firstSeeing? k'.slot hs = some base ∧ ∃ k ∈ base.ranks, k' = k.inTerms c base
  nodup : (ranks.map (·.slot)).Nodup → (ranks'.map (·.slot)).Nodup
  registered : ∀ h ∈ hs, ∃ base, r.class? h = some base

theorem inheritedRanks_inherited {r : Registry} {c : Class} {ts : List Ty} :
    ∀ {ranks ranks' : List Rank}, inheritedRanks r c ts ranks = .ok ranks' →
      Inherited r c (ts.filterMap (·.classHash?)) ranks ranks' := by
  induction ts with
  | nil =>
    intro ranks ranks' h
    injection h with h
    subst h
    refine ⟨fun _ h => h, ?_, fun _ h => .inl h, id, ?_⟩
    · intro h hh
      exact absurd hh List.not_mem_nil
    · intro h hh
      exact absurd hh List.not_mem_nil
  | cons t ts ih =>
    intro ranks ranks' h
    unfold inheritedRanks at h
    split at h
    · rename_i hnone
      rw [List.filterMap_cons_none hnone]
      exact ih h
    · rename_i hash hsome
      rw [List.filterMap_cons_some hsome]
      simp only [except_bind_eq_ok, Registry.getClass_eq_ok] at h
      obtain ⟨base, hbase, hrest⟩ := h
      have hadd := addRanks_added c base ranks
      have hinh := ih hrest
      refine ⟨fun k hk => hinh.keeps k (hadd.keeps k hk), ?_, ?_,
        fun hn => hinh.nodup (hadd.nodup hn), ?_⟩
      · intro h hh b hb k hk
        rcases List.mem_cons.mp hh with rfl | hh
        · rw [hbase] at hb
          injection hb with hb
          subst hb
          obtain ⟨k', hk', hslot⟩ := hadd.covers k hk
          exact ⟨k', hinh.keeps k' hk', hslot⟩
        · exact hinh.covers h hh b hb k hk
      · intro k' hk'
        unfold Registry.firstSeeing?
        rw [List.filterMap_cons_some hbase]
        rcases hinh.origin k' hk' with hk' | ⟨hfresh, b, hb, k, hk, heq⟩
        -- What this base added it is the first to see.
        · rcases hadd.origin k' hk' with hk' | ⟨hfresh, k, hk, heq⟩
          · exact .inl hk'
          · refine .inr ⟨hfresh, base, ?_, k, hk, heq⟩
            rw [List.find?_cons_of_pos]
            exact Class.sees_iff.mpr ⟨k, hk, by rw [heq]; rfl⟩
        · refine .inr ⟨fun k₀ hk₀ => hfresh k₀ (hadd.keeps k₀ hk₀), b, ?_, k, hk, heq⟩
          rw [List.find?_cons_of_neg]
          · exact hb
          · -- The first base does not see the slot, or it would be there already.
            intro hsees
            obtain ⟨k₀, hk₀, hslot⟩ := Class.sees_iff.mp hsees
            obtain ⟨k₁, hk₁, hslot₁⟩ := hadd.covers k₀ hk₀
            exact hfresh k₁ hk₁ (hslot₁.trans hslot)
      · intro h hh
        rcases List.mem_cons.mp hh with rfl | hh
        · exact ⟨base, hbase⟩
        · exact hinh.registered h hh

/-! ## One method -/

theorem overrides_iff {m : OwnMethod} {k : Rank} :
    overrides m k = true ↔ k.name = m.name ∧ k.params = m.params := by
  simp [overrides]

/-- A slot after `m` was read. -/
def replaced (m : OwnMethod) (k : Rank) : Rank :=
  if overrides m k then { k with result := m.result } else k

@[simp]
theorem replaced_slot (m : OwnMethod) (k : Rank) : (replaced m k).slot = k.slot := by
  unfold replaced
  split <;> rfl

@[simp]
theorem replaced_name (m : OwnMethod) (k : Rank) : (replaced m k).name = k.name := by
  unfold replaced
  split <;> rfl

@[simp]
theorem replaced_params (m : OwnMethod) (k : Rank) : (replaced m k).params = k.params := by
  unfold replaced
  split <;> rfl

theorem replaced_of_not_overrides {m : OwnMethod} {k : Rank} (h : overrides m k = false) :
    replaced m k = k := by
  simp [replaced, h]

theorem overrideRanks_eq {r : Registry} {c : Class} {m : OwnMethod} {ranks : List Rank} :
    ∀ {ranks' : List Rank}, overrideRanks r c m ranks = .ok ranks' →
      ranks' = ranks.map (replaced m) ∧
      ∀ k ∈ ranks, overrides m k = true → checkOverride r c m k = .ok () := by
  induction ranks with
  | nil =>
    intro ranks' h
    injection h with h
    exact ⟨h.symm, fun k hk => absurd hk List.not_mem_nil⟩
  | cons k ranks ih =>
    intro ranks' h
    unfold overrideRanks at h
    split at h
    · rename_i hover
      simp only [except_bind_eq_ok, except_pure_eq_ok] at h
      obtain ⟨_, hcheck, rest, hrest, rfl⟩ := h
      obtain ⟨rfl, hchecked⟩ := ih hrest
      refine ⟨by simp [replaced, hover], ?_⟩
      intro k' hk' hover'
      rcases List.mem_cons.mp hk' with rfl | hk'
      · exact hcheck
      · exact hchecked k' hk' hover'
    · rename_i hover
      simp only [except_bind_eq_ok, except_pure_eq_ok] at h
      obtain ⟨rest, hrest, rfl⟩ := h
      obtain ⟨rfl, hchecked⟩ := ih hrest
      refine ⟨by simp [replaced, hover], ?_⟩
      intro k' hk' hover'
      rcases List.mem_cons.mp hk' with rfl | hk'
      · exact absurd hover' hover
      · exact hchecked k' hk' hover'

/-- A method gets a fresh slot, or all the slots that it overrides. -/
theorem assignSlots_cases {r r' : Registry} {c : Class} {m : OwnMethod} {ranks ranks' : List Rank}
    {method : Method} (h : assignSlots r c m ranks = (.ok (method, ranks'), r')) :
    ((∀ k ∈ ranks, overrides m k = false) ∧ method = OwnMethod.inSlots m r.nextSlot [] ∧
      ranks' = ranks ++ [⟨m.name, m.params, m.result, r.nextSlot⟩] ∧
      r' = { r with nextSlot := r.nextSlot + 1 }) ∨
    (∃ slot more, (ranks.filter (overrides m)).map (·.slot) = slot :: more ∧
      method = OwnMethod.inSlots m slot more ∧ ranks' = ranks.map (replaced m) ∧
      (∀ k ∈ ranks, overrides m k = true → checkOverride r c m k = .ok ()) ∧ r' = r) := by
  unfold assignSlots at h
  split at h
  · rename_i hnone
    simp only [Registry.freshSlot, Prod.mk.injEq, Except.ok.injEq] at h
    obtain ⟨⟨rfl, rfl⟩, rfl⟩ := h
    refine .inl ⟨?_, rfl, rfl, rfl⟩
    intro k hk
    rw [List.map_eq_nil_iff, List.filter_eq_nil_iff] at hnone
    simpa using hnone k hk
  · rename_i slot more hsome
    simp only [Prod.mk.injEq, except_bind_eq_ok, except_pure_eq_ok] at h
    obtain ⟨⟨ranks₁, hranks, rfl, rfl⟩, rfl⟩ := h
    obtain ⟨hranks, hchecked⟩ := overrideRanks_eq hranks
    exact .inr ⟨slot, more, hsome, rfl, hranks, hchecked, rfl⟩

theorem occupies_inSlots {m : OwnMethod} {slot s : Nat} {more : List Nat} :
    (OwnMethod.inSlots m slot more).occupies s = true ↔ s ∈ slot :: more := by
  simp only [Method.occupies, OwnMethod.inSlots, Bool.or_eq_true, beq_iff_eq,
    List.contains_iff_mem, List.mem_cons]
  rw [eq_comm]

/-! ## The class body -/

/-- Two methods have the same name and parameters. -/
def SameKey (a b : OwnMethod) : Prop := a.name = b.name ∧ a.params = b.params

theorem checkDeclared_ok {c : Class} {earlier : List OwnMethod} {m : OwnMethod}
    (h : checkDeclared c earlier m = .ok ()) : ∀ e ∈ earlier, ¬SameKey e m := by
  unfold checkDeclared at h
  dsimp only at h
  split at h
  · simp at h
  · split at h
    · simp at h
    · rename_i hnone
      intro e he hsame
      have hfind : earlier.find? (fun e => e.name == m.name && e.params = m.params) = none :=
        Option.eq_none_iff_forall_not_mem.mpr fun k hk => hnone k hk
      rw [List.find?_eq_none] at hfind
      exact hfind e he (by simpa using And.intro hsame.1 hsame.2)

/-- A check that a method may replace what is in a slot, in a registry with the same classes. -/
def Checked (r : Registry) (c : Class) (m : OwnMethod) (k : Rank) : Prop :=
  ∃ n, checkOverride { r with nextSlot := n } c m k = .ok ()

/-- What holds after some methods of a body were read, in a registry that started as `r` and
with the slots `inh` that the class inherits. -/
structure Read (r : Registry) (c : Class) (inh : List Rank) (earlier : List OwnMethod)
    (methods : List Method) (ranks : List Rank) (next : Nat) : Prop where
  methods_eq : List.Forall₂ (fun o m => ∃ slot more, m = OwnMethod.inSlots o slot more)
    earlier methods
  keys : earlier.Pairwise fun a b => ¬SameKey a b
  nodup : (ranks.map (·.slot)).Nodup
  next_le : r.nextSlot ≤ next
  bound : ∀ k ∈ ranks, k.slot < next
  occupies : ∀ m ∈ methods, ∀ s, m.occupies s = true ↔
    ∃ k ∈ ranks, k.slot = s ∧ k.name = m.name ∧ k.params = m.params
  kept : ∀ k ∈ inh, (k ∈ ranks ∧ ∀ o ∈ earlier, overrides o k = false) ∨
    ∃ o ∈ earlier, overrides o k = true ∧ { k with result := o.result } ∈ ranks ∧
      Checked r c o k
  origin : ∀ k' ∈ ranks, (∃ k ∈ inh, k.slot = k'.slot) ∨
    r.nextSlot ≤ k'.slot ∧ ∃ o ∈ earlier, k' = ⟨o.name, o.params, o.result, k'.slot⟩

theorem read_nil {r : Registry} {c : Class} {inh : List Rank}
    (hnodup : (inh.map (·.slot)).Nodup) (hbound : ∀ k ∈ inh, k.slot < r.nextSlot) :
    Read r c inh [] [] inh r.nextSlot where
  methods_eq := .nil
  keys := .nil
  nodup := hnodup
  next_le := Nat.le_refl _
  bound := hbound
  occupies _ hm := absurd hm List.not_mem_nil
  kept _ hk := .inl ⟨hk, fun _ ho => absurd ho List.not_mem_nil⟩
  origin k' hk' := .inl ⟨k', hk', rfl⟩

namespace Read

variable {r : Registry} {c : Class} {inh ranks : List Rank} {earlier : List OwnMethod}
  {methods : List Method} {next : Nat} {m : OwnMethod}

theorem keys_append (h : Read r c inh earlier methods ranks next)
    (hnew : ∀ e ∈ earlier, ¬SameKey e m) :
    (earlier ++ [m]).Pairwise fun a b => ¬SameKey a b := by
  refine List.pairwise_append.mpr ⟨h.keys, List.pairwise_singleton .., fun a ha b hb => ?_⟩
  rw [List.mem_singleton.mp hb]
  exact hnew a ha

/-- What an earlier method stands for is not overridden again. -/
theorem overrides_of_new (hnew : ∀ e ∈ earlier, ¬SameKey e m) {o : OwnMethod} (ho : o ∈ earlier)
    {k : Rank} (hover : overrides o k = true) : overrides m k = false := by
  obtain ⟨hname, hparams⟩ := overrides_iff.mp hover
  refine Bool.eq_false_iff.mpr fun hagain => ?_
  obtain ⟨hname', hparams'⟩ := overrides_iff.mp hagain
  exact hnew o ho ⟨hname.symm.trans hname', hparams.symm.trans hparams'⟩

theorem none_overrides_append {k : Rank} (hno : ∀ o ∈ earlier, overrides o k = false)
    (hm : overrides m k = false) : ∀ o ∈ earlier ++ [m], overrides o k = false := by
  intro o ho
  rcases List.mem_append.mp ho with ho | ho
  · exact hno o ho
  · rwa [List.mem_singleton.mp ho]

/-- The slot that is added is that of the new method, and of no other. -/
theorem occupies_fresh (h : Read r c inh earlier methods ranks next)
    (hnew : ∀ e ∈ earlier, ¬SameKey e m) (hfree : ∀ k ∈ ranks, overrides m k = false) :
    ∀ m' ∈ methods ++ [OwnMethod.inSlots m next []], ∀ s, m'.occupies s = true ↔
      ∃ k ∈ ranks ++ [⟨m.name, m.params, m.result, next⟩],
        k.slot = s ∧ k.name = m'.name ∧ k.params = m'.params := by
  intro m' hm' s
  rcases List.mem_append.mp hm' with hm' | hm'
  · -- A method that was read before has another name or other parameters.
    obtain ⟨o, ho, slot, more, rfl⟩ := exists_right_of_forall₂ h.methods_eq.flip hm'
    rw [h.occupies _ hm' s]
    constructor
    · rintro ⟨k, hk, hkey⟩
      exact ⟨k, List.mem_append_left _ hk, hkey⟩
    · rintro ⟨k, hk, hs, hkey⟩
      rcases List.mem_append.mp hk with hk | hk
      · exact ⟨k, hk, hs, hkey⟩
      · rw [List.mem_singleton.mp hk] at hkey
        exact absurd ⟨hkey.1.symm, hkey.2.symm⟩ (hnew o ho)
  · rw [List.mem_singleton.mp hm', occupies_inSlots, List.mem_singleton]
    constructor
    · rintro rfl
      exact ⟨_, List.mem_append_right _ (List.mem_singleton.mpr rfl), rfl, rfl, rfl⟩
    · rintro ⟨k, hk, hs, hkey⟩
      rcases List.mem_append.mp hk with hk | hk
      · have hover : overrides m k = true := overrides_iff.mpr hkey
        rw [hfree k hk] at hover
        cases hover
      · rw [← hs, List.mem_singleton.mp hk]

/-- A method that overrides nothing gets a slot of its own. -/
theorem fresh (h : Read r c inh earlier methods ranks next) (hnew : ∀ e ∈ earlier, ¬SameKey e m)
    (hfree : ∀ k ∈ ranks, overrides m k = false) :
    Read r c inh (earlier ++ [m]) (methods ++ [OwnMethod.inSlots m next []])
      (ranks ++ [⟨m.name, m.params, m.result, next⟩]) (next + 1) where
  methods_eq := List.rel_append h.methods_eq (.cons ⟨next, [], rfl⟩ .nil)
  keys := h.keys_append hnew
  nodup := by
    rw [List.map_append, List.map_singleton]
    refine List.nodup_append.mpr ⟨h.nodup, by simp, fun a ha b hb => ?_⟩
    obtain ⟨k, hk, rfl⟩ := List.mem_map.mp ha
    rw [List.mem_singleton.mp hb]
    exact Nat.ne_of_lt (h.bound k hk)
  next_le := Nat.le_succ_of_le h.next_le
  bound k hk := by
    rcases List.mem_append.mp hk with hk | hk
    · exact Nat.lt_succ_of_lt (h.bound k hk)
    · rw [List.mem_singleton.mp hk]
      exact Nat.lt_succ_self _
  occupies := h.occupies_fresh hnew hfree
  kept k hk := by
    rcases h.kept k hk with ⟨hmem, hno⟩ | ⟨o, ho, hover, hmem, hcheck⟩
    · exact .inl ⟨List.mem_append_left _ hmem, none_overrides_append hno (hfree k hmem)⟩
    · exact .inr ⟨o, List.mem_append_left _ ho, hover, List.mem_append_left _ hmem, hcheck⟩
  origin k' hk' := by
    rcases List.mem_append.mp hk' with hk' | hk'
    · rcases h.origin k' hk' with hin | ⟨hle, o, ho, heq⟩
      · exact .inl hin
      · exact .inr ⟨hle, o, List.mem_append_left _ ho, heq⟩
    · rw [List.mem_singleton.mp hk']
      exact .inr ⟨h.next_le, m, List.mem_append_right _ (List.mem_singleton_self m), rfl⟩

/-- The slots that are overridden are those of the new method, and of no other. -/
theorem occupies_override {slot : Nat} {more : List Nat}
    (h : Read r c inh earlier methods ranks next)
    (hslots : (ranks.filter (overrides m)).map (·.slot) = slot :: more) :
    ∀ m' ∈ methods ++ [OwnMethod.inSlots m slot more], ∀ s, m'.occupies s = true ↔
      ∃ k ∈ ranks.map (replaced m), k.slot = s ∧ k.name = m'.name ∧ k.params = m'.params := by
  intro m' hm' s
  simp only [List.mem_map, exists_exists_and_eq_and, replaced_slot, replaced_name, replaced_params]
  rcases List.mem_append.mp hm' with hm' | hm'
  · exact h.occupies m' hm' s
  · rw [List.mem_singleton.mp hm', occupies_inSlots, ← hslots, List.mem_map]
    constructor
    · rintro ⟨k, hk, rfl⟩
      obtain ⟨hk, hover⟩ := List.mem_filter.mp hk
      exact ⟨k, hk, rfl, overrides_iff.mp hover⟩
    · rintro ⟨k, hk, rfl, hkey⟩
      exact ⟨k, List.mem_filter.mpr ⟨hk, overrides_iff.mpr hkey⟩, rfl⟩

/-- A method that overrides slots fills all of them. -/
theorem override {slot : Nat} {more : List Nat} (h : Read r c inh earlier methods ranks next)
    (hnew : ∀ e ∈ earlier, ¬SameKey e m)
    (hslots : (ranks.filter (overrides m)).map (·.slot) = slot :: more)
    (hcheck : ∀ k ∈ ranks, overrides m k = true → Checked r c m k) :
    Read r c inh (earlier ++ [m]) (methods ++ [OwnMethod.inSlots m slot more])
      (ranks.map (replaced m)) next where
  methods_eq := List.rel_append h.methods_eq (.cons ⟨slot, more, rfl⟩ .nil)
  keys := h.keys_append hnew
  nodup := by
    have hsame : (fun k : Rank => k.slot) ∘ replaced m = fun k => k.slot :=
      funext fun k => replaced_slot m k
    rw [List.map_map, hsame]
    exact h.nodup
  next_le := h.next_le
  bound k hk := by
    obtain ⟨k₀, hk₀, rfl⟩ := List.mem_map.mp hk
    rw [replaced_slot]
    exact h.bound k₀ hk₀
  occupies := h.occupies_override hslots
  kept k hk := by
    rcases h.kept k hk with ⟨hin, hno⟩ | ⟨o, ho, hover, hin, hchecked⟩
    · cases hover : overrides m k with
      | true => exact .inr ⟨m, List.mem_append_right _ (List.mem_singleton_self m), hover,
          List.mem_map.mpr ⟨k, hin, if_pos hover⟩, hcheck k hin hover⟩
      | false => exact .inl ⟨List.mem_map.mpr ⟨k, hin, replaced_of_not_overrides hover⟩,
          none_overrides_append hno hover⟩
    · -- The slot was overridden before, so `m` has another name or other parameters.
      exact .inr ⟨o, List.mem_append_left _ ho, hover, List.mem_map.mpr ⟨_, hin,
        replaced_of_not_overrides (overrides_of_new hnew ho hover)⟩, hchecked⟩
  origin k' hk' := by
    obtain ⟨k₀, hk₀, rfl⟩ := List.mem_map.mp hk'
    rw [replaced_slot]
    rcases h.origin k₀ hk₀ with hin | ⟨hle, o, ho, heq⟩
    · exact .inl hin
    · have hover : overrides o k₀ = true := by
        rw [heq]
        exact overrides_iff.mpr ⟨rfl, rfl⟩
      rw [replaced_of_not_overrides (overrides_of_new hnew ho hover)]
      exact .inr ⟨hle, o, List.mem_append_left _ ho, heq⟩

end Read

theorem readMethods_read {r₀ : Registry} {c : Class} {inh : List Rank} {own : List OwnMethod} :
    ∀ {next : Nat} {r' : Registry} {earlier : List OwnMethod} {methods methods' : List Method}
      {ranks ranks' : List Rank},
      Read r₀ c inh earlier methods ranks next →
      readMethods c own { r₀ with nextSlot := next } earlier methods ranks =
        (.ok (methods', ranks'), r') →
      ∃ next', r' = { r₀ with nextSlot := next' } ∧
        Read r₀ c inh (earlier ++ own) methods' ranks' next' := by
  induction own with
  | nil =>
    intro next r' earlier methods methods' ranks ranks' hread h
    simp only [readMethods, Prod.mk.injEq, Except.ok.injEq] at h
    obtain ⟨⟨rfl, rfl⟩, rfl⟩ := h
    exact ⟨next, rfl, by rwa [List.append_nil]⟩
  | cons m own ih =>
    intro next r' earlier methods methods' ranks ranks' hread h
    unfold readMethods at h
    split at h
    · cases h
    · rename_i hdeclared
      have hnew := checkDeclared_ok hdeclared
      split at h
      · cases h
      · rename_i method ranks₁ r₁ hassign
        rw [List.append_cons]
        -- The invariant holds after one more method, whether its slot is new or not.
        rcases assignSlots_cases hassign with ⟨hfree, rfl, rfl, rfl⟩ |
          ⟨slot, more, hslots, rfl, rfl, hcheck, rfl⟩
        · exact ih (hread.fresh hnew hfree) h
        · exact ih (hread.override hnew hslots fun k hk hover =>
            ⟨next, hcheck k hk hover⟩) h

/-! ## Binding -/

/-- What a slot is bound to when `m` is found in it. -/
def bound (m : Method) : Option Nat := if m.isAbstract then none else some m.function

theorem bindSlots_bound {r : Registry} {c : Class} {methods : List Method} {ranks : List Rank} :
    ∀ {vtable : List (Nat × Option Nat)}, bindSlots r c methods ranks = .ok vtable →
      List.Forall₂ (fun k e => ∃ m, methodFor? r c methods k.slot = some m ∧
        e = (k.slot, bound m)) ranks vtable := by
  induction ranks with
  | nil =>
    intro vtable h
    injection h with h
    subst h
    exact .nil
  | cons k ranks ih =>
    intro vtable h
    unfold bindSlots at h
    split at h
    · cases h
    · rename_i m hm
      simp only [except_bind_eq_ok, except_pure_eq_ok] at h
      obtain ⟨rest, hrest, rfl⟩ := h
      exact .cons ⟨m, hm, rfl⟩ (ih hrest)

theorem unboundName?_eq_none {ranks : List Rank} {vtable : List (Nat × Option Nat)}
    (h : unboundName? ranks vtable = none) : ∀ e ∈ vtable, e.2.isSome = true := by
  unfold unboundName? at h
  rw [Option.map_eq_none_iff, List.find?_eq_none] at h
  intro e he
  have := h e he
  rw [Bool.not_eq_true, Option.isNone_eq_false_iff] at this
  exact this

theorem finish_ok {r : Registry} {c : Class} {methods : List Method} {ranks : List Rank}
    {t : MethodTable} (h : finish r c methods ranks = .ok t) :
    t.methods = methods ∧ t.ranks = ranks ∧ bindSlots r c methods ranks = .ok t.vtable ∧
      (c.isAbstract = false → ∀ e ∈ t.vtable, e.2.isSome = true) := by
  unfold finish at h
  simp only [except_bind_eq_ok] at h
  obtain ⟨vtable, hvtable, h⟩ := h
  split at h
  · split at h
    · simp only [except_bind_eq_ok, except_throw_eq_ok, false_and, exists_false] at h
    · rename_i hnone
      rw [except_pure_eq_ok] at h
      subst h
      have hunbound : unboundName? ranks vtable = none :=
        Option.eq_none_iff_forall_not_mem.mpr fun k hk => hnone k hk
      exact ⟨rfl, rfl, hvtable, fun _ => unboundName?_eq_none hunbound⟩
  · rename_i habstract
    rw [except_pure_eq_ok] at h
    subst h
    refine ⟨rfl, rfl, hvtable, fun hc => ?_⟩
    rw [hc] at habstract
    exact absurd rfl habstract

/-- A method table, from the slots that the class inherits and the methods of its body. -/
structure Built (r : Registry) (c : Class) (own : List OwnMethod) (inh : List Rank)
    (t : MethodTable) (next : Nat) : Prop where
  inherited : inheritedRanks r c c.bases [] = .ok inh
  read : Read r c inh own t.methods t.ranks next
  bound : List.Forall₂ (fun k e => ∃ m, methodFor? r c t.methods k.slot = some m ∧
    e = (k.slot, bound m)) t.ranks t.vtable
  concrete : c.isAbstract = false → ∀ e ∈ t.vtable, e.2.isSome = true

/-- The slots that a class sees through its bases are below the counter. -/
theorem inherited_bound {r : Registry} {c : Class} {inh : List Rank}
    (hinh : inheritedRanks r c c.bases [] = .ok inh)
    (hslots : ∀ h k, r.class? h = some k → ∀ rank ∈ k.ranks, rank.slot < r.nextSlot) :
    ∀ k ∈ inh, k.slot < r.nextSlot := by
  intro k hk
  rcases (inheritedRanks_inherited hinh).origin k hk with hk | ⟨_, base, hbase, k₀, hk₀, rfl⟩
  · exact absurd hk List.not_mem_nil
  · have hmem := List.mem_of_find?_eq_some hbase
    obtain ⟨h, _, hh⟩ := List.mem_filterMap.mp hmem
    exact hslots h base hh k₀ hk₀

/-- Reading a class body takes slots and changes nothing else. -/
theorem readMethods_registry (c : Class) (own : List OwnMethod) :
    ∀ (r : Registry) (earlier : List OwnMethod) (methods : List Method) (ranks : List Rank),
      ∃ next, (readMethods c own r earlier methods ranks).2 = { r with nextSlot := next } := by
  induction own with
  | nil =>
    intro r earlier methods ranks
    exact ⟨r.nextSlot, rfl⟩
  | cons m own ih =>
    intro r earlier methods ranks
    have hassign : ∃ next, (assignSlots r c m ranks).2 = { r with nextSlot := next } := by
      unfold assignSlots
      split
      · exact ⟨r.nextSlot + 1, rfl⟩
      · exact ⟨r.nextSlot, rfl⟩
    obtain ⟨next, hassign⟩ := hassign
    unfold readMethods
    split
    · exact ⟨r.nextSlot, rfl⟩
    · split
      · rename_i r₁ heq
        rw [heq] at hassign
        exact ⟨next, hassign⟩
      · rename_i method ranks₁ r₁ heq
        rw [heq] at hassign
        obtain ⟨next', hrest⟩ := ih r₁ (earlier ++ [m]) (methods ++ [method]) ranks₁
        exact ⟨next', hrest.trans (by rw [show r₁ = _ from hassign])⟩

theorem methodTable_registry (r : Registry) (c : Class) (own : List OwnMethod) :
    ∃ next, (methodTable r c own).2 = { r with nextSlot := next } := by
  unfold methodTable
  split
  · exact ⟨r.nextSlot, rfl⟩
  · rename_i ranks _
    obtain ⟨next, hread⟩ := readMethods_registry c own r [] [] ranks
    split
    · rename_i heq
      rw [heq] at hread
      exact ⟨next, hread⟩
    · rename_i heq
      rw [heq] at hread
      exact ⟨next, hread⟩

theorem methodTable_built {r r' : Registry} {c : Class} {own : List OwnMethod} {t : MethodTable}
    (hslots : ∀ h k, r.class? h = some k → ∀ rank ∈ k.ranks, rank.slot < r.nextSlot)
    (h : methodTable r c own = (.ok t, r')) :
    ∃ inh next, r' = { r with nextSlot := next } ∧ Built r c own inh t next := by
  unfold methodTable at h
  split at h
  · cases h
  · rename_i inh hinh
    split at h
    · cases h
    · rename_i methods ranks r₁ hread
      have hspec := inheritedRanks_inherited hinh
      have hstart : Read r c inh [] [] inh r.nextSlot :=
        read_nil (hspec.nodup .nil) (inherited_bound hinh hslots)
      obtain ⟨next, rfl, hbody⟩ := readMethods_read hstart hread
      rw [List.nil_append] at hbody
      simp only [Prod.mk.injEq] at h
      obtain ⟨hfinish, rfl⟩ := h
      obtain ⟨rfl, rfl, hbind, hconcrete⟩ := finish_ok hfinish
      have hbound := bindSlots_bound hbind
      exact ⟨inh, next, rfl, hinh, hbody, hbound, hconcrete⟩

end Dispatch

end ClassLang
