import ClassLang.Proofs.Dispatch.Tables

/-!
# Method tables bind every slot to the nearest declaration

In an accepted program a slot number means one method: all classes that see the slot give it
the same name and the same number of parameters, since both go back to the class that
introduced it. A class sees all slots of all its ancestors, and its table binds each of them to
the method of the first ancestor that declares one in it. A class that is not abstract has a
function in every slot, so a call through a slot of any ancestor finds one.
-/

namespace ClassLang.Dispatch

open Registration

/-! ## One slot, one method -/

/-- Two slots have the same name and the same number of parameters. -/
def SameShape (a b : Rank) : Prop := a.name = b.name ∧ a.params.length = b.params.length

/-- Wherever a slot is seen, it has the same name and the same number of parameters. -/
theorem Tables.sameShape {r : Registry} (ht : Tables r) {h₁ h₂ : TypeHash} {c₁ c₂ : Class}
    (hc₁ : r.class? h₁ = some c₁) (hc₂ : r.class? h₂ = some c₂) {k₁ k₂ : Rank}
    (hk₁ : k₁ ∈ c₁.ranks) (hk₂ : k₂ ∈ c₂.ranks) (hslot : k₁.slot = k₂.slot) :
    SameShape k₁ k₂ := by
  have hstep : ∀ {c own base k k' k₀}, Descends r c own base k k' → SameShape k k₀ →
      SameShape k' k₀ := by
    rintro c own base k k' k₀ hdesc ⟨hname, hparams⟩
    refine ⟨hdesc.name.trans hname, ?_⟩
    rw [hdesc.params, List.length_map, hparams]
  obtain ⟨k₀, h₁, h₂⟩ := ht.common_origin (R := SameShape) (fun _ _ _ _ => ⟨rfl, rfl⟩)
    (fun _ _ hdesc hR => hstep hdesc hR) hc₁ hc₂ hk₁ hk₂ hslot
  exact ⟨h₁.1.trans h₂.1.symm, h₁.2.trans h₂.2.symm⟩

/-- A method of a class body has its signature, and fills the slots of its name and
parameters. -/
theorem Tables.method_spec {r : Registry} (ht : Tables r) {h : TypeHash} {c : Class}
    (hc : r.class? h = some c) {m : Method} (hm : m ∈ c.methods) :
    (∃ s, r.function? m.function = some s ∧ s.name = m.name ∧ s.owner = .classOf h ∧
      s.params = m.params ∧ s.result = m.result ∧ s.paramNames.length = s.params.length) ∧
    ∀ s, m.occupies s = true ↔ ∃ k ∈ c.ranks, k.slot = s ∧ k.name = m.name ∧
      k.params = m.params := by
  obtain ⟨own, inh, htabled, hsigned⟩ := ht.tabled hc
  refine ⟨?_, htabled.occupies m hm⟩
  obtain ⟨o, ho, slot, more, rfl⟩ := exists_right_of_forall₂ htabled.methods_eq.flip hm
  obtain ⟨s, hs, hdesc⟩ := (hsigned o ho).signature
  exact ⟨s, hs, hdesc.name, hdesc.owner_eq, hdesc.params, hdesc.result,
    hdesc.paramNames.trans (congrArg List.length hdesc.params.symm)⟩

/-- No two methods of a class body fill the same slot. -/
theorem Tabled.methods_disjoint {r : Registry} {c : Class} {own : List OwnMethod}
    {inh : List Rank} (h : Tabled r c own inh) :
    c.methods.Pairwise fun m m' => ∀ s, ¬(m.occupies s = true ∧ m'.occupies s = true) := by
  have hkeys : c.methods.Pairwise fun m m' => ¬(m.name = m'.name ∧ m.params = m'.params) := by
    have hpair := h.keys
    have heq := h.methods_eq
    clear h
    generalize c.methods = ms at heq
    induction heq with
    | nil => exact .nil
    | @cons o m os ms hom hrest ih =>
      obtain ⟨hhead, htail⟩ := List.pairwise_cons.mp hpair
      refine List.pairwise_cons.mpr ⟨?_, ih htail⟩
      intro m' hm' hsame
      obtain ⟨o', ho', slot', more', rfl⟩ := exists_right_of_forall₂ hrest.flip hm'
      obtain ⟨slot, more, rfl⟩ := hom
      exact hhead o' ho' hsame
  refine hkeys.imp_of_mem ?_
  rintro m m' hm hm' hne s ⟨hs, hs'⟩
  obtain ⟨k, hk, hslot, hname, hparams⟩ := (h.occupies m hm s).mp hs
  obtain ⟨k', hk', hslot', hname', hparams'⟩ := (h.occupies m' hm' s).mp hs'
  have heq := eq_of_slot_eq h.nodup hk hk' (hslot.trans hslot'.symm)
  subst heq
  exact hne ⟨hname.symm.trans hname', hparams.symm.trans hparams'⟩

/-! ## What a slot is bound to -/

/-- `m` is the method in a slot that the first ancestor of `c` with such a method declares. -/
def FirstDeclared (r : Registry) (c : Class) (slot : Nat) (m : Method) : Prop :=
  ∃ nearer a farther A, c.mro = nearer ++ a :: farther ∧ r.class? a = some A ∧
    m ∈ A.methods ∧ m.occupies slot = true ∧
    ∀ b ∈ nearer, ∀ B, r.class? b = some B → ∀ m' ∈ B.methods, m'.occupies slot = false

theorem methodInSlot?_eq_none {c : Class} {slot : Nat} (h : c.methodInSlot? slot = none) :
    ∀ m ∈ c.methods, m.occupies slot = false := by
  intro m hm
  have := List.find?_eq_none.mp h m hm
  exact Bool.not_eq_true _ ▸ this

theorem methodInSlot?_eq_some {c : Class} {slot : Nat} {m : Method}
    (h : c.methodInSlot? slot = some m) : m ∈ c.methods ∧ m.occupies slot = true := by
  unfold Class.methodInSlot? at h
  exact ⟨List.mem_of_find?_eq_some h, List.find?_some (p := fun m : Method => m.occupies slot) h⟩

/-- The method that a slot is bound to is the one that the first ancestor declares. -/
theorem firstDeclared_of_methodFor? {r : Registry} (hr : Hierarchy r) {h : TypeHash} {c : Class}
    (hc : r.class? h = some c) {slot : Nat} {m : Method}
    (hm : methodFor? r c c.methods slot = some m) : FirstDeclared r c slot m := by
  obtain ⟨rest, hmro, _⟩ := hr.mro_eq hc
  unfold methodFor? at hm
  split at hm
  · rename_i m' hown
    injection hm with hm
    subst hm
    obtain ⟨hmem, hocc⟩ := methodInSlot?_eq_some hown
    refine ⟨[], h, rest, c, hmro, hc, hmem, hocc, ?_⟩
    intro b hb
    exact absurd hb List.not_mem_nil
  · rename_i hown
    rw [hmro, List.drop_succ_cons, List.drop_zero, List.findSome?_eq_some_iff] at hm
    obtain ⟨nearer, a, farther, hrest, hfound, hnone⟩ := hm
    obtain ⟨A, hA, hmA⟩ := Option.bind_eq_some_iff.mp hfound
    obtain ⟨hmem, hocc⟩ := methodInSlot?_eq_some hmA
    refine ⟨h :: nearer, a, farther, A, by rw [hmro, hrest]; rfl, hA, hmem, hocc, ?_⟩
    intro b hb B hB
    rcases List.mem_cons.mp hb with rfl | hb
    · rw [hc] at hB
      injection hB with hB
      subst hB
      exact methodInSlot?_eq_none hown
    · have := hnone b hb
      rw [hB, Option.bind_some] at this
      exact methodInSlot?_eq_none this

/-- Every slot of a class is bound, to the method that the first ancestor declares. -/
theorem Tables.implementation? {r : Registry} (ht : Tables r) {h : TypeHash} {c : Class}
    (hc : r.class? h = some c) {k : Rank} (hk : k ∈ c.ranks) :
    ∃ m, FirstDeclared r c k.slot m ∧ c.implementation? k.slot = some (bound m) := by
  obtain ⟨own, inh, htabled, _⟩ := ht.tabled hc
  have hbound := htabled.bound
  have hfind : ∀ {ranks vtable}, List.Forall₂ (fun k e =>
      ∃ m, methodFor? r c c.methods k.slot = some m ∧ e = (k.slot, bound m)) ranks vtable →
      k ∈ ranks → ∃ m, methodFor? r c c.methods k.slot = some m ∧
        (vtable.find? fun e => e.1 == k.slot).map (·.2) = some (bound m) := by
    intro ranks vtable hall hmem
    induction hall with
    | nil => exact absurd hmem List.not_mem_nil
    | @cons k₁ e ranks vtable he _ ih =>
      obtain ⟨m, hm, rfl⟩ := he
      by_cases hslot : k₁.slot = k.slot
      · refine ⟨m, hslot ▸ hm, ?_⟩
        rw [List.find?_cons_of_pos (by simpa using hslot), Option.map_some]
      · rw [List.find?_cons_of_neg (by simpa using hslot)]
        rcases List.mem_cons.mp hmem with rfl | hmem
        · exact absurd rfl hslot
        · exact ih hmem
  obtain ⟨m, hm, himpl⟩ := hfind hbound hk
  exact ⟨m, firstDeclared_of_methodFor? ht.hierarchy hc hm, himpl⟩

/-- The method that the first ancestor declares in a slot is seen in that slot by its class,
with its own signature. -/
theorem Tables.firstDeclared_rank {r : Registry} (ht : Tables r) {D : Class} {s : Nat}
    {m : Method} (hm : FirstDeclared r D s m) :
    ∃ b B sig, b ∈ D.mro ∧ r.class? b = some B ∧ m ∈ B.methods ∧ m.occupies s = true ∧
      r.function? m.function = some sig ∧ sig.owner = .classOf b ∧
      sig.paramNames.length = sig.params.length ∧
        (⟨sig.name, sig.params, sig.result, s⟩ : Rank) ∈ B.ranks := by
  obtain ⟨nearer, b, farther, B, hmro, hB, hmem, hocc, _⟩ := hm
  obtain ⟨own, inh, htabled, _⟩ := ht.tabled hB
  obtain ⟨⟨sig, hsig, hname, howner, hparams, hresult, hnames⟩, _⟩ := ht.method_spec hB hmem
  refine ⟨b, B, sig, by rw [hmro]; simp, hB, hmem, hocc, hsig, howner, hnames, ?_⟩
  rw [hname, hparams, hresult]
  exact htabled.rank_of_occupies hmem hocc

/-- A function in a slot is that of the method that the first ancestor declares. -/
theorem Tables.firstDeclared_of_bound {r : Registry} (ht : Tables r) {h : TypeHash} {D : Class}
    (hD : r.class? h = some D) {s f : Nat} (hs : D.sees s = true)
    (hf : D.implementation? s = some (some f)) :
    ∃ m, FirstDeclared r D s m ∧ m.function = f := by
  obtain ⟨k, hk, rfl⟩ := Class.sees_iff.mp hs
  obtain ⟨m, hm, himpl⟩ := ht.implementation? hD hk
  refine ⟨m, hm, ?_⟩
  rw [himpl, bound] at hf
  split at hf
  · cases hf
  · injection hf with hf
    injection hf

/-! ## Method tables -/

/-- What the method table of a class promises. -/
structure VtableCorrect (r : Registry) (D : Class) : Prop where
  /-- No slot is seen twice. -/
  slots_distinct : (D.ranks.map (·.slot)).Nodup
  /-- The table lists the slots that are seen, in their order. -/
  lists_slots : D.vtable.map (·.1) = D.ranks.map (·.slot)
  /-- Every slot of every ancestor is there, with its name and number of parameters. -/
  inherits_slots : ∀ a ∈ D.mro, ∃ A, r.class? a = some A ∧ ∀ k ∈ A.ranks,
    k.slot ∈ D.vtable.map (·.1) ∧ ∃ k' ∈ D.ranks, k'.slot = k.slot ∧ SameShape k' k
  /-- A slot is bound to the function of the method that the first ancestor declares in it, or
  to nothing if that method is abstract. -/
  binds_nearest : ∀ s ∈ D.vtable.map (·.1), ∃ m, FirstDeclared r D s m ∧
    D.implementation? s = some (if m.isAbstract then none else some m.function)
  /-- The class body does not declare two methods in one slot. -/
  methods_disjoint : D.methods.Pairwise fun m m' =>
    ∀ s, ¬(m.occupies s = true ∧ m'.occupies s = true)
  /-- In a class that is not abstract every slot has a function. -/
  bound_if_concrete : D.isAbstract = false → ∀ e ∈ D.vtable, e.2.isSome = true
  /-- A call through a slot of any ancestor finds a function of that name and arity. -/
  call_finds_function : D.isAbstract = false → ∀ a ∈ D.mro, ∀ A, r.class? a = some A →
    ∀ k ∈ A.ranks, ∃ f sig, D.implementation? k.slot = some (some f) ∧
      r.function? f = some sig ∧ sig.name = k.name ∧ sig.params.length = k.params.length

/-- The table of a class lists its slots. -/
theorem Tabled.lists_slots {r : Registry} {c : Class} {own : List OwnMethod} {inh : List Rank}
    (h : Tabled r c own inh) : c.vtable.map (·.1) = c.ranks.map (·.slot) := by
  have hlists : ∀ {ranks : List Rank} {vtable : List (Nat × Option Nat)},
      List.Forall₂ (fun k e => ∃ m, methodFor? r c c.methods k.slot = some m ∧
        e = (k.slot, Dispatch.bound m)) ranks vtable →
      vtable.map (·.1) = ranks.map (·.slot) := by
    intro ranks vtable hall
    induction hall with
    | nil => rfl
    | cons he _ ih =>
      obtain ⟨m, _, rfl⟩ := he
      rw [List.map_cons, List.map_cons, ih]
  exact hlists h.bound

/-- The function of a slot is in the table. -/
theorem implementation?_mem {c : Class} {slot : Nat} {f : Option Nat}
    (h : c.implementation? slot = some f) : (slot, f) ∈ c.vtable := by
  obtain ⟨e, he, rfl⟩ := Option.map_eq_some_iff.mp h
  have hslot := List.find?_some he
  have heq : e.1 = slot := by simpa using hslot
  rw [← heq]
  exact List.mem_of_find?_eq_some he

/-- The method that a slot is bound to has the name and the number of parameters of the slot,
wherever the slot is seen. -/
theorem Tables.firstDeclared_shape {r : Registry} (ht : Tables r) {D A : Class} {s : Nat}
    {m : Method} (hm : FirstDeclared r D s m) {a : TypeHash} (hA : r.class? a = some A)
    {k : Rank} (hk : k ∈ A.ranks) (hslot : k.slot = s) :
    ∃ sig, r.function? m.function = some sig ∧ sig.name = k.name ∧
      sig.params.length = k.params.length := by
  obtain ⟨_, b, _, B, _, hB, hmem, hocc, _⟩ := hm
  obtain ⟨⟨sig, hsig, hname, _, hparams, _, _⟩, hoccupies⟩ := ht.method_spec hB hmem
  obtain ⟨k', hk', hslot', hname', hparams'⟩ := (hoccupies s).mp hocc
  obtain ⟨hn, hp⟩ := ht.sameShape hB hA hk' hk (hslot'.trans hslot.symm)
  refine ⟨sig, hsig, ?_, ?_⟩
  · rw [hname, ← hname', hn]
  · rw [hparams, ← hparams', hp]

/-- In a program that registration accepts, the method table of every class keeps what it
promises. -/
theorem vtable_correct {o : Options} {p : Program} {r : Registry} (h : accepted? o p = some r)
    {hash : TypeHash} {D : Class} (hD : r.class? hash = some D) : VtableCorrect r D := by
  have ht := tables_of_accepted? h
  obtain ⟨own, inh, htabled, _⟩ := ht.tabled hD
  have hconcrete := htabled.concrete
  refine ⟨htabled.nodup, htabled.lists_slots, ?_, ?_, htabled.methods_disjoint, hconcrete, ?_⟩
  · intro a ha
    obtain ⟨A, hA⟩ := ht.hierarchy.exists_of_mem_mro hD ha
    refine ⟨A, hA, ?_⟩
    intro k hk
    have hsees := ht.sees_of_mem_mro hD ha hA (Class.sees_iff.mpr ⟨k, hk, rfl⟩)
    obtain ⟨k', hk', hslot⟩ := Class.sees_iff.mp hsees
    refine ⟨?_, k', hk', hslot, ht.sameShape hD hA hk' hk hslot⟩
    rw [htabled.lists_slots, ← hslot]
    exact List.mem_map_of_mem hk'
  · intro s hs
    rw [htabled.lists_slots] at hs
    obtain ⟨k, hk, rfl⟩ := List.mem_map.mp hs
    exact ht.implementation? hD hk
  · intro habstract a ha A hA k hk
    have hsees := ht.sees_of_mem_mro hD ha hA (Class.sees_iff.mpr ⟨k, hk, rfl⟩)
    obtain ⟨k', hk', hslot⟩ := Class.sees_iff.mp hsees
    obtain ⟨m, hm, himpl⟩ := ht.implementation? hD hk'
    rw [hslot] at hm himpl
    obtain ⟨sig, hsig, hname, hparams⟩ := ht.firstDeclared_shape hm hA hk rfl
    -- The slot is in the table of a concrete class, so the method is not abstract.
    have hsome := hconcrete habstract _ (implementation?_mem himpl)
    unfold bound at himpl hsome
    split at hsome
    · cases hsome
    · rename_i hm
      rw [if_neg hm] at himpl
      exact ⟨m.function, sig, himpl, hsig, hname, hparams⟩

/-! ## A diamond -/

/-- A class of a sample program, with its bases and its methods. -/
def sampleClass (name : String) (isAbstract : Bool) (bases : List String)
    (methods : List FunctionDecl) : Item :=
  .classDecl ⟨⟨name, .unknown⟩, [], bases.map fun b => .named b [] .unknown, [], methods,
    isAbstract, .unknown⟩

/-- A method of a sample program without parameters: abstract, or with an empty body. -/
def sampleMethod (name : String) (isAbstract : Bool) (result : Option TypeExpr) : FunctionDecl :=
  ⟨⟨name, .unknown⟩, [], result, if isAbstract then none else some [], false, isAbstract, .unknown⟩

/-- An abstract method, implemented twice, inherited from both sides. -/
def diamond : Program :=
  ⟨[⟨"m", [
    sampleClass "A" true [] [sampleMethod "f" true none],
    sampleClass "B" false ["A"] [sampleMethod "f" false none],
    sampleClass "C" false ["A"] [sampleMethod "f" false none],
    sampleClass "D" false ["B", "C"] []]⟩]⟩

set_option maxRecDepth 100000 in
theorem vtable_correct_diamond : ∃ r D, accepted? {} diamond = some r ∧
    r.class? (TypeHash.ofName "m$D") = some D ∧ D.vtable = [(0, some 1)] ∧ VtableCorrect r D := by
  have hrun : ((accepted? {} diamond).bind fun r =>
      (r.class? (TypeHash.ofName "m$D")).map (·.vtable)) = some [(0, some 1)] := by
    decide +kernel
  obtain ⟨r, hr, hD⟩ := Option.bind_eq_some_iff.mp hrun
  obtain ⟨D, hD, hvtable⟩ := Option.map_eq_some_iff.mp hD
  exact ⟨r, D, hr, hD, hvtable, vtable_correct hr hD⟩

/-- The first slot of an ancestor, and the function that a class has in it. -/
def firstBinding? (r : Registry) (d a : TypeHash) : Option (Rank × Nat) :=
  (r.class? d).bind fun D => (r.class? a).bind fun A => A.ranks.head?.bind fun k =>
    (D.implementation? k.slot).bind fun f =>
      if D.mro.contains a then f.map fun f => (k, f) else none

theorem firstBinding?_eq_some {r : Registry} {d a : TypeHash} {k : Rank} {f : Nat}
    (h : firstBinding? r d a = some (k, f)) :
    ∃ D A, r.class? d = some D ∧ a ∈ D.mro ∧ r.class? a = some A ∧ k ∈ A.ranks ∧
      D.implementation? k.slot = some (some f) := by
  obtain ⟨D, hD, h⟩ := Option.bind_eq_some_iff.mp h
  obtain ⟨A, hA, h⟩ := Option.bind_eq_some_iff.mp h
  obtain ⟨k', hk', h⟩ := Option.bind_eq_some_iff.mp h
  obtain ⟨f', hf', h⟩ := Option.bind_eq_some_iff.mp h
  split at h
  · rename_i hmem
    obtain ⟨g, rfl, heq⟩ := Option.map_eq_some_iff.mp h
    injection heq with hk hf
    subst hk hf
    exact ⟨D, A, hD, List.contains_iff_mem.mp hmem, hA, List.mem_of_head? hk', hf'⟩
  · cases h

end ClassLang.Dispatch
