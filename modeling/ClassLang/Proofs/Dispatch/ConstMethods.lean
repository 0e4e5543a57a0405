import ClassLang.Proofs.Dispatch.ResultType

/-!
# When a const method keeps its slot

A method that overrides a slot is compared with the nearest method that its ancestors declare
there, and is refused if that one is const. A class below a const method therefore cannot take
the slot from it directly. A class beside it may: if it comes earlier in the linearization of a
common descendant, and also declares a method in the slot, it is the nearer declaration there
and the const method loses the slot. The descendant may then declare the method again, since it
is compared with the nearer declaration only. There is no other way: a const method keeps its
slot in a class if and only if no class beside it comes first.
-/

namespace ClassLang.Dispatch

open Registration

variable {r : Registry}

/-! ## The nearest declaration -/

/-- Nobody in a list of classes declares a method in a slot. -/
def NoneDeclares (r : Registry) (hs : List TypeHash) (slot : Nat) : Prop :=
  ∀ b ∈ hs, ∀ m, ¬Declares r b slot m

/-- What is found is the first declaration. -/
theorem declarer?_spec {slot : Nat} {d : Option (Class × Method)} :
    ∀ {hs : List TypeHash}, declarer? r slot hs = .ok d →
      (d = none ∧ NoneDeclares r hs slot) ∨
      ∃ nearer e farther E m, hs = nearer ++ e :: farther ∧ d = some (E, m) ∧
        r.class? e = some E ∧ m ∈ E.methods ∧ m.occupies slot = true ∧
        NoneDeclares r nearer slot := by
  intro hs
  induction hs with
  | nil =>
    intro h
    injection h with h
    exact .inl ⟨h.symm, fun b hb => absurd hb List.not_mem_nil⟩
  | cons e rest ih =>
    intro h
    simp only [declarer?, except_bind_eq_ok, Registry.getClass_eq_ok] at h
    obtain ⟨E, hE, h⟩ := h
    split at h
    · rename_i m hfound
      injection h with h
      obtain ⟨hm, hocc⟩ := methodInSlot?_eq_some hfound
      refine .inr ⟨[], e, rest, E, m, rfl, h.symm, hE, hm, hocc, ?_⟩
      intro b hb
      exact absurd hb List.not_mem_nil
    · rename_i hfound
      -- The search goes on only if the nearest class declares nothing in the slot.
      have hhead : ∀ m, ¬Declares r e slot m := by
        rintro m ⟨E', hE', hm, hocc⟩
        rw [hE] at hE'
        injection hE' with hE'
        subst hE'
        rw [methodInSlot?_eq_none hfound m hm] at hocc
        cases hocc
      have hcons : ∀ {hs}, NoneDeclares r hs slot → NoneDeclares r (e :: hs) slot := by
        intro hs hnone b hb
        rcases List.mem_cons.mp hb with rfl | hb
        · exact hhead
        · exact hnone b hb
      rcases ih h with ⟨hd, hnone⟩ | ⟨nearer, e', farther, E', m, hrest, hd, hE', hm, hocc, hnone⟩
      · exact .inl ⟨hd, hcons hnone⟩
      · exact .inr ⟨e :: nearer, e', farther, E', m, by rw [hrest]; rfl, hd, hE', hm, hocc,
          hcons hnone⟩

/-- A class body has one method in a slot. -/
theorem Tables.declares_unique (ht : Tables r) {a : TypeHash} {slot : Nat} {m m' : Method}
    (hm : Declares r a slot m) (hm' : Declares r a slot m') : m = m' := by
  obtain ⟨A, hA, hmem, hocc⟩ := hm
  obtain ⟨A', hA', hmem', hocc'⟩ := hm'
  rw [hA] at hA'
  injection hA' with hA'
  subst hA'
  obtain ⟨own, inh, htabled, _⟩ := ht.tabled hA
  by_contra hne
  have hsymm : Std.Symm fun m m' : Method =>
      ∀ s, ¬(m.occupies s = true ∧ m'.occupies s = true) :=
    ⟨fun _ _ hab s hs => hab s ⟨hs.2, hs.1⟩⟩
  exact htabled.methods_disjoint.forall hmem hmem' hne slot ⟨hocc, hocc'⟩

/-- A function belongs to one class. -/
theorem Tables.owner_unique (ht : Tables r) {a b : TypeHash} {slot slot' : Nat} {m m' : Method}
    (hm : Declares r a slot m) (hm' : Declares r b slot' m')
    (hfun : m.function = m'.function) : a = b := by
  obtain ⟨A, hA, hmem, _⟩ := hm
  obtain ⟨B, hB, hmem', _⟩ := hm'
  obtain ⟨⟨s, hs, _, howner, _⟩, _⟩ := ht.method_spec hA hmem
  obtain ⟨⟨s', hs', _, howner', _⟩, _⟩ := ht.method_spec hB hmem'
  rw [hfun, hs'] at hs
  injection hs with hs
  subst hs
  rw [howner] at howner'
  injection howner'

/-- At most one method is the first one declared in a slot. -/
theorem Tables.firstDeclared_unique (ht : Tables r) {D : Class} {slot : Nat} {m m' : Method}
    (hm : FirstDeclared r D slot m) (hm' : FirstDeclared r D slot m') : m = m' := by
  obtain ⟨l₁, a, l₂, A, hmro, hA, hmem, hocc, hfirst⟩ := hm
  obtain ⟨l₁', a', l₂', A', hmro', hA', hmem', hocc', hfirst'⟩ := hm'
  rw [hmro] at hmro'
  -- Two places in one list are the same, or one of them comes first.
  have hplaces : a = a' ∨ a ∈ l₁' ∨ a' ∈ l₁ := by
    rcases List.append_eq_append_iff.mp hmro' with ⟨l, hl, hrest⟩ | ⟨l, hl, hrest⟩
    · cases l with
      | nil => exact .inl (List.cons.inj hrest).1
      | cons x l => exact .inr (.inl (by rw [hl, (List.cons.inj hrest).1]; simp))
    · cases l with
      | nil => exact .inl (List.cons.inj hrest).1.symm
      | cons x l => exact .inr (.inr (by rw [hl, (List.cons.inj hrest).1]; simp))
  rcases hplaces with rfl | ha | ha
  · exact ht.declares_unique ⟨A, hA, hmem, hocc⟩ ⟨A', hA', hmem', hocc'⟩
  · rw [hfirst' a ha A hA m hmem] at hocc
    cases hocc
  · rw [hfirst a' ha A' hA' m' hmem'] at hocc'
    cases hocc'

/-- A class that sees a slot through an ancestor and declares a method in it has been compared
with the nearest declaration above it, which is not const. -/
theorem Tables.override_checked (ht : Tables r) {o a : TypeHash} {O A : Class} {slot : Nat}
    {m : Method} (hO : r.class? o = some O) (hm : Declares r o slot m) (ha : a ∈ O.mro)
    (hne : a ≠ o) (hA : r.class? a = some A) (hsees : A.sees slot = true) :
    ∃ d, declarer? r slot (O.mro.drop 1) = .ok d ∧ ∀ x ∈ d, x.2.isConst = false := by
  obtain ⟨own, inh, htabled, _⟩ := ht.tabled hO
  obtain ⟨O', hO', hmem, hocc⟩ := hm
  rw [hO] at hO'
  injection hO' with hO'
  subst hO'
  -- Some base of the class sees the slot, so the slot is inherited.
  obtain ⟨b, hb, B, hB, haB⟩ : ∃ b ∈ baseHashes O, ∃ B, r.class? b = some B ∧ a ∈ B.mro := by
    rcases (ht.hierarchy.mem_mro_iff hO).mp ha with heq | hbase
    · exact absurd heq hne
    · exact hbase
  obtain ⟨k, hk, hslot⟩ := Class.sees_iff.mp (ht.sees_of_mem_mro hB haB hA hsees)
  obtain ⟨k', hk', hslot'⟩ :=
    (inheritedRanks_inherited htabled.inherited).covers b hb B hB k hk
  have hslot := hslot'.trans hslot
  obtain ⟨k₁, hk₁, hslot₁, hname, hparams⟩ := (htabled.occupies m hmem slot).mp hocc
  obtain ⟨w, hw, s₀, more, rfl⟩ := exists_right_of_forall₂ htabled.methods_eq.flip hmem
  rcases htabled.kept k' hk' with ⟨hkept, hno⟩ | ⟨w', _, _, _, hcheck⟩
  · -- The method of the body has the name and the parameters of the slot, so it overrides it.
    have heq := eq_of_slot_eq htabled.nodup hk₁ hkept (hslot₁.trans hslot.symm)
    have hover : overrides w k' = true := overrides_iff.mpr (heq ▸ ⟨hname, hparams⟩)
    rw [hno w hw] at hover
    cases hover
  · rw [← hslot]
    exact (checkOverride_eq_ok.mp hcheck).1

/-! ## Const methods -/

/-- In the linearization of `D` a class beside `a`, and not below it, comes before `a` and
declares a method in a slot. -/
def Overtaken (r : Registry) (D : Class) (a : TypeHash) (slot : Nat) : Prop :=
  ∃ nearer farther, D.mro = nearer ++ a :: farther ∧
    ∃ b ∈ nearer, ∃ B m, r.class? b = some B ∧ a ∉ B.mro ∧ Declares r b slot m

/-- In a list without repetition, what comes before `a` in a sublist comes before `a`. -/
theorem mem_nearer_of_sublist {nearer farther l l' : List TypeHash} {a e : TypeHash}
    (hnodup : (nearer ++ a :: farther).Nodup) (hsub : (l ++ e :: l').Sublist (nearer ++ a :: farther))
    (ha : a ∈ l') : e ∈ nearer := by
  have hpair : [e, a].Sublist (nearer ++ a :: farther) := by
    have htail : [a].Sublist l' := List.singleton_sublist.mpr ha
    exact ((htail.cons_cons e).trans (List.sublist_append_right l _)).trans hsub
  obtain ⟨l₁, l₂, heq, h₁, h₂⟩ := List.sublist_append_iff.mp hpair
  obtain ⟨_, hnodup₂, hdisjoint⟩ := List.nodup_append.mp hnodup
  cases l₁ with
  | nil =>
    -- Both would come from `a` on, where `a` is the first and comes only once.
    rw [List.nil_append] at heq
    subst heq
    have hmem : a ∈ farther := by
      cases h₂ with
      | cons _ h => exact h.subset (List.mem_cons_of_mem _ (List.mem_cons_self ..))
      | cons_cons _ h => exact h.subset (List.mem_cons_self ..)
    exact absurd hmem (List.nodup_cons.mp hnodup₂).1
  | cons x l₁ =>
    injection heq with hx _
    rw [hx]
    exact h₁.subset (List.mem_cons_self ..)

/-- A class that takes the slot of a const method before it comes is beside it, or has such a
class before it. -/
theorem Tables.overtaken_of_before (ht : Tables r) {d a : TypeHash} {D : Class} {slot : Nat}
    {m : Method} (hD : r.class? d = some D) (hm : Declares r a slot m)
    (hconst : m.isConst = true) {nearer farther : List TypeHash}
    (hmro : D.mro = nearer ++ a :: farther) {o : TypeHash} (ho : o ∈ nearer) {O : Class}
    (hO : r.class? o = some O) {m' : Method} (hm' : Declares r o slot m') :
    Overtaken r D a slot := by
  -- Each overridden declaration stands higher, so the induction is on the height of the class.
  induction hn : O.mro.length using Nat.strongRecOn generalizing o O m' with
  | _ n ih =>
    subst hn
    by_cases ha : a ∈ O.mro
    · have hnodup := ht.hierarchy.mro_nodup hD
      rw [hmro] at hnodup
      have hne : a ≠ o := by
        rintro rfl
        exact (List.nodup_append.mp hnodup).2.2 _ ho _ (List.mem_cons_self ..) rfl
      obtain ⟨A, hA, hmem, hocc⟩ := hm
      obtain ⟨own, inh, htabled, _⟩ := ht.tabled hA
      have hsees : A.sees slot = true :=
        Class.sees_iff.mpr ⟨_, htabled.rank_of_occupies hmem hocc, rfl⟩
      obtain ⟨rest, hrest, _⟩ := ht.hierarchy.mro_eq hO
      have harest : a ∈ rest := by
        rw [hrest] at ha
        exact (List.mem_cons.mp ha).resolve_left hne
      obtain ⟨found, hfound, hnotconst⟩ := ht.override_checked hO hm' ha hne hA hsees
      rw [hrest, List.drop_succ_cons, List.drop_zero] at hfound
      rcases declarer?_spec hfound with
        ⟨_, hnone⟩ | ⟨l, e, l', E, m₁, heq, rfl, hE, hmem₁, hocc₁, hnone⟩
      · exact absurd ⟨A, hA, hmem, hocc⟩ (hnone a harest m)
      · -- The nearest declaration is not const, so it is nearer than `a`.
        have hm₁ := hnotconst _ rfl
        have hea : e ≠ a := by
          rintro rfl
          have hsame := ht.declares_unique ⟨A, hA, hmem, hocc⟩ ⟨E, hE, hmem₁, hocc₁⟩
          rw [← hsame, hconst] at hm₁
          cases hm₁
        have hal : a ∈ l' := by
          rw [heq] at harest
          rcases List.mem_append.mp harest with hl | hl
          · exact absurd ⟨A, hA, hmem, hocc⟩ (hnone a hl m)
          · exact (List.mem_cons.mp hl).resolve_left hea.symm
        have hoD : o ∈ D.mro := by
          rw [hmro]
          exact List.mem_append_left _ ho
        have hsub := ht.hierarchy.mro_sublist hD hoD hO
        rw [hmro, hrest, heq] at hsub
        have heO : e ∈ O.mro := by
          rw [hrest, heq]
          simp
        have heo : e ≠ o := by
          rintro rfl
          have hself := ht.hierarchy.not_mem_drop_mro hO
          rw [hrest, heq] at hself
          simp at hself
        have henear : e ∈ nearer := mem_nearer_of_sublist (l := o :: l) hnodup hsub hal
        exact ih _ (ht.hierarchy.length_mro_lt_of_mem hO heO heo hE) henear hE
          ⟨E, hE, hmem₁, hocc₁⟩ rfl
    · exact ⟨nearer, farther, hmro, o, ho, O, m', hO, ha, hm'⟩

/-- A const method is the first declaration in its slot unless a class beside it comes first. -/
theorem Tables.firstDeclared_const_iff (ht : Tables r) {d a : TypeHash} {D : Class} {slot : Nat}
    {m : Method} (hD : r.class? d = some D) (ha : a ∈ D.mro) (hm : Declares r a slot m)
    (hconst : m.isConst = true) :
    FirstDeclared r D slot m ↔ ¬Overtaken r D a slot := by
  have hnodup := ht.hierarchy.mro_nodup hD
  constructor
  · rintro ⟨nearer, a', farther, A', hmro, hA', hmem, hocc, hfirst⟩
      ⟨nearer', farther', hmro', b, hb, B, m', hB, _, B', hB', hmem', hocc'⟩
    have heq := ht.owner_unique hm ⟨A', hA', hmem, hocc⟩ rfl
    subst heq
    -- The class stands at one place, so both splits of the linearization are the same.
    rw [hmro'] at hmro hnodup
    obtain ⟨_, hfar, hdisjoint⟩ := List.nodup_append.mp hnodup
    have hnot : a ∉ nearer' := fun hmem => hdisjoint _ hmem _ (List.mem_cons_self ..) rfl
    obtain ⟨hnear, _⟩ :=
      (List.append_cons_inj_of_notMem hnot (List.nodup_cons.mp hfar).1).mp hmro
    rw [hfirst b (hnear ▸ hb) B' hB' m' hmem'] at hocc'
    cases hocc'
  · intro hnot
    obtain ⟨nearer, farther, hmro⟩ := List.append_of_mem ha
    obtain ⟨A, hA, hmem, hocc⟩ := hm
    refine ⟨nearer, a, farther, A, hmro, hA, hmem, hocc, ?_⟩
    intro b hb B hB m' hm'
    by_contra hocc'
    have hdeclares : Declares r b slot m' := ⟨B, hB, hm', by simpa using hocc'⟩
    exact hnot (ht.overtaken_of_before hD ⟨A, hA, hmem, hocc⟩ hconst hmro hb hB hdeclares)

/-- In a program that registration accepts, a const method keeps its slot in a descendant if
and only if it is not abstract and no class beside it comes before it there with a method in the
slot. Otherwise the slot goes to the first method that is declared in it. -/
theorem const_method_bound_iff {o : Options} {p : Program} {r : Registry}
    (h : accepted? o p = some r) {d a : TypeHash} {D A : Class} (hD : r.class? d = some D)
    (ha : a ∈ D.mro) (hA : r.class? a = some A) {m : Method} (hm : m ∈ A.methods)
    (hconst : m.isConst = true) {slot : Nat} (hslot : m.occupies slot = true) :
    (D.implementation? slot = some (some m.function) ↔
      m.isAbstract = false ∧ ¬Overtaken r D a slot) ∧
    ∃ m', FirstDeclared r D slot m' ∧ D.implementation? slot = some (bound m') ∧
      (m' = m ↔ ¬Overtaken r D a slot) := by
  have ht := tables_of_accepted? h
  have hdeclares : Declares r a slot m := ⟨A, hA, hm, hslot⟩
  obtain ⟨own, inh, htabled, _⟩ := ht.tabled hA
  have hsees := ht.sees_of_mem_mro hD ha hA
    (Class.sees_iff.mpr ⟨_, htabled.rank_of_occupies hm hslot, rfl⟩)
  obtain ⟨k, hk, rfl⟩ := Class.sees_iff.mp hsees
  obtain ⟨m', hfirst, himpl⟩ := ht.implementation? hD hk
  have hiff := ht.firstDeclared_const_iff hD ha hdeclares hconst
  obtain ⟨_, b, _, B, _, hB, hmem', hocc', _⟩ := id hfirst
  have hdeclares' : Declares r b k.slot m' := ⟨B, hB, hmem', hocc'⟩
  -- A function is declared by one class, which has one method in the slot.
  have hsame : m'.function = m.function → m' = m := by
    intro hfun
    have hab := ht.owner_unique hdeclares' hdeclares hfun
    subst hab
    exact ht.declares_unique hdeclares' hdeclares
  have hbound : m' = m ↔ ¬Overtaken r D a k.slot := by
    rw [← hiff]
    constructor
    · rintro rfl
      exact hfirst
    · intro hm
      exact ht.firstDeclared_unique hfirst hm
  refine ⟨?_, m', hfirst, himpl, hbound⟩
  rw [himpl, bound, ← hbound]
  by_cases habstract : m'.isAbstract = true
  · rw [if_pos habstract]
    constructor
    · intro hnone
      cases hnone
    · rintro ⟨hm, rfl⟩
      rw [habstract] at hm
      cases hm
  · rw [if_neg habstract]
    constructor
    · intro hfun
      injection hfun with hfun
      injection hfun with hfun
      have heq := hsame hfun
      subst heq
      exact ⟨Bool.not_eq_true _ ▸ habstract, rfl⟩
    · rintro ⟨_, rfl⟩
      rfl

/-- A method without parameters that is const or not. -/
def sealableMethod (isConst : Bool) : FunctionDecl :=
  { sampleMethod "f" false none with isConst := isConst }

/-- A method, sealed by one class and overridden beside it, and a class below both that names
them in the given order. -/
def sealedDiamond (bases : List String) (methods : List FunctionDecl) : Program :=
  ⟨[⟨"m", [
    sampleClass "R" false [] [sealableMethod false],
    sampleClass "A" false ["R"] [sealableMethod true],
    sampleClass "B" false ["R"] [sealableMethod false],
    sampleClass "D" false bases methods]⟩]⟩

/-- The const method of a class with its slot, and what a descendant has in the slot. -/
def constBinding? (r : Registry) (d a : TypeHash) : Option (Method × Option (Option Nat)) :=
  (r.class? d).bind fun D => (r.class? a).bind fun A =>
    (A.methods.find? fun m => m.isConst && m.occupies m.slot && D.mro.contains a).map fun m =>
      (m, D.implementation? m.slot)

theorem constBinding?_eq_some {d a : TypeHash} {m : Method} {f : Option (Option Nat)}
    (h : constBinding? r d a = some (m, f)) :
    ∃ D A, r.class? d = some D ∧ a ∈ D.mro ∧ r.class? a = some A ∧ m ∈ A.methods ∧
      m.isConst = true ∧ m.occupies m.slot = true ∧ D.implementation? m.slot = f := by
  obtain ⟨D, hD, h⟩ := Option.bind_eq_some_iff.mp h
  obtain ⟨A, hA, h⟩ := Option.bind_eq_some_iff.mp h
  obtain ⟨m', hm', heq⟩ := Option.map_eq_some_iff.mp h
  injection heq with hm hf
  subst hm
  have hfound := List.find?_some hm'
  simp only [Bool.and_eq_true, List.contains_iff_mem] at hfound
  exact ⟨D, A, hD, hfound.2, hA, List.mem_of_find?_eq_some hm', hfound.1.1, hfound.1.2, hf⟩

set_option maxRecDepth 100000 in
theorem const_method_bound_diamond : ∃ r D A m,
    accepted? {} (sealedDiamond ["A", "B"] []) = some r ∧
    r.class? (TypeHash.ofName "m$D") = some D ∧ TypeHash.ofName "m$A" ∈ D.mro ∧
    r.class? (TypeHash.ofName "m$A") = some A ∧ m ∈ A.methods ∧ m.isConst = true ∧
    m.occupies m.slot = true ∧ D.implementation? m.slot = some (some m.function) ∧
    ¬Overtaken r D (TypeHash.ofName "m$A") m.slot := by
  have hrun : ((accepted? {} (sealedDiamond ["A", "B"] [])).bind fun r =>
      (constBinding? r (TypeHash.ofName "m$D") (TypeHash.ofName "m$A")).map fun x =>
        decide (x.2 = some (some x.1.function))) = some true := by
    decide +kernel
  obtain ⟨r, hr, hrun⟩ := Option.bind_eq_some_iff.mp hrun
  obtain ⟨⟨m, f⟩, hbinding, hkept⟩ := Option.map_eq_some_iff.mp hrun
  obtain ⟨D, A, hD, ha, hA, hm, hconst, hslot, rfl⟩ := constBinding?_eq_some hbinding
  have himpl := of_decide_eq_true hkept
  obtain ⟨hiff, _⟩ := const_method_bound_iff hr hD ha hA hm hconst hslot
  exact ⟨r, D, A, m, hr, hD, ha, hA, hm, hconst, hslot, himpl, (hiff.mp himpl).2⟩

set_option maxRecDepth 100000 in
/-- A const method may lose its slot: a class below it may even declare the method again, if
some class beside it comes first. -/
theorem const_method_can_be_displaced : ¬∀ (o : Options) (p : Program) (r : Registry)
    (d a : TypeHash) (D A : Class) (m : Method) (slot : Nat), accepted? o p = some r →
    r.class? d = some D → a ∈ D.mro → r.class? a = some A → m ∈ A.methods →
    m.isConst = true → m.occupies slot = true →
    D.implementation? slot = some (some m.function) := by
  intro hall
  have hrun : ((accepted? {} (sealedDiamond ["B", "A"] [sealableMethod false])).bind fun r =>
      (constBinding? r (TypeHash.ofName "m$D") (TypeHash.ofName "m$A")).map fun x =>
        decide (x.2 = some (some x.1.function))) = some false := by
    decide +kernel
  obtain ⟨r, hr, hrun⟩ := Option.bind_eq_some_iff.mp hrun
  obtain ⟨⟨m, f⟩, hbinding, hlost⟩ := Option.map_eq_some_iff.mp hrun
  obtain ⟨D, A, hD, ha, hA, hm, hconst, hslot, rfl⟩ := constBinding?_eq_some hbinding
  exact of_decide_eq_false hlost
    (hall {} _ r _ _ D A m m.slot hr hD ha hA hm hconst hslot)

end ClassLang.Dispatch
