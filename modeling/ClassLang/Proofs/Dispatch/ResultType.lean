import ClassLang.Proofs.Dispatch.Vtable
import ClassLang.Proofs.Ty.Plain

/-!
# Which result a virtual call may expect

What a class sees in a slot goes back along its *line*: the first base that sees the slot, the
first base of that one, and so on up to a class that declares a method there. The result that is
recorded for the slot is the declared one, rewritten at every step of the line. A method is
checked against what it overrides on its own line only. So its result converts to every result
that was declared on this line, and about the results declared on other lines nothing is known:
two branches of a diamond may refine the result of one method in different ways, and a method
below them is compared with the first branch.
-/

namespace ClassLang.Dispatch

open Registration

variable {r : Registry}

/-! ## Lines -/

/-- On the line of `a` for a slot there is `p`, and the type `t` of `p` is `t'` in the terms of
`a` when it is rewritten step by step. -/
inductive SeenAlong (r : Registry) (slot : Nat) : TypeHash → TypeHash → Ty → Ty → Prop where
  | here {a : TypeHash} {t : Ty} : SeenAlong r slot a a t t
  | base {a b p : TypeHash} {A B : Class} {t t' : Ty} (hA : r.class? a = some A)
    (hB : r.class? b = some B) (first : r.firstSeeing? slot (baseHashes A) = some B)
    (rest : SeenAlong r slot b p t t') : SeenAlong r slot a p t (A.inOwnTerms B t')

/-- A class declares a method in a slot. -/
def Declares (r : Registry) (a : TypeHash) (slot : Nat) (m : Method) : Prop :=
  ∃ A, r.class? a = some A ∧ m ∈ A.methods ∧ m.occupies slot = true

/-- The first base that sees a slot is a base. -/
theorem mem_baseHashes_of_first (hr : Hierarchy r) {slot : Nat} {b : TypeHash} {A B : Class}
    (hB : r.class? b = some B) (first : r.firstSeeing? slot (baseHashes A) = some B) :
    b ∈ baseHashes A := by
  obtain ⟨_, b', hb', hB'⟩ := firstSeeing?_sees first
  have heq : b' = b := (hr.hash_eq hB').symm.trans (hr.hash_eq hB)
  exact heq ▸ hb'

/-- The classes on the line of a class are its ancestors. -/
theorem SeenAlong.mem_mro (hr : Hierarchy r) {slot : Nat} {a p : TypeHash} {A : Class}
    {t t' : Ty} (h : SeenAlong r slot a p t t') (hA : r.class? a = some A) : p ∈ A.mro := by
  induction h generalizing A with
  | here => exact hr.self_mem_mro hA
  | base hA' hB first rest ih =>
    rw [hA] at hA'
    injection hA' with hA'
    subst hA'
    have hb := mem_baseHashes_of_first hr hB first
    exact (hr.mem_mro_iff hA).mpr (.inr ⟨_, hb, _, hB, ih hB⟩)

/-- A plain type is not rewritten. -/
theorem SeenAlong.eq_of_isPlain {slot : Nat} {a p : TypeHash} {t t' : Ty}
    (h : SeenAlong r slot a p t t') (ht : t.isPlain = true) : t' = t := by
  induction h with
  | here => rfl
  | @base a b p A B t t' hA hB first rest ih =>
    have heq := ih ht
    subst heq
    exact A.inOwnTerms_of_isPlain B ht

/-- A method of the class body that overrides a slot is declared in it. -/
theorem Tabled.declares {h : TypeHash} {c : Class} {own : List OwnMethod} {inh : List Rank}
    (ht : Tabled r c own inh) (hc : r.class? h = some c) {o : OwnMethod} (ho : o ∈ own)
    {k : Rank} (hk : k ∈ c.ranks) (hover : overrides o k = true) :
    ∃ m, Declares r h k.slot m ∧ m.result = o.result := by
  obtain ⟨m, hm, slot, more, rfl⟩ := exists_right_of_forall₂ ht.methods_eq ho
  obtain ⟨hname, hparams⟩ := overrides_iff.mp hover
  exact ⟨_, ⟨c, hc, hm, (ht.occupies _ hm _).mpr ⟨k, hk, rfl, hname, hparams⟩⟩, rfl⟩

/-- The result recorded for a slot is one that was declared on the line of the class. -/
theorem Tables.exists_declared (ht : Tables r) {a : TypeHash} {A : Class}
    (hA : r.class? a = some A) {k : Rank} (hk : k ∈ A.ranks) :
    ∃ p m, Declares r p k.slot m ∧ SeenAlong r k.slot a p m.result k.result := by
  refine ht.hierarchy.induction (P := fun a A => ∀ k ∈ A.ranks, ∃ p m,
    Declares r p k.slot m ∧ SeenAlong r k.slot a p m.result k.result) ?_ hA k hk
  intro h c hc ih k' hk'
  obtain ⟨own, inh, htabled, _⟩ := ht.tabled hc
  rcases htabled.rank_cases hk' with ⟨_, o, ho, heq⟩ | ⟨base, k, hdesc⟩
  · have hover : overrides o k' = true := by
      rw [heq, overrides_iff]
      exact ⟨rfl, rfl⟩
    obtain ⟨m, hm, hres⟩ := htabled.declares hc ho hk' hover
    have hresult : m.result = k'.result := by rw [hres, heq]
    exact ⟨h, m, hm, hresult ▸ .here⟩
  · rcases hdesc.result with ⟨hres, _⟩ | ⟨o, ho, hover, hres, _⟩
    · obtain ⟨_, b, hb, hbase⟩ := firstSeeing?_sees hdesc.first
      obtain ⟨p, m, hm, hseen⟩ := ih b hb base hbase k hdesc.mem
      rw [hdesc.slot] at hm hseen
      refine ⟨p, m, hm, ?_⟩
      rw [hres]
      exact .base hc hbase hdesc.first hseen
    · obtain ⟨m, hm, hres'⟩ := htabled.declares hc ho hk' hover
      have hresult : m.result = k'.result := hres'.trans hres.symm
      exact ⟨h, m, hm, hresult ▸ .here⟩

/-- A class records its own result for a slot in which it declares a method. -/
theorem Tables.result_of_declares (ht : Tables r) {a : TypeHash} {A : Class}
    (hA : r.class? a = some A) {k : Rank} (hk : k ∈ A.ranks) {m : Method}
    (hm : Declares r a k.slot m) : k.result = m.result := by
  obtain ⟨A', hA', hmem, hocc⟩ := hm
  rw [hA] at hA'
  injection hA' with hA'
  subst hA'
  obtain ⟨own, inh, htabled, _⟩ := ht.tabled hA
  have hrank := htabled.rank_of_occupies hmem hocc
  rw [eq_of_slot_eq htabled.nodup hk hrank rfl]

/-! ## Overrides on one line -/

/-- All methods that the ancestors of a class declare in a slot have plain results. -/
def PlainResults (r : Registry) (D : Class) (slot : Nat) : Prop :=
  ∀ a ∈ D.mro, ∀ m, Declares r a slot m → m.result.isPlain = true

theorem Tables.result_isPlain (ht : Tables r) {d a : TypeHash} {D A : Class}
    (hD : r.class? d = some D) (ha : a ∈ D.mro) (hA : r.class? a = some A) {k : Rank}
    (hk : k ∈ A.ranks) (hplain : PlainResults r D k.slot) : k.result.isPlain = true := by
  obtain ⟨p, m, hm, hseen⟩ := ht.exists_declared hA hk
  have hp := ht.hierarchy.mro_trans hD ha hA (hseen.mem_mro ht.hierarchy hA)
  have hres := hplain p hp m hm
  rw [hseen.eq_of_isPlain hres]
  exact hres

/-- How a class sees a slot that its first base with that slot sees: as the base, or with a
result that converts to what the base sees. -/
theorem Tables.step_of_first (ht : Tables r) {a b : TypeHash} {A B : Class}
    (hA : r.class? a = some A) (hB : r.class? b = some B) {k : Rank} (hk : k ∈ A.ranks)
    (first : r.firstSeeing? k.slot (baseHashes A) = some B) :
    ∃ k₀ ∈ B.ranks, k₀.slot = k.slot ∧
      (k.result = A.inOwnTerms B k₀.result ∨
        r.convertsStrongly k.result (A.inOwnTerms B k₀.result) = true) := by
  obtain ⟨own, inh, htabled, _⟩ := ht.tabled hA
  rcases htabled.rank_cases hk with ⟨hintro, _⟩ | ⟨base, k₀, hdesc⟩
  · -- A class that introduces a slot has no base that sees it.
    obtain ⟨hsees, b', hb', hB'⟩ := firstSeeing?_sees first
    rw [hintro.2 b' hb' B hB'] at hsees
    cases hsees
  · have hbase : base = B := Option.some.inj (hdesc.first.symm.trans first)
    subst hbase
    refine ⟨k₀, hdesc.mem, hdesc.slot, ?_⟩
    rcases hdesc.result with ⟨hres, _⟩ | ⟨o, _, _, hres, hcheck⟩
    · exact .inl hres
    · rw [hres]
      exact .inr (converts_of_checkOverride hcheck)

/-- What a class sees in a slot converts to every result that was declared on its line. -/
theorem Tables.converts_along (ht : Tables r) {d a p : TypeHash} {D A : Class}
    (hD : r.class? d = some D) {slot : Nat} (hplain : PlainResults r D slot) {m : Method}
    (hm : Declares r p slot m) {t t' : Ty} (hseen : SeenAlong r slot a p t t')
    (ha : a ∈ D.mro) (hA : r.class? a = some A) {k : Rank} (hk : k ∈ A.ranks)
    (hslot : k.slot = slot) : r.convertsStrongly k.result m.result = true := by
  induction hseen generalizing A k with
  | here =>
    subst hslot
    rw [ht.result_of_declares hA hk hm]
    exact Registry.strongAlong_self r .forward m.result
  | @base a b p A' B t t' hA' hB first rest ih =>
    subst hslot
    rw [hA] at hA'
    injection hA' with hA'
    subst hA'
    have hb : b ∈ D.mro := ht.hierarchy.mro_trans hD ha hA
      (ht.hierarchy.mem_mro_of_mem_bases hA (mem_baseHashes_of_first ht.hierarchy hB first))
    obtain ⟨k₀, hk₀, hslot₀, hstep⟩ := ht.step_of_first hA hB hk first
    have hrest := ih hm hb hB hk₀ hslot₀
    have hplain₀ := ht.result_isPlain hD hb hB hk₀ (hslot₀ ▸ hplain)
    rw [A.inOwnTerms_of_isPlain B hplain₀] at hstep
    rcases hstep with hres | hconv
    · rw [hres]
      exact hrest
    · have hp := ht.hierarchy.mro_trans hD hb hB (rest.mem_mro ht.hierarchy hB)
      exact Registry.convertsStrongly_trans ht.hierarchy (ht.result_isPlain hD ha hA hk hplain)
        hplain₀ (hplain p hp m hm) hconv hrest

/-! ## Calls through an ancestor -/

/-- The result of a method of `O`, in the terms of `D`, converts strongly to the one that `A`
records for the slot. -/
def ResultFits (r : Registry) (D O A : Class) (sig : Signature) (k : Rank) : Prop :=
  r.convertsStrongly (D.inOwnTerms O sig.result) (D.inOwnTerms A k.result) = true

/-- What is known about a call through slot `k` of `a` that is bound to a method of `o`: the
result recorded for the slot was declared by some class `q` on the line of `a`. -/
structure CallResult (r : Registry) (d o a q : TypeHash) (D O A : Class) (sig : Signature)
    (k : Rank) (declared : Ty) : Prop where
  /-- The result that the caller expects is the declared one, rewritten along the line. -/
  seen : SeenAlong r k.slot a q declared k.result
  /-- A call through the class that declares the method gets what it expects. -/
  self : a = o → ResultFits r D O A sig k
  /-- So does a call through the first base of a class that declares the method itself. -/
  first : d = o → r.firstSeeing? k.slot (baseHashes D) = some A →
    r.convertsStrongly sig.result (D.inOwnTerms A k.result) = true
  /-- On plain types, the result fits if and only if it converts to the declared one. -/
  plain : PlainResults r D k.slot →
    (ResultFits r D O A sig k ↔ r.convertsStrongly sig.result declared = true)
  /-- On plain types, it fits if `q` is on the line of the class that declares the method. -/
  onLine : PlainResults r D k.slot → ∀ t t', SeenAlong r k.slot o q t t' →
    ResultFits r D O A sig k

/-- In an accepted program, let a slot of an ancestor `A` of `D` be bound to a function. The
result that `A` records for the slot was declared on the line of `A`; the result of the function
fits if and only if it converts to that one, which is sure if the class that declares the
function has the same class on its line. -/
theorem result_fits_iff {o : Options} {p : Program} {r : Registry} (h : accepted? o p = some r)
    {d a : TypeHash} {D A : Class} (hD : r.class? d = some D) (ha : a ∈ D.mro)
    (hA : r.class? a = some A) {k : Rank} (hk : k ∈ A.ranks) {f : Nat}
    (hf : D.implementation? k.slot = some (some f)) :
    ∃ b O sig m q m', b ∈ D.mro ∧ r.class? b = some O ∧ r.function? f = some sig ∧
      sig.owner = .classOf b ∧ Declares r b k.slot m ∧ m.function = f ∧
      q ∈ D.mro ∧ Declares r q k.slot m' ∧
      CallResult r d b a q D O A sig k m'.result := by
  have ht := tables_of_accepted? h
  have hsees := ht.sees_of_mem_mro hD ha hA (Class.sees_iff.mpr ⟨k, hk, rfl⟩)
  obtain ⟨m, hm, rfl⟩ := ht.firstDeclared_of_bound hD hsees hf
  obtain ⟨b, O, sig, hb, hO, hmem, hocc, hsig, howner, _, hrank⟩ := ht.firstDeclared_rank hm
  obtain ⟨q, m', hm', hseen⟩ := ht.exists_declared hA hk
  have hq := ht.hierarchy.mro_trans hD ha hA (hseen.mem_mro ht.hierarchy hA)
  refine ⟨b, O, sig, m, q, m', hb, hO, hsig, howner, ⟨O, hO, hmem, hocc⟩, rfl, hq, hm', ?_⟩
  -- On plain types nothing is rewritten, neither along the line nor into the terms of `D`.
  have hterms : PlainResults r D k.slot →
      (ResultFits r D O A sig k ↔ r.convertsStrongly sig.result m'.result = true) := by
    intro hplain
    have hresult := ht.result_isPlain hD hb hO hrank hplain
    have hdeclared := hplain q hq m' hm'
    unfold ResultFits
    rw [D.inOwnTerms_of_isPlain O hresult, hseen.eq_of_isPlain hdeclared,
      D.inOwnTerms_of_isPlain A hdeclared]
  refine ⟨hseen, ?_, ?_, hterms, ?_⟩
  · rintro rfl
    rw [hA] at hO
    injection hO with hO
    subst hO
    obtain ⟨own, inh, htabled, _⟩ := ht.tabled hA
    have heq := eq_of_slot_eq htabled.nodup hk hrank rfl
    unfold ResultFits
    rw [heq]
    exact Registry.strongAlong_self r .forward _
  · rintro rfl hfirst
    rw [hD] at hO
    injection hO with hO
    subst hO
    obtain ⟨k₀, hk₀, hslot₀, hstep⟩ := ht.step_of_first hD hA hrank hfirst
    obtain ⟨own, inh, htabled, _⟩ := ht.tabled hA
    have heq := eq_of_slot_eq htabled.nodup hk hk₀ hslot₀.symm
    subst heq
    rcases hstep with hres | hconv
    · dsimp only at hres
      rw [hres]
      exact Registry.strongAlong_self r .forward _
    · exact hconv
  · intro hplain t t' hline
    refine (hterms hplain).mpr ?_
    exact ht.converts_along hD hplain hm' hline hb hO hrank rfl

/-- Both branches of a diamond refine the result of a method. The class below them follows the
first. -/
def refining : Program :=
  let returning := fun name => sampleMethod "f" false
    (some (.pointer (.named name [] .unknown) .unknown))
  ⟨[⟨"m", [
    sampleClass "R" false [] [returning "R"],
    sampleClass "A" false ["R"] [returning "A"],
    sampleClass "B" false ["R"] [returning "B"],
    sampleClass "D" false ["A", "B"] [returning "A"]]⟩]⟩

set_option maxRecDepth 100000 in
theorem result_fits_refining : ∃ r k f d b q D O A sig t, accepted? {} refining = some r ∧
    firstBinding? r d (TypeHash.ofName "m$A") = some (k, f) ∧ r.class? d = some D ∧
    r.class? (TypeHash.ofName "m$A") = some A ∧ r.class? b = some O ∧ r.function? f = some sig ∧
    CallResult r d b (TypeHash.ofName "m$A") q D O A sig k t := by
  have hrun : ((accepted? {} refining).bind fun r =>
      firstBinding? r (TypeHash.ofName "m$D") (TypeHash.ofName "m$A")).isSome = true := by
    decide +kernel
  obtain ⟨⟨k, f⟩, hrun⟩ := Option.isSome_iff_exists.mp hrun
  obtain ⟨r, hr, hbinding⟩ := Option.bind_eq_some_iff.mp hrun
  obtain ⟨D, A, hD, ha, hA, hk, hf⟩ := firstBinding?_eq_some hbinding
  obtain ⟨b, O, sig, _, q, m', _, hO, hsig, _, _, _, _, _, hcall⟩ :=
    result_fits_iff hr hD ha hA hk hf
  exact ⟨r, k, f, _, b, q, D, O, A, sig, m'.result, hr, hbinding, hD, hA, hO, hsig, hcall⟩

set_option maxRecDepth 100000 in
/-- The result of a bound function need not fit the result that an ancestor records. -/
theorem result_can_misfit : ¬∀ (o : Options) (p : Program) (r : Registry) (d a b : TypeHash)
    (D A O : Class) (k : Rank) (f : Nat) (sig : Signature), accepted? o p = some r →
    r.class? d = some D → a ∈ D.mro → r.class? a = some A → k ∈ A.ranks →
    D.implementation? k.slot = some (some f) → r.function? f = some sig →
    sig.owner = .classOf b → r.class? b = some O → ResultFits r D O A sig k := by
  intro hall
  have hrun : ((accepted? {} refining).bind fun r =>
      (firstBinding? r (TypeHash.ofName "m$D") (TypeHash.ofName "m$B")).bind fun x =>
        (r.class? (TypeHash.ofName "m$D")).bind fun D =>
          (r.class? (TypeHash.ofName "m$B")).bind fun B => (r.function? x.2).map fun sig =>
            (decide (sig.owner = .classOf (TypeHash.ofName "m$D")),
              r.convertsStrongly (D.inOwnTerms D sig.result) (D.inOwnTerms B x.1.result))) =
      some (true, false) := by
    decide +kernel
  obtain ⟨r, hr, hrun⟩ := Option.bind_eq_some_iff.mp hrun
  obtain ⟨⟨k, f⟩, hbinding, hrun⟩ := Option.bind_eq_some_iff.mp hrun
  obtain ⟨D, hD, hrun⟩ := Option.bind_eq_some_iff.mp hrun
  obtain ⟨B, hB, hrun⟩ := Option.bind_eq_some_iff.mp hrun
  obtain ⟨sig, hsig, hrun⟩ := Option.map_eq_some_iff.mp hrun
  injection hrun with howner hmisfit
  obtain ⟨D', A, hD', ha, hA, hk, hf⟩ := firstBinding?_eq_some hbinding
  rw [hD] at hD'
  rw [hB] at hA
  injection hD' with hD'
  injection hA with hA
  subst hD' hA
  -- The method of `D` is checked against what its first base says about the slot; `B` says
  -- otherwise.
  have hfits := hall {} refining r _ _ _ D B D k f sig hr hD ha hB hk hf hsig
    (of_decide_eq_true howner) hD
  unfold ResultFits at hfits
  dsimp only at hmisfit
  rw [hfits] at hmisfit
  cases hmisfit

end ClassLang.Dispatch
