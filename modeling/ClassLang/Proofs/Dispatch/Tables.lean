import ClassLang.Proofs.Class.Ancestors
import ClassLang.Proofs.Dispatch.Slots
import ClassLang.Proofs.Ty.Conversion
import Mathlib.Data.List.Nodup
import Mathlib.Data.List.Pairwise

/-!
# The method tables of an accepted program

Method tables are built class by class, ancestors first. A table is made from the tables of
the ancestors, and since none of these changes afterwards, what was true of it when it was
built is true of it at the end: `Tabled` describes the finished table of a class in terms of
the finished registry. Fresh slots come from one counter, so every slot was introduced by one
class.
-/

namespace ClassLang

open CompileM Registration

namespace Dispatch

/-- The finished method table of a class, from the slots that it inherits and the methods of
its body. -/
structure Tabled (r : Registry) (c : Class) (own : List OwnMethod) (inh : List Rank) : Prop where
  inherited : inheritedRanks r c c.bases [] = .ok inh
  methods_eq : List.Forall₂ (fun o m => ∃ slot more, m = OwnMethod.inSlots o slot more)
    own c.methods
  keys : own.Pairwise fun a b => ¬SameKey a b
  nodup : (c.ranks.map (·.slot)).Nodup
  occupies : ∀ m ∈ c.methods, ∀ s, m.occupies s = true ↔
    ∃ k ∈ c.ranks, k.slot = s ∧ k.name = m.name ∧ k.params = m.params
  kept : ∀ k ∈ inh, (k ∈ c.ranks ∧ ∀ o ∈ own, overrides o k = false) ∨
    ∃ o ∈ own, overrides o k = true ∧ { k with result := o.result } ∈ c.ranks ∧
      checkOverride r c o k = .ok ()
  origin : ∀ k' ∈ c.ranks, (∃ k ∈ inh, k.slot = k'.slot) ∨
    ∃ o ∈ own, k' = ⟨o.name, o.params, o.result, k'.slot⟩
  bound : List.Forall₂ (fun k e => ∃ m, methodFor? r c c.methods k.slot = some m ∧
    e = (k.slot, bound m)) c.ranks c.vtable
  concrete : c.isAbstract = false → ∀ e ∈ c.vtable, e.2.isSome = true

/-- The table of a class without bases and methods is empty. -/
theorem Tabled.bare {r : Registry} {c : Class} (hbases : c.bases = []) (hmethods : c.methods = [])
    (hranks : c.ranks = []) (hvtable : c.vtable = []) : Tabled r c [] [] where
  inherited := by
    rw [hbases]
    rfl
  methods_eq := hmethods ▸ .nil
  keys := .nil
  nodup := by simp [hranks]
  occupies := by simp [hmethods]
  kept := List.forall_mem_nil _
  origin := by simp [hranks]
  bound := by
    rw [hranks, hvtable]
    exact .nil
  concrete := by simp [hvtable]

/-! ## A table depends on the ancestors -/

/-- The registries agree on the ancestors of a class and on the headers of all classes. -/
structure SameAncestry (r r' : Registry) (c : Class) : Prop where
  headers : SameHeaders r r'
  ancestors : ∀ h ∈ c.mro.drop 1, r'.class? h = r.class? h
  bases : ∀ h ∈ baseHashes c, r'.class? h = r.class? h

theorem getClass_congr {r r' : Registry} {h : TypeHash} (hh : r'.class? h = r.class? h) :
    r'.getClass h = r.getClass h := by
  unfold Registry.getClass
  rw [hh]

theorem inheritedRanks_congr {r r' : Registry} {c : Class} {ts : List Ty} :
    (∀ h ∈ ts.filterMap (·.classHash?), r'.class? h = r.class? h) →
      ∀ ranks, inheritedRanks r' c ts ranks = inheritedRanks r c ts ranks := by
  induction ts with
  | nil =>
    intro _ ranks
    rfl
  | cons t ts ih =>
    intro hts ranks
    unfold inheritedRanks
    split
    · rename_i hnone
      rw [List.filterMap_cons_none hnone] at hts
      exact ih hts ranks
    · rename_i hash hsome
      rw [List.filterMap_cons_some hsome] at hts
      rw [getClass_congr (hts hash (List.mem_cons_self ..))]
      congr 1
      funext base
      exact ih (fun h hh => hts h (List.mem_cons_of_mem _ hh)) _

theorem declarer?_congr {r r' : Registry} {slot : Nat} {hs : List TypeHash} :
    (∀ h ∈ hs, r'.class? h = r.class? h) → declarer? r' slot hs = declarer? r slot hs := by
  induction hs with
  | nil =>
    intro _
    rfl
  | cons h hs ih =>
    intro hhs
    unfold declarer?
    rw [getClass_congr (hhs h (List.mem_cons_self ..)),
      ih fun k hk => hhs k (List.mem_cons_of_mem _ hk)]

/-- What a check that a method may replace what is in a slot comes down to. -/
theorem checkOverride_eq_ok {r : Registry} {c : Class} {m : OwnMethod} {k : Rank} :
    checkOverride r c m k = .ok () ↔
      (∃ d, declarer? r k.slot (c.mro.drop 1) = .ok d ∧ ∀ x ∈ d, x.2.isConst = false) ∧
      r.convertsStrongly (methodType c m m.result) (methodType c m k.result) = true := by
  -- Both branches of the first check end with the check of the types.
  have hlast : ∀ {declared expected : Ty} {e : CompileError},
      (if (!r.convertsStrongly declared expected) = true then throw e else pure () :
        Except CompileError Unit) = .ok () ↔ r.convertsStrongly declared expected = true := by
    intro declared expected e
    cases r.convertsStrongly declared expected <;> simp
  unfold checkOverride
  rw [except_bind_eq_ok]
  constructor
  · rintro ⟨d, hd, hrest⟩
    cases d with
    | none => exact ⟨⟨none, hd, fun x hx => by cases hx⟩, hlast.mp hrest⟩
    | some x =>
      dsimp only at hrest
      split at hrest
      · simp at hrest
      · rename_i hconst
        refine ⟨⟨some x, hd, ?_⟩, hlast.mp hrest⟩
        intro y hy
        injection hy with hy
        rw [← hy]
        exact Bool.not_eq_true _ ▸ hconst
  · rintro ⟨⟨d, hd, hconst⟩, hconv⟩
    refine ⟨d, hd, ?_⟩
    cases d with
    | none => exact hlast.mpr hconv
    | some x =>
      dsimp only
      rw [if_neg]
      · exact hlast.mpr hconv
      · rw [hconst x rfl]
        decide

/-- An override's result converts strongly to the result that it replaces. -/
theorem converts_of_checkOverride {r : Registry} {c : Class} {m : OwnMethod} {k : Rank}
    (h : checkOverride r c m k = .ok ()) : r.convertsStrongly m.result k.result = true := by
  have hconv := (checkOverride_eq_ok.mp h).2
  unfold methodType at hconv
  rwa [Registry.convertsStrongly_callable] at hconv

theorem methodFor?_congr {r r' : Registry} {c : Class} {methods : List Method} {slot : Nat}
    (h : ∀ h ∈ c.mro.drop 1, r'.class? h = r.class? h) :
    methodFor? r' c methods slot = methodFor? r c methods slot := by
  unfold methodFor?
  split
  · rfl
  · generalize c.mro.drop 1 = hs at h
    induction hs with
    | nil => rfl
    | cons k hs ih =>
      rw [List.findSome?_cons, List.findSome?_cons, h k (List.mem_cons_self ..),
        ih fun a ha => h a (List.mem_cons_of_mem _ ha)]

theorem Tabled.congr {r r' : Registry} {c : Class} {own : List OwnMethod} {inh : List Rank}
    (h : Tabled r c own inh) (hr : SameAncestry r r' c) : Tabled r' c own inh where
  inherited := (inheritedRanks_congr hr.bases []).trans h.inherited
  methods_eq := h.methods_eq
  keys := h.keys
  nodup := h.nodup
  occupies := h.occupies
  kept k hk := by
    rcases h.kept k hk with hkept | ⟨o, ho, hover, hmem, hcheck⟩
    · exact .inl hkept
    · refine .inr ⟨o, ho, hover, hmem, ?_⟩
      rw [checkOverride_eq_ok] at hcheck ⊢
      rw [declarer?_congr hr.ancestors, Registry.convertsStrongly_congr hr.headers]
      exact hcheck
  origin := h.origin
  bound := by
    refine List.Forall₂.imp ?_ h.bound
    intro k e hke
    rw [methodFor?_congr hr.ancestors]
    exact hke
  concrete := h.concrete

/-! ## One class after another -/

/-- The signatures of both registries differ in slots and linkable names at most. -/
def SameSignatures (r r' : Registry) : Prop :=
  ∀ id, (r'.function? id).map (fun s => { s with slot := none, mangled := "" }) =
    (r.function? id).map (fun s => { s with slot := none, mangled := "" })

theorem SameSignatures.trans {r r₁ r₂ : Registry} (h₁ : SameSignatures r r₁)
    (h₂ : SameSignatures r₁ r₂) : SameSignatures r r₂ := fun id => (h₂ id).trans (h₁ id)

theorem SameSignatures.signed {r r' : Registry} (h : SameSignatures r r') {owner : TypeHash}
    {m : OwnMethod} (hm : Signed r owner m) : Signed r' owner m := by
  obtain ⟨⟨s, hs, hdesc⟩, hparams, hresult⟩ := hm
  have hid := h m.function
  rw [hs, Option.map_some, Option.map_eq_some_iff] at hid
  obtain ⟨s', hs', heq⟩ := hid
  simp only [Signature.mk.injEq] at heq
  obtain ⟨_, hname, _, howner, hps, hnames, hres, habs, hconst, _, _⟩ := heq
  refine ⟨⟨s', hs', ?_⟩, hparams, hresult⟩
  exact ⟨hname.trans hdesc.name, howner.trans hdesc.owner_eq, hps.trans hdesc.params,
    hres.trans hdesc.result, habs.trans hdesc.isAbstract, hconst.trans hdesc.isConst,
    hnames ▸ hdesc.paramNames⟩

theorem sameSignatures_modifyFunction {r : Registry} {id : Nat} {f : Signature → Signature}
    (hf : ∀ s : Signature, { f s with slot := none, mangled := "" } =
      { s with slot := none, mangled := "" }) : SameSignatures r (r.modifyFunction id f) := by
  intro k
  unfold Registry.modifyFunction Registry.function?
  dsimp only
  rw [Array.getElem?_modify]
  split
  · cases r.functions[k]? with
    | none => rfl
    | some s => simp [hf]
  · rfl

/-- A class with a method table filled in. -/
def withTable (c : Class) (t : MethodTable) : Class :=
  { c with methods := t.methods, ranks := t.ranks, vtable := t.vtable }

/-- Building the method table of a class fills it in and takes slots from the counter. -/
theorem buildMethodTable_effect {p : PendingClass} {own : List OwnMethod} {c c' : Compilation}
    {u : Unit} (h : Yields (buildMethodTable p own) c u c') :
    ∃ k t r₁, c.registry.class? p.hash = some k ∧
      methodTable c.registry k own = (.ok t, r₁) ∧
      (∀ h, c'.registry.class? h = if h = p.hash then (r₁.class? h).map (withTable · t)
        else r₁.class? h) ∧
      c'.registry.nextSlot = r₁.nextSlot ∧ SameSignatures r₁ c'.registry ∧
      c'.registry.pointerSize = r₁.pointerSize := by
  simp only [buildMethodTable, yields_bind, yields_askRegistry, Registry.getClass_eq_ok,
    yields_modifyClass] at h
  obtain ⟨k, c₀, ⟨hk, rfl⟩, t, c₁, htable, _, c₂, hslots, _, rfl⟩ := h
  obtain ⟨k₀, k₁, hbody, hbefore, hafter⟩ := inModule_effect htable
  simp only [yields_bind, yields_updateRegistry, yields_conclude] at hbody
  obtain ⟨result, k₂, ⟨hresult, rfl⟩, hok, rfl⟩ := hbody
  rw [hbefore] at hresult hafter
  subst hresult
  -- Recording the slots of the methods changes functions only.
  have hkept : c₂.registry.classes = c₁.registry.classes ∧
      c₂.registry.nextSlot = c₁.registry.nextSlot ∧
      SameSignatures c₁.registry c₂.registry ∧
      c₂.registry.pointerSize = c₁.registry.pointerSize := by
    refine forM_induction (fun s => s.registry.classes = c₁.registry.classes ∧
      s.registry.nextSlot = c₁.registry.nextSlot ∧ SameSignatures c₁.registry s.registry ∧
      s.registry.pointerSize = c₁.registry.pointerSize)
      ?_ ⟨rfl, rfl, fun _ => rfl, rfl⟩ hslots
    rintro m _ s _ s' ⟨hc, hn, hf, hp⟩ hstep
    rw [yields_modifyRegistry] at hstep
    subst hstep
    exact ⟨hc, hn, hf.trans (sameSignatures_modifyFunction fun _ => rfl), hp⟩
  obtain ⟨hclasses, hnext, hsigs, hsize⟩ := hkept
  rw [hafter] at hnext hsigs hclasses hsize
  refine ⟨k, t, _, hk, Prod.ext hok rfl, ?_, hnext, hsigs, hsize⟩
  intro h
  rw [Registry.class?_modifyClass]
  unfold Registry.class?
  rw [hclasses]
  split
  · rename_i hh
    rw [hh]
    rfl
  · rfl

/-- What is known about a class before its methods are. -/
def laidOut (c : Class) : Class := { c with methods := [], ranks := [], vtable := [] }

/-- Both registries have the same classes up to their methods, and the same pointers. -/
structure SameLayouts (r r' : Registry) : Prop where
  classes : ∀ h, (r'.class? h).map laidOut = (r.class? h).map laidOut
  pointerSize : r'.pointerSize = r.pointerSize

namespace SameLayouts

theorem refl (r : Registry) : SameLayouts r r := ⟨fun _ => rfl, rfl⟩

theorem trans {r r₁ r₂ : Registry} (h₁ : SameLayouts r r₁) (h₂ : SameLayouts r₁ r₂) :
    SameLayouts r r₂ :=
  ⟨fun k => (h₂.classes k).trans (h₁.classes k), h₂.pointerSize.trans h₁.pointerSize⟩

theorem headers {r r' : Registry} (h : SameLayouts r r') : SameHeaders r r' := by
  have hmap : ∀ o : Option Class, o.map header = (o.map laidOut).map header := by
    intro o
    cases o <;> rfl
  intro k
  rw [hmap, h.classes k, ← hmap]

/-- A class is registered before if it is afterwards, and was the same up to its methods. -/
theorem exists_class_before {r r' : Registry} (h : SameLayouts r r') {k : TypeHash} {c' : Class}
    (hc : r'.class? k = some c') : ∃ c, r.class? k = some c ∧ laidOut c = laidOut c' := by
  have hk := h.classes k
  rw [hc, Option.map_some, eq_comm, Option.map_eq_some_iff] at hk
  exact hk

/-- A class is registered afterwards if it is before, and is the same up to its methods. -/
theorem exists_class {r r' : Registry} (h : SameLayouts r r') {k : TypeHash} {c : Class}
    (hc : r.class? k = some c) : ∃ c', r'.class? k = some c' ∧ laidOut c = laidOut c' := by
  have hk := h.classes k
  rw [hc, Option.map_some, Option.map_eq_some_iff] at hk
  obtain ⟨c', hc', heq⟩ := hk
  exact ⟨c', hc', heq.symm⟩

end SameLayouts

/-- Building method tables leaves layouts and signatures alone. -/
theorem buildMethodTables_keeps {methods : List (TypeHash × OwnMethod)}
    {ordered : List PendingClass} {c c' : Compilation} {u : Unit}
    (h : Yields (buildMethodTables methods ordered) c u c') :
    SameLayouts c.registry c'.registry ∧ SameSignatures c.registry c'.registry := by
  refine forM_induction (fun k => SameLayouts c.registry k.registry ∧
    SameSignatures c.registry k.registry) ?_ ⟨.refl _, fun _ => rfl⟩ h
  intro p _ k _ k' hk hstep
  obtain ⟨d, t, r₁, hd, htable, hclass, _, hsigs, hsize⟩ := buildMethodTable_effect hstep
  obtain ⟨next, hnext⟩ := methodTable_registry k.registry d
    ((methods.filter fun m => m.1 = p.hash).map (·.2))
  rw [htable] at hnext
  have hnext : r₁ = { k.registry with nextSlot := next } := hnext
  refine ⟨hk.1.trans ⟨fun b => ?_, by rw [hsize, hnext]⟩, hk.2.trans ?_⟩
  · rw [hclass b, hnext]
    split
    · rename_i hb
      subst hb
      rw [Option.map_map]
      rfl
    · rfl
  · rw [hnext] at hsigs
    exact hsigs

theorem inheritedRanks_withTable {r : Registry} {c : Class} {t : MethodTable} {ts : List Ty} :
    ∀ ranks, inheritedRanks r (withTable c t) ts ranks = inheritedRanks r c ts ranks := by
  induction ts with
  | nil =>
    intro ranks
    rfl
  | cons t' ts ih =>
    intro ranks
    unfold inheritedRanks
    split
    · exact ih ranks
    · congr 1
      funext base
      exact ih _

/-- A class with the table that was built for it. -/
theorem Built.tabled {r : Registry} {c : Class} {own : List OwnMethod} {inh : List Rank}
    {t : MethodTable} {next : Nat} (h : Built r c own inh t next) :
    Tabled r (withTable c t) own inh where
  inherited := (inheritedRanks_withTable []).trans h.inherited
  methods_eq := h.read.methods_eq
  keys := h.read.keys
  nodup := h.read.nodup
  occupies := h.read.occupies
  kept k hk := by
    rcases h.read.kept k hk with hkept | ⟨o, ho, hover, hmem, n, hcheck⟩
    · exact .inl hkept
    · refine .inr ⟨o, ho, hover, hmem, ?_⟩
      have hsame : SameHeaders { r with nextSlot := n } r := fun _ => rfl
      rw [checkOverride_eq_ok] at hcheck ⊢
      rw [Registry.convertsStrongly_congr hsame]
      obtain ⟨⟨d, hd, hconst⟩, hconv⟩ := hcheck
      refine ⟨⟨d, ?_, hconst⟩, hconv⟩
      rw [← hd]
      exact declarer?_congr fun _ _ => rfl
  origin k' hk' := by
    rcases h.read.origin k' hk' with hin | ⟨_, hown⟩
    · exact .inl hin
    · exact .inr hown
  bound := h.bound
  concrete := h.concrete

/-- A class is where a slot comes from: it sees the slot and none of its bases does. -/
def Introduces (r : Registry) (c : Class) (slot : Nat) : Prop :=
  c.sees slot = true ∧ ∀ b ∈ baseHashes c, ∀ k, r.class? b = some k → k.sees slot = false

/-- The methods of a class body, among those of all classes. -/
def bodyOf (methods : List (TypeHash × OwnMethod)) (h : TypeHash) : List OwnMethod :=
  (methods.filter fun m => m.1 = h).map (·.2)

/-- What holds when the tables of some classes are built. -/
structure Progress (r₀ r : Registry) (methods : List (TypeHash × OwnMethod))
    (before : List PendingClass) : Prop where
  headers : SameHeaders r₀ r
  signatures : SameSignatures r₀ r
  untabled : ∀ h c, r.class? h = some c → ¬Pending before h →
    c.methods = [] ∧ c.ranks = [] ∧ c.vtable = []
  slots : ∀ h c, r.class? h = some c → ∀ k ∈ c.ranks, k.slot < r.nextSlot
  tabled : ∀ h c, r.class? h = some c → Pending before h →
    ∃ inh, Tabled r c (bodyOf methods h) inh
  introduced : ∀ h₁ c₁ h₂ c₂ s, r.class? h₁ = some c₁ → r.class? h₂ = some c₂ →
    Introduces r c₁ s → Introduces r c₂ s → h₁ = h₂

theorem pending_concat {before : List PendingClass} {p : PendingClass} {h : TypeHash} :
    Pending (before ++ [p]) h ↔ Pending before h ∨ p.hash = h := by
  simp only [Pending, List.mem_append, List.mem_singleton, or_and_right, exists_or, exists_eq_left]

/-- The table of one class is filled in, with slots from the counter. -/
structure Filled (r r' : Registry) (h : TypeHash) (k : Class) (t : MethodTable) : Prop where
  before : r.class? h = some k
  class? : ∀ h', r'.class? h' = if h' = h then some (withTable k t) else r.class? h'
  signatures : SameSignatures r r'

namespace Filled

variable {r r' : Registry} {h h' : TypeHash} {k c : Class} {t : MethodTable}

theorem self (hf : Filled r r' h k t) : r'.class? h = some (withTable k t) := by
  rw [hf.class?, if_pos rfl]

theorem other (hf : Filled r r' h k t) (hne : h' ≠ h) : r'.class? h' = r.class? h' := by
  rw [hf.class?, if_neg hne]

theorem eq_withTable (hf : Filled r r' h k t) (hc : r'.class? h = some c) : c = withTable k t :=
  Option.some.inj (hc.symm.trans hf.self)

theorem headers (hf : Filled r r' h k t) : SameHeaders r r' := by
  intro h'
  rw [hf.class?]
  split
  · rename_i hh
    rw [hh, hf.before]
    rfl
  · rfl

/-- A table stays what it is unless the class is among the ancestors. -/
theorem tabled (hf : Filled r r' h k t) {own : List OwnMethod} {inh : List Rank}
    (hmro : h ∉ c.mro.drop 1) (hbases : ∀ b ∈ baseHashes c, b ≠ h) (ht : Tabled r c own inh) :
    Tabled r' c own inh := by
  refine ht.congr ⟨hf.headers, fun a ha => ?_, fun b hb => hf.other (hbases b hb)⟩
  exact hf.other fun heq => hmro (heq ▸ ha)

theorem ne_of_mem_baseHashes (hf : Filled r r' h k t) (hr : Hierarchy r) :
    ∀ b ∈ baseHashes k, b ≠ h := by
  rintro b hb rfl
  exact Nat.lt_irrefl _ (hr.length_mro_lt hf.before hb hf.before)

/-- A slot that the class introduces was taken from the counter for it. -/
theorem nextSlot_le_of_introduces (hf : Filled r r' h k t) (hr : Hierarchy r)
    {own : List OwnMethod} {inh : List Rank} {next s : Nat} (hbuilt : Built r k own inh t next)
    (hs : Introduces r' (withTable k t) s) : r.nextSlot ≤ s := by
  obtain ⟨hsees, hnone⟩ := hs
  obtain ⟨rank, hrank, rfl⟩ := Class.sees_iff.mp hsees
  rcases hbuilt.read.origin rank hrank with ⟨k₀, hk₀, hslot⟩ | ⟨hle, _⟩
  · -- an inherited slot is seen by a base, too
    rcases (inheritedRanks_inherited hbuilt.inherited).origin k₀ hk₀ with hk₀ |
      ⟨_, base, hbase, k₁, hk₁, rfl⟩
    · exact absurd hk₀ List.not_mem_nil
    · obtain ⟨b, hb, hbreg⟩ := List.mem_filterMap.mp (List.mem_of_find?_eq_some hbase)
      have hreg : r'.class? b = some base := by
        rw [hf.other (hf.ne_of_mem_baseHashes hr b hb), hbreg]
      have hunseen := hnone b hb base hreg
      rw [Class.sees_iff.mpr ⟨k₁, hk₁, hslot⟩] at hunseen
      cases hunseen
  · exact hle

end Filled

/-- What another class introduces it introduced before, when the class that is filled in had no
table. -/
theorem Progress.introduces_before {r₀ r r' : Registry} {methods : List (TypeHash × OwnMethod)}
    {before : List PendingClass} {h h' : TypeHash} {k c : Class} {t : MethodTable} {s : Nat}
    (hprog : Progress r₀ r methods before) (hf : Filled r r' h k t) (hnew : ¬Pending before h)
    (hne : h' ≠ h) (hc : r'.class? h' = some c) (hs : Introduces r' c s) :
    r.class? h' = some c ∧ Introduces r c s ∧ s < r.nextSlot := by
  obtain ⟨hsees, hnone⟩ := hs
  rw [hf.other hne] at hc
  obtain ⟨rank, hrank, hslot⟩ := Class.sees_iff.mp hsees
  refine ⟨hc, ⟨hsees, ?_⟩, hslot ▸ hprog.slots h' c hc rank hrank⟩
  intro b hb kb hkb
  by_cases hbh : b = h
  · rw [hbh, hf.before] at hkb
    injection hkb with hkb
    subst hkb
    rw [Class.sees, (hprog.untabled _ k hf.before hnew).2.1]
    rfl
  · exact hnone b hb kb (by rw [hf.other hbh, hkb])

/-- Building the table of a class that no class before it descends from. -/
theorem Progress.step {r₀ r r' : Registry} {methods : List (TypeHash × OwnMethod)}
    {before : List PendingClass} {p : PendingClass} {k : Class} {t : MethodTable}
    {inh : List Rank} (hprog : Progress r₀ r methods before) (hr : Hierarchy r)
    (hf : Filled r r' p.hash k t) (hnew : ¬Pending before p.hash)
    (hbefore : ∀ h c, r.class? h = some c → Pending before h → p.hash ∉ c.mro)
    (hbuilt : Built r k (bodyOf methods p.hash) inh t r'.nextSlot) :
    Progress r₀ r' methods (before ++ [p]) where
  headers := hprog.headers.trans hf.headers
  signatures := hprog.signatures.trans hf.signatures
  untabled h c hc hnot := by
    rw [pending_concat, not_or] at hnot
    rw [hf.other fun heq => hnot.2 heq.symm] at hc
    exact hprog.untabled h c hc hnot.1
  slots h c hc rank hrank := by
    by_cases hh : h = p.hash
    · obtain rfl := hf.eq_withTable (hh ▸ hc)
      exact hbuilt.read.bound rank hrank
    · rw [hf.other hh] at hc
      exact Nat.lt_of_lt_of_le (hprog.slots h c hc rank hrank) hbuilt.read.next_le
  tabled h c hc hpending := by
    by_cases hh : h = p.hash
    · subst hh
      obtain rfl := hf.eq_withTable hc
      have hnot : p.hash ∉ (withTable k t).mro.drop 1 := hr.not_mem_drop_mro (c := k) hf.before
      exact ⟨inh, hf.tabled hnot (hf.ne_of_mem_baseHashes hr) hbuilt.tabled⟩
    · rw [hf.other hh] at hc
      have hpending := (pending_concat.mp hpending).resolve_right fun heq => hh heq.symm
      obtain ⟨inh', htabled⟩ := hprog.tabled h c hc hpending
      have hnot := hbefore h c hc hpending
      refine ⟨inh', hf.tabled (fun hmem => hnot (List.mem_of_mem_drop hmem)) ?_ htabled⟩
      rintro b hb rfl
      exact hnot (hr.mem_mro_of_mem_bases hc hb)
  introduced h₁ c₁ h₂ c₂ s hc₁ hc₂ hi₁ hi₂ := by
    -- slots of this class come from the counter, those of all others are below it
    by_cases heq₁ : h₁ = p.hash <;> by_cases heq₂ : h₂ = p.hash
    · rw [heq₁, heq₂]
    · obtain ⟨_, _, hlt⟩ := hprog.introduces_before hf hnew heq₂ hc₂ hi₂
      obtain rfl := hf.eq_withTable (heq₁ ▸ hc₁)
      exact absurd hlt (Nat.not_lt.mpr (hf.nextSlot_le_of_introduces hr hbuilt hi₁))
    · obtain ⟨_, _, hlt⟩ := hprog.introduces_before hf hnew heq₁ hc₁ hi₁
      obtain rfl := hf.eq_withTable (heq₂ ▸ hc₂)
      exact absurd hlt (Nat.not_lt.mpr (hf.nextSlot_le_of_introduces hr hbuilt hi₂))
    · obtain ⟨hc₁, hi₁, _⟩ := hprog.introduces_before hf hnew heq₁ hc₁ hi₁
      obtain ⟨hc₂, hi₂, _⟩ := hprog.introduces_before hf hnew heq₂ hc₂ hi₂
      exact hprog.introduced h₁ c₁ h₂ c₂ s hc₁ hc₂ hi₁ hi₂

/-- Descendants come behind their ancestors, and no class comes twice. -/
structure InOrder (r : Registry) (ps : List PendingClass) : Prop where
  nodup : (ps.map (·.hash)).Nodup
  sorted : ps.Pairwise fun q p => ∀ cq cp, r.class? q.hash = some cq →
    r.class? p.hash = some cp → cq.mro.length ≤ cp.mro.length

/-- Building the table of the next class. -/
theorem buildMethodTable_progress {r₀ : Registry} {methods : List (TypeHash × OwnMethod)}
    (hr : Hierarchy r₀) {before after : List PendingClass} {p : PendingClass}
    {c c' : Compilation} {u : Unit} (hprog : Progress r₀ c.registry methods before)
    (horder : InOrder r₀ (before ++ p :: after))
    (h : Yields (buildMethodTable p (bodyOf methods p.hash)) c u c') :
    Progress r₀ c'.registry methods (before ++ [p]) := by
  obtain ⟨hnodup, hsorted⟩ := horder
  obtain ⟨k, t, r₁, hk, htable, hclass, hnext, hsigs, _⟩ := buildMethodTable_effect h
  obtain ⟨inh, next, rfl, hbuilt⟩ := methodTable_built hprog.slots htable
  have hr₁ := hr.congr hprog.headers
  have hnew : ¬Pending before p.hash := by
    rintro ⟨q, hq, heq⟩
    rw [List.map_append, List.map_cons] at hnodup
    exact (List.nodup_append.mp hnodup).2.2 _ (List.mem_map_of_mem hq) _
      (List.mem_cons_self ..) heq
  -- A class before `p` has no longer a linearization, so it does not descend from `p`.
  have hbefore : ∀ h d, c.registry.class? h = some d → Pending before h → p.hash ∉ d.mro := by
    rintro h d hd ⟨q, hq, rfl⟩ hmem
    have hne : p.hash ≠ q.hash := fun heq => hnew ⟨q, hq, heq.symm⟩
    have hlt := hr₁.length_mro_lt_of_mem hd hmem hne hk
    obtain ⟨d₀, hd₀, hdeq⟩ := hprog.headers.symm.exists_class hd
    obtain ⟨k₀, hk₀, hkeq⟩ := hprog.headers.symm.exists_class hk
    have hle := (List.pairwise_append.mp hsorted).2.2 q hq p (List.mem_cons_self ..) d₀ k₀ hd₀ hk₀
    have hdmro := congrArg Class.mro hdeq
    have hkmro := congrArg Class.mro hkeq
    dsimp only [header] at hdmro hkmro
    rw [hdmro, hkmro] at hle
    omega
  have hclass' : ∀ h, c'.registry.class? h =
      if h = p.hash then some (withTable k t) else c.registry.class? h := by
    intro h
    rw [hclass h]
    split
    · rename_i hh
      subst hh
      exact congrArg (Option.map (withTable · t)) hk
    · rfl
  subst hnext
  exact hprog.step hr₁ ⟨hk, hclass', hsigs⟩ hnew hbefore hbuilt

theorem buildMethodTables_progress {r₀ : Registry} {methods : List (TypeHash × OwnMethod)}
    (hr : Hierarchy r₀) {after : List PendingClass} :
    ∀ {before : List PendingClass} {c c' : Compilation} {u : Unit},
      Progress r₀ c.registry methods before → InOrder r₀ (before ++ after) →
      Yields (buildMethodTables methods after) c u c' →
      Progress r₀ c'.registry methods (before ++ after) := by
  induction after with
  | nil =>
    intro before c c' u hprog _ h
    simp only [buildMethodTables, yields_forM_nil] at h
    rw [h, List.append_nil]
    exact hprog
  | cons p after ih =>
    intro before c c' u hprog horder h
    simp only [buildMethodTables, yields_forM_cons] at h
    obtain ⟨_, c₁, hstep, hrest⟩ := h
    have hprog₁ := buildMethodTable_progress hr hprog horder hstep
    rw [List.append_cons] at horder ⊢
    exact ih hprog₁ horder hrest

/-! ## The finished tables -/

/-- The classes of an accepted program: a hierarchy in which every class has its table. -/
structure Tables (r : Registry) : Prop where
  hierarchy : Hierarchy r
  tabled : ∀ {h c}, r.class? h = some c →
    ∃ own inh, Tabled r c own inh ∧ ∀ o ∈ own, Signed r h o
  introduced : ∀ {h₁ c₁ h₂ c₂ s}, r.class? h₁ = some c₁ → r.class? h₂ = some c₂ →
    Introduces r c₁ s → Introduces r c₂ s → h₁ = h₂

/-- A table stays what it is when only functions change. -/
theorem Tables.congr {r r' : Registry} (h : Tables r) (hclass : ∀ k, r'.class? k = r.class? k)
    (hsigs : SameSignatures r r') : Tables r' := by
  have hheaders : SameHeaders r r' := fun k => by rw [hclass]
  refine ⟨h.hierarchy.congr hheaders, ?_, ?_⟩
  · intro k c hc
    rw [hclass] at hc
    obtain ⟨own, inh, htabled, hsigned⟩ := h.tabled hc
    refine ⟨own, inh, htabled.congr ⟨hheaders, ?_, ?_⟩, ?_⟩
    · exact fun k _ => hclass k
    · exact fun k _ => hclass k
    · exact fun o ho => hsigs.signed (hsigned o ho)
  · intro h₁ c₁ h₂ c₂ s hc₁ hc₂ hi₁ hi₂
    rw [hclass] at hc₁ hc₂
    refine h.introduced hc₁ hc₂ ⟨hi₁.1, ?_⟩ ⟨hi₂.1, ?_⟩
    · exact fun b hb k hk => hi₁.2 b hb k (by rw [hclass, hk])
    · exact fun b hb k hk => hi₂.2 b hb k (by rw [hclass, hk])

theorem assignAll_effect {r r' : Registry} (h : LinkName.assignAll r = .ok r') :
    (∀ k, r'.class? k = r.class? k) ∧ SameSignatures r r' ∧ r'.pointerSize = r.pointerSize := by
  unfold LinkName.assignAll at h
  simp only [except_bind_eq_ok, except_pure_eq_ok] at h
  obtain ⟨named, _, rfl⟩ := h
  generalize LinkName.finalNames r named = names
  let rename := fun (r : Registry) (x : Nat × String) =>
    r.modifyFunction x.1 fun s => { s with mangled := x.2 }
  have hfold : ∀ r₁ : Registry, (∀ k, r₁.class? k = r.class? k) → SameSignatures r r₁ →
      r₁.pointerSize = r.pointerSize →
      (∀ k, (names.foldl rename r₁).class? k = r.class? k) ∧
      SameSignatures r (names.foldl rename r₁) ∧
      (names.foldl rename r₁).pointerSize = r.pointerSize := by
    induction names with
    | nil =>
      intro r₁ hclass hsigs hsize
      exact ⟨hclass, hsigs, hsize⟩
    | cons x names ih =>
      intro r₁ hclass hsigs hsize
      rw [List.foldl_cons]
      exact ih _ hclass (hsigs.trans (sameSignatures_modifyFunction fun _ => rfl)) hsize
  exact hfold r (fun _ => rfl) (fun _ => rfl) rfl

/-- The tables are complete once every declared class has been gone through. -/
theorem Progress.tables {r₀ r : Registry} {methods : List (TypeHash × OwnMethod)}
    {ordered : List PendingClass} (h : Progress r₀ r methods ordered) (hr : Hierarchy r₀)
    (hsigned : AllSigned r₀ methods)
    (hknown : ∀ k c, r₀.class? k = some c → Pending ordered k ∨
      ¬Pending ordered k ∧ c.bases = []) : Tables r := by
  refine ⟨hr.congr h.headers, ?_, fun hc₁ hc₂ => h.introduced _ _ _ _ _ hc₁ hc₂⟩
  intro k c hc
  obtain ⟨c₀, hc₀, heq⟩ := h.headers.symm.exists_class hc
  rcases hknown k c₀ hc₀ with hpending | ⟨hnot, hbases⟩
  · obtain ⟨inh, htabled⟩ := h.tabled k c hc hpending
    refine ⟨bodyOf methods k, inh, htabled, ?_⟩
    intro o ho
    obtain ⟨x, hx, rfl⟩ := List.mem_map.mp ho
    obtain ⟨hx, hxk⟩ := List.mem_filter.mp hx
    have hown : x.1 = k := by simpa using hxk
    exact h.signatures.signed (hown ▸ hsigned x hx)
  · obtain ⟨hmethods, hranks, hvtable⟩ := h.untabled k c hc hnot
    have hb := congrArg Class.bases heq
    dsimp only [header] at hb
    rw [hbases] at hb
    exact ⟨[], [], .bare hb.symm hmethods hranks hvtable, List.forall_mem_nil _⟩

/-! ## The whole registration -/

/-- What is known when headers, linearizations and inherited arguments are complete. -/
structure Headed (r : Registry) (ps ordered : List PendingClass) : Prop where
  declared : Declared r ps
  hierarchy : Hierarchy r
  perm : ordered.Perm ps
  sorted : ordered.Pairwise fun q p => ∀ cq cp, r.class? q.hash = some cq →
    r.class? p.hash = some cp → cq.mro.length ≤ cp.mro.length

/-- The first half of registration, up to the inherited template arguments. -/
def runHeaders (p : Program) : CompileM (List PendingClass × List PendingClass) := do
  let classes ← declareModules p.modules
  resolveHeaders classes
  linearizeAll classes
  checkDeferred
  let ordered ← fromRegistry (byAncestry · classes)
  ordered.forM inheritArgs
  return (classes, ordered)

/-- The first half of registration, step by step. -/
structure HeaderSteps (p : Program) (ps ordered : List PendingClass)
    (c c₁ c₂ c₃ c₄ c' : Compilation) : Prop where
  declared : Yields (declareModules p.modules) c ps c₁
  resolved : Yields (resolveHeaders ps) c₁ () c₂
  linearized : Yields (linearizeAll ps) c₂ () c₃
  checked : Yields checkDeferred c₃ () c₄
  order : ordered = byAncestry c₄.registry ps
  inherited : Yields (ordered.forM inheritArgs) c₄ () c'

theorem yields_runHeaders {p : Program} {c c' : Compilation} {ps ordered : List PendingClass}
    (h : Yields (runHeaders p) c (ps, ordered) c') :
    ∃ c₁ c₂ c₃ c₄, HeaderSteps p ps ordered c c₁ c₂ c₃ c₄ c' := by
  simp only [runHeaders, yields_bind, yields_fromRegistry, yields_pure, Prod.mk.injEq] at h
  obtain ⟨classes, c₁, hdeclare, _, c₂, hheaders, _, c₃, hlinearize, _, c₄, hdeferred, order, _,
    ⟨horder, rfl⟩, _, _, hinherit, ⟨rfl, rfl⟩, rfl⟩ := h
  exact ⟨c₁, c₂, c₃, _, hdeclare, hheaders, hlinearize, hdeferred, horder, hinherit⟩

/-- What the steps of the first half do to the classes. -/
structure HeaderChanges (ps ordered : List PendingClass) (r₁ r₂ r₄ r' : Registry) : Prop where
  declared : Declared r₁ ps
  resolved : r₁.Changes (Pending ps) (fun k => { k with templates := [], bases := [] }) r₂
  linearized : r₂.Changes (Pending ps) (fun k => { k with mro := [] }) r₄
  inherited : r₄.Changes (Pending ps) (fun k => { k with inherited := .empty }) r'
  perm : ordered.Perm ps
  hierarchy : Hierarchy r'

theorem HeaderSteps.changes {p : Program} {ps ordered : List PendingClass}
    {c c₁ c₂ c₃ c₄ c' : Compilation} (hc : Declared c.registry [])
    (h : HeaderSteps p ps ordered c c₁ c₂ c₃ c₄ c') :
    HeaderChanges ps ordered c₁.registry c₂.registry c₄.registry c'.registry := by
  have hd₁ : Declared c₁.registry ps := declareModules_declared hc h.declared
  have hchanges₂ := resolveHeaders_changes h.resolved
  have hd₂ : Declared c₂.registry ps := hd₁.changes (hchanges₂.coarsen lasting fun _ => rfl)
  obtain ⟨hchanges₃, hlinearized⟩ := linearizeAll_linearized hd₂ h.linearized
  have hd₃ : Declared c₃.registry ps := hd₂.changes (hchanges₃.coarsen lasting fun _ => rfl)
  have h₄ : c₄.registry = c₃.registry := h.checked.keeps
  rw [← h₄] at hd₃ hlinearized hchanges₃
  have hperm : ordered.Perm ps := h.order ▸ byAncestry_perm c₄.registry ps
  obtain ⟨hchanges₅, hhier⟩ := inheritAll_hierarchy hd₃ hperm hlinearized h.inherited
  exact ⟨hd₁, hchanges₂, hchanges₃, hchanges₅, hperm, hhier⟩

theorem HeaderChanges.kept {α : Type} {ps ordered : List PendingClass} {r₁ r₂ r₄ r' : Registry}
    (h : HeaderChanges ps ordered r₁ r₂ r₄ r') (φ : Class → α)
    (hmro : ∀ k : Class, φ { k with mro := [] } = φ k)
    (hinherited : ∀ k : Class, φ { k with inherited := .empty } = φ k) :
    r₂.Changes (Pending ps) φ r' :=
  (h.linearized.coarsen φ fun k => (hmro k).symm).trans
    (h.inherited.coarsen φ fun k => (hinherited k).symm)

theorem runHeaders_headed {p : Program} {c c' : Compilation} {ps ordered : List PendingClass}
    (hc : Declared c.registry []) (h : Yields (runHeaders p) c (ps, ordered) c') :
    Headed c'.registry ps ordered := by
  obtain ⟨c₁, c₂, c₃, c₄, hsteps⟩ := yields_runHeaders h
  have hchanges := hsteps.changes hc
  have hd₅ : Declared c'.registry ps := (hchanges.declared.changes
    (hchanges.resolved.coarsen lasting fun _ => rfl)).changes
      (hchanges.kept lasting (fun _ => rfl) fun _ => rfl)
  refine ⟨hd₅, hchanges.hierarchy, hchanges.perm, ?_⟩
  -- The order was made before the inherited arguments were filled in; linearizations are kept.
  have hancestry : ∀ q cq, c'.registry.class? q = some cq →
      ∃ k, c₄.registry.class? q = some k ∧ k.mro = cq.mro := by
    intro q cq hq
    obtain ⟨k, hk, heq⟩ := hchanges.inherited.exists_class_before hq
    have hmro := congrArg Class.mro heq
    exact ⟨k, hk, hmro⟩
  have hsorted := byAncestry_sorted c₄.registry ps
  rw [← hsteps.order] at hsorted
  refine hsorted.imp ?_
  intro q p hle cq cp hq hp
  obtain ⟨kq, hkq, hmq⟩ := hancestry _ _ hq
  obtain ⟨kp, hkp, hmp⟩ := hancestry _ _ hp
  rw [ancestry, ancestry, hkq, hkp] at hle
  rw [← hmq, ← hmp]
  exact hle

/-- Registration is its first half followed by layout, signatures, tables, names, globals. -/
theorem run_eq (p : Program) : run p = runHeaders p >>= fun x => do
    layOutAll x.1
    let (methods, functions) ← registerModules p.modules
    buildMethodTables methods x.2
    assignLinkNames
    let globals ← registerAllGlobals p.modules
    return ⟨x.1.length, functions, globals⟩ := by
  simp only [run, runHeaders, bind_assoc, pure_bind]

/-- Registration of all but globals: how many classes and functions there are. -/
def runTables (p : Program) : CompileM (Nat × Nat) := do
  let x ← runHeaders p
  layOutAll x.1
  let (methods, functions) ← registerModules p.modules
  buildMethodTables methods x.2
  assignLinkNames
  return (x.1.length, functions)

theorem run_eq_runTables (p : Program) : run p = runTables p >>= fun x => do
    let globals ← registerAllGlobals p.modules
    return ⟨x.1, x.2, globals⟩ := by
  simp only [run, runTables, runHeaders, bind_assoc, pure_bind]

/-- Registration up to the signatures, step by step. -/
structure MemberSteps (p : Program) (ps ordered : List PendingClass)
    (methods : List (TypeHash × OwnMethod)) (c c₁ c₂ c₃ : Compilation) : Prop where
  headers : Yields (runHeaders p) c (ps, ordered) c₁
  layout : Yields (layOutAll ps) c₁ () c₂
  signatures : ∃ count, Yields (registerModules p.modules) c₂ (methods, count) c₃

section MemberSteps

variable {p : Program} {ps ordered : List PendingClass} {methods : List (TypeHash × OwnMethod)}
  {c c₁ c₂ c₃ : Compilation}

theorem MemberSteps.sameHeaders (h : MemberSteps p ps ordered methods c c₁ c₂ c₃) :
    SameHeaders c₁.registry c₃.registry := by
  obtain ⟨_, hregister⟩ := h.signatures
  obtain ⟨more, hmore⟩ := (registerModules_registers hregister).adds
  have hlaid := ((layOutAll_changes h.layout).coarsen header (φ := header) fun _ => rfl).shown
  rw [hmore]
  exact hlaid

/-- No table is built when the signatures are registered. -/
theorem MemberSteps.progress (hc : Declared c.registry [])
    (h : MemberSteps p ps ordered methods c c₁ c₂ c₃) :
    Progress c₃.registry c₃.registry methods [] := by
  obtain ⟨hd, _, _, _⟩ := runHeaders_headed hc h.headers
  have hchanges := layOutAll_changes h.layout
  obtain ⟨_, hregister⟩ := h.signatures
  obtain ⟨more, hmore⟩ := (registerModules_registers hregister).adds
  have huntabled : ∀ k d, c₃.registry.class? k = some d →
      d.methods = [] ∧ d.ranks = [] ∧ d.vtable = [] := by
    intro k d hk
    rw [hmore] at hk
    obtain ⟨d₁, hd₁, heq⟩ := (hchanges.coarsen lasting (φ := lasting)
      fun _ => rfl).exists_class_before hk
    have hempty := hd.untabled k d₁ hd₁
    simp only [lasting, Prod.mk.injEq] at heq
    rw [← heq.2.1, ← heq.2.2.1, ← heq.2.2.2.1]
    exact hempty
  refine ⟨fun _ => rfl, fun _ => rfl, fun k d hk _ => huntabled k d hk, ?_, ?_, ?_⟩
  · intro k d hk rank hrank
    rw [(huntabled k d hk).2.1] at hrank
    exact absurd hrank List.not_mem_nil
  · rintro k d hk ⟨q, hq, _⟩
    exact absurd hq List.not_mem_nil
  · intro h₁ c₁ h₂ c₂ s hc₁ _ hi₁
    rw [Introduces, Class.sees, (huntabled h₁ c₁ hc₁).2.1] at hi₁
    cases hi₁.1

theorem MemberSteps.inOrder (hc : Declared c.registry [])
    (h : MemberSteps p ps ordered methods c c₁ c₂ c₃) : InOrder c₃.registry ordered := by
  obtain ⟨hd, _, hperm, hsorted⟩ := runHeaders_headed hc h.headers
  have hsame := h.sameHeaders
  refine ⟨(hperm.map (·.hash)).nodup_iff.mpr (List.nodup_cons.mp hd.distinct).2,
    hsorted.imp fun {q p} hle cq cp hq hp => ?_⟩
  obtain ⟨kq, hkq, heqq⟩ := hsame.symm.exists_class hq
  obtain ⟨kp, hkp, heqp⟩ := hsame.symm.exists_class hp
  have hmq := congrArg Class.mro heqq
  have hmp := congrArg Class.mro heqp
  dsimp only [header] at hmq hmp
  rw [← hmq, ← hmp]
  exact hle kq kp hkq hkp

/-- All tables are built, from the methods of all class bodies. -/
theorem MemberSteps.built {c₄ : Compilation} (hc : Declared c.registry [])
    (h : MemberSteps p ps ordered methods c c₁ c₂ c₃)
    (htables : Yields (buildMethodTables methods ordered) c₃ () c₄) :
    Progress c₃.registry c₄.registry methods ordered :=
  buildMethodTables_progress ((runHeaders_headed hc h.headers).hierarchy.congr h.sameHeaders)
    (h.progress hc) (h.inOrder hc) htables

theorem MemberSteps.tables {c₄ : Compilation} (hc : Declared c.registry [])
    (h : MemberSteps p ps ordered methods c c₁ c₂ c₃)
    (htables : Yields (buildMethodTables methods ordered) c₃ () c₄) : Tables c₄.registry := by
  obtain ⟨hd, hhier, hperm, _⟩ := runHeaders_headed hc h.headers
  obtain ⟨_, hregister⟩ := h.signatures
  have hsame := h.sameHeaders
  refine (h.built hc htables).tables (hhier.congr hsame)
    (registerModules_registers hregister).signed ?_
  intro k d hk
  obtain ⟨d₁, hd₁, heq⟩ := hsame.symm.exists_class hk
  rcases hd.known k d₁ hd₁ with rfl | ⟨q, hq, rfl⟩
  · obtain ⟨root, hroot, _, hbases⟩ := hd.root
    rw [hd₁] at hroot
    injection hroot with hroot
    have hb := congrArg Class.bases heq
    dsimp only [header] at hb
    refine .inr ⟨?_, by rw [← hb, hroot, hbases]⟩
    rintro ⟨q, hq, heq⟩
    exact hd.root_not_mem (hperm.mem_iff.mp hq) heq
  · exact .inl ⟨q, hperm.mem_iff.mpr hq, rfl⟩

end MemberSteps

/-- Registration up to the linkable names, step by step. -/
structure TableSteps (p : Program) (ps ordered : List PendingClass)
    (methods : List (TypeHash × OwnMethod)) (c c₁ c₂ c₃ c₄ c₅ : Compilation) : Prop
    extends MemberSteps p ps ordered methods c c₁ c₂ c₃ where
  tables : Yields (buildMethodTables methods ordered) c₃ () c₄
  names : Yields assignLinkNames c₄ () c₅

section TableSteps

variable {p : Program} {ps ordered : List PendingClass} {methods : List (TypeHash × OwnMethod)}
  {c c₁ c₂ c₃ c₄ c₅ : Compilation}

/-- Linkable names are given to what is registered in the end. -/
theorem TableSteps.assigned (h : TableSteps p ps ordered methods c c₁ c₂ c₃ c₄ c₅) :
    LinkName.assignAll c₄.registry = .ok c₅.registry := by
  have hnames := h.names
  simp only [assignLinkNames, yields_bind, yields_askRegistry, yields_modifyRegistry] at hnames
  obtain ⟨r', _, ⟨hassign, rfl⟩, rfl⟩ := hnames
  exact hassign

/-- The signatures are complete up to their slots and linkable names when they are registered. -/
theorem TableSteps.sameSignatures (h : TableSteps p ps ordered methods c c₁ c₂ c₃ c₄ c₅) :
    SameSignatures c₃.registry c₅.registry :=
  (buildMethodTables_keeps h.tables).2.trans (assignAll_effect h.assigned).2.1

/-- The classes are complete up to their methods when they are laid out. -/
theorem TableSteps.sameLayouts (h : TableSteps p ps ordered methods c c₁ c₂ c₃ c₄ c₅) :
    SameLayouts c₂.registry c₅.registry := by
  obtain ⟨_, hregister⟩ := h.signatures
  obtain ⟨more, hmore⟩ := (registerModules_registers hregister).adds
  have hadded : SameLayouts c₂.registry c₃.registry := by
    rw [hmore]
    exact ⟨fun _ => rfl, rfl⟩
  obtain ⟨hclass, _, hsize⟩ := assignAll_effect h.assigned
  exact (hadded.trans (buildMethodTables_keeps h.tables).1).trans ⟨fun b => by rw [hclass], hsize⟩

/-- The size of a pointer is that of the start. -/
theorem TableSteps.pointerSize (hc : Declared c.registry [])
    (h : TableSteps p ps ordered methods c c₁ c₂ c₃ c₄ c₅) :
    c₅.registry.pointerSize = c.registry.pointerSize := by
  obtain ⟨d₁, d₂, d₃, d₄, hheaders⟩ := yields_runHeaders h.headers
  have hchanges := hheaders.changes hc
  calc c₅.registry.pointerSize
    _ = c₂.registry.pointerSize := h.sameLayouts.pointerSize
    _ = c₁.registry.pointerSize := (layOutAll_changes h.layout).pointerSize
    _ = d₄.registry.pointerSize := hchanges.inherited.pointerSize
    _ = d₂.registry.pointerSize := hchanges.linearized.pointerSize
    _ = d₁.registry.pointerSize := hchanges.resolved.pointerSize
    _ = c.registry.pointerSize := declareModules_pointerSize hheaders.declared

/-- All tables are built, from the methods of all class bodies. -/
theorem TableSteps.progress (hc : Declared c.registry [])
    (h : TableSteps p ps ordered methods c c₁ c₂ c₃ c₄ c₅) :
    Progress c₃.registry c₄.registry methods ordered :=
  h.toMemberSteps.built hc h.tables

theorem TableSteps.finished (hc : Declared c.registry [])
    (h : TableSteps p ps ordered methods c c₁ c₂ c₃ c₄ c₅) : Tables c₅.registry := by
  obtain ⟨hclass, hsigs, _⟩ := assignAll_effect h.assigned
  exact (h.toMemberSteps.tables hc h.tables).congr hclass hsigs

end TableSteps

/-- Registration, step by step. -/
structure Steps (p : Program) (ps ordered : List PendingClass)
    (methods : List (TypeHash × OwnMethod)) (c c₁ c₂ c₃ c₄ c₅ c' : Compilation) : Prop where
  headers : Yields (runHeaders p) c (ps, ordered) c₁
  layout : Yields (layOutAll ps) c₁ () c₂
  signatures : ∃ count, Yields (registerModules p.modules) c₂ (methods, count) c₃
  tables : Yields (buildMethodTables methods ordered) c₃ () c₄
  names : Yields assignLinkNames c₄ () c₅
  globals : ∃ count, Yields (registerAllGlobals p.modules) c₅ count c'

theorem yields_run {p : Program} {c c' : Compilation} {n : Counts} (h : Yields (run p) c n c') :
    ∃ ps ordered methods c₁ c₂ c₃ c₄ c₅, Steps p ps ordered methods c c₁ c₂ c₃ c₄ c₅ c' := by
  rw [run_eq] at h
  simp only [yields_bind, yields_pure] at h
  obtain ⟨⟨ps, ordered⟩, c₁, hheaders, _, c₂, hlayout, ⟨methods, count⟩, c₃, hregister, _, c₄,
    htables, _, c₅, hnames, globals, _, hglobals, _, rfl⟩ := h
  exact ⟨ps, ordered, methods, c₁, c₂, c₃, c₄, c₅, hheaders, hlayout, ⟨count, hregister⟩, htables,
    hnames, ⟨globals, hglobals⟩⟩

section Steps

variable {p : Program} {ps ordered : List PendingClass} {methods : List (TypeHash × OwnMethod)}
  {c c₁ c₂ c₃ c₄ c₅ c' : Compilation}

theorem Steps.toTableSteps (h : Steps p ps ordered methods c c₁ c₂ c₃ c₄ c₅ c') :
    TableSteps p ps ordered methods c c₁ c₂ c₃ c₄ c₅ :=
  ⟨⟨h.headers, h.layout, h.signatures⟩, h.tables, h.names⟩

/-- Globals are registered in the state, not in the registry. -/
theorem Steps.registry_eq (h : Steps p ps ordered methods c c₁ c₂ c₃ c₄ c₅ c') :
    c'.registry = c₅.registry := by
  obtain ⟨_, hglobals⟩ := h.globals
  exact hglobals.keeps

theorem Steps.assigned (h : Steps p ps ordered methods c c₁ c₂ c₃ c₄ c₅ c') :
    LinkName.assignAll c₄.registry = .ok c'.registry := h.registry_eq ▸ h.toTableSteps.assigned

theorem Steps.sameSignatures (h : Steps p ps ordered methods c c₁ c₂ c₃ c₄ c₅ c') :
    SameSignatures c₃.registry c'.registry := h.registry_eq ▸ h.toTableSteps.sameSignatures

theorem Steps.sameLayouts (h : Steps p ps ordered methods c c₁ c₂ c₃ c₄ c₅ c') :
    SameLayouts c₂.registry c'.registry := h.registry_eq ▸ h.toTableSteps.sameLayouts

theorem Steps.pointerSize (hc : Declared c.registry [])
    (h : Steps p ps ordered methods c c₁ c₂ c₃ c₄ c₅ c') :
    c'.registry.pointerSize = c.registry.pointerSize :=
  h.registry_eq ▸ h.toTableSteps.pointerSize hc

theorem Steps.sameHeaders (h : Steps p ps ordered methods c c₁ c₂ c₃ c₄ c₅ c') :
    SameHeaders c₁.registry c₃.registry := h.toTableSteps.sameHeaders

theorem Steps.progress (hc : Declared c.registry [])
    (h : Steps p ps ordered methods c c₁ c₂ c₃ c₄ c₅ c') :
    Progress c₃.registry c₄.registry methods ordered := h.toTableSteps.progress hc

theorem Steps.finished (hc : Declared c.registry [])
    (h : Steps p ps ordered methods c c₁ c₂ c₃ c₄ c₅ c') : Tables c'.registry :=
  h.registry_eq ▸ h.toTableSteps.finished hc

end Steps

theorem accepted?_eq_some {o : Options} {p : Program} {r : Registry}
    (h : accepted? o p = some r) :
    ∃ c c' n, Compilation.start o = .ok c ∧ Yields (run p) c n c' ∧ c'.registry = r := by
  unfold accepted? at h
  split at h
  · cases h
  · rename_i c hstart
    split at h
    · rename_i n c' hrun
      injection h with h
      exact ⟨c, c', n, hstart, hrun, h⟩
    · cases h

theorem start_registry {o : Options} {c : Compilation} (h : Compilation.start o = .ok c) :
    c.registry = .initial o.pointerSize := by
  unfold Compilation.start at h
  simp only [except_bind_eq_ok, except_pure_eq_ok] at h
  obtain ⟨_, _, _, _, rfl⟩ := h
  rfl

theorem declared_start {o : Options} {c : Compilation} (h : Compilation.start o = .ok c) :
    Declared c.registry [] := by
  rw [start_registry h]
  exact declared_initial _

theorem steps_of_accepted? {o : Options} {p : Program} {r : Registry}
    (h : accepted? o p = some r) :
    ∃ ps ordered methods c c₁ c₂ c₃ c₄ c₅ c', Compilation.start o = .ok c ∧
      Steps p ps ordered methods c c₁ c₂ c₃ c₄ c₅ c' ∧ c'.registry = r := by
  obtain ⟨c, c', n, hstart, hrun, hr⟩ := accepted?_eq_some h
  obtain ⟨ps, ordered, methods, c₁, c₂, c₃, c₄, c₅, hsteps⟩ := yields_run hrun
  exact ⟨ps, ordered, methods, c, c₁, c₂, c₃, c₄, c₅, c', hstart, hsteps, hr⟩

theorem pointerSize_of_accepted? {o : Options} {p : Program} {r : Registry}
    (h : accepted? o p = some r) : r.pointerSize = o.pointerSize := by
  obtain ⟨_, _, _, _, _, _, _, _, _, _, hstart, hsteps, rfl⟩ := steps_of_accepted? h
  rw [hsteps.pointerSize (declared_start hstart), start_registry hstart]
  rfl

/-- The classes of an accepted program have their method tables. -/
theorem tables_of_accepted? {o : Options} {p : Program} {r : Registry}
    (h : accepted? o p = some r) : Tables r := by
  obtain ⟨_, _, _, _, _, _, _, _, _, _, hstart, hsteps, rfl⟩ := steps_of_accepted? h
  exact hsteps.finished (declared_start hstart)

/-! ## Where a slot comes from -/

theorem eq_of_slot_eq {ranks : List Rank} (h : (ranks.map (·.slot)).Nodup) {a b : Rank}
    (ha : a ∈ ranks) (hb : b ∈ ranks) (hslot : a.slot = b.slot) : a = b :=
  List.inj_on_of_nodup_map h ha hb hslot

theorem firstSeeing?_sees {r : Registry} {s : Nat} {hs : List TypeHash} {base : Class}
    (h : r.firstSeeing? s hs = some base) :
    base.sees s = true ∧ ∃ b ∈ hs, r.class? b = some base := by
  obtain ⟨b, hb, hbase⟩ := List.mem_filterMap.mp (List.mem_of_find?_eq_some h)
  unfold Registry.firstSeeing? at h
  exact ⟨List.find?_some (p := fun k : Class => k.sees s) h, b, hb, hbase⟩

/-- How `c` comes to see the slot `k'` that its first base with that slot sees as `k`: the slot
is inherited, or a method of the body overrides it. -/
structure Descends (r : Registry) (c : Class) (own : List OwnMethod) (base : Class)
    (k k' : Rank) : Prop where
  first : r.firstSeeing? k'.slot (baseHashes c) = some base
  mem : k ∈ base.ranks
  slot : k.slot = k'.slot
  name : k'.name = k.name
  params : k'.params = k.params.map (c.inOwnTerms base)
  result : k'.result = c.inOwnTerms base k.result ∧ (∀ o ∈ own, overrides o k' = false) ∨
    ∃ o ∈ own, overrides o k' = true ∧ k'.result = o.result ∧
      checkOverride r c o (k.inTerms c base) = .ok ()

/-- A slot is introduced by the class, or descends from that of a base. -/
theorem Tabled.rank_cases {r : Registry} {c : Class} {own : List OwnMethod} {inh : List Rank}
    (h : Tabled r c own inh) {k' : Rank} (hk' : k' ∈ c.ranks) :
    (Introduces r c k'.slot ∧ ∃ o ∈ own, k' = ⟨o.name, o.params, o.result, k'.slot⟩) ∨
      ∃ base k, Descends r c own base k k' := by
  have hinh := inheritedRanks_inherited h.inherited
  -- The slots that are inherited and those that are introduced are told apart by their numbers.
  by_cases hex : ∃ k ∈ inh, k.slot = k'.slot
  · obtain ⟨k₁, hk₁, hslot⟩ := hex
    rcases hinh.origin k₁ hk₁ with hnil | ⟨_, base, hbase, k, hk, rfl⟩
    · exact absurd hnil List.not_mem_nil
    · rw [hslot] at hbase
      refine .inr ⟨base, k, ?_⟩
      rcases h.kept _ hk₁ with ⟨hmem, hno⟩ | ⟨o, ho, hover, hmem, hcheck⟩
      · have heq := eq_of_slot_eq h.nodup hk' hmem hslot.symm
        exact ⟨hbase, hk, hslot, by rw [heq]; rfl, by rw [heq]; rfl,
          .inl ⟨by rw [heq]; rfl, by rw [heq]; exact hno⟩⟩
      · have heq := eq_of_slot_eq h.nodup hk' hmem hslot.symm
        refine ⟨hbase, hk, hslot, by rw [heq]; rfl, by rw [heq]; rfl,
          .inr ⟨o, ho, ?_, by rw [heq], hcheck⟩⟩
        rw [heq, overrides_iff]
        exact overrides_iff.mp hover
  · refine .inl ⟨⟨Class.sees_iff.mpr ⟨k', hk', rfl⟩, ?_⟩, ?_⟩
    · intro b hb base hbase
      cases hsees : base.sees k'.slot with
      | false => rfl
      | true =>
        obtain ⟨k, hk, hslot⟩ := Class.sees_iff.mp hsees
        obtain ⟨k₁, hk₁, hslot₁⟩ := hinh.covers b hb base hbase k hk
        exact absurd ⟨k₁, hk₁, hslot₁.trans hslot⟩ hex
    · rcases h.origin k' hk' with hin | hown
      · exact absurd hin hex
      · exact hown

/-- A slot that a method of the body fills has the name and the types of the method. -/
theorem Tabled.rank_of_occupies {r : Registry} {c : Class} {own : List OwnMethod}
    {inh : List Rank} (h : Tabled r c own inh) {m : Method} (hm : m ∈ c.methods) {s : Nat}
    (hs : m.occupies s = true) : ⟨m.name, m.params, m.result, s⟩ ∈ c.ranks := by
  obtain ⟨k, hk, rfl, hname, hparams⟩ := (h.occupies m hm s).mp hs
  obtain ⟨o, ho, slot, more, rfl⟩ := exists_right_of_forall₂ h.methods_eq.flip hm
  have hover : overrides o k = true := overrides_iff.mpr ⟨hname, hparams⟩
  -- No other method of the body has the name and the parameters of the slot.
  have honly : ∀ o' ∈ own, overrides o' k = true → o' = o := by
    intro o' ho' hover'
    by_contra hne
    have hkey := overrides_iff.mp hover'
    have hsymm : Std.Symm fun a b => ¬SameKey a b :=
      ⟨fun _ _ hab hba => hab ⟨hba.1.symm, hba.2.symm⟩⟩
    exact h.keys.forall ho' ho hne ⟨hkey.1.symm.trans hname, hkey.2.symm.trans hparams⟩
  have hresult : k.result = o.result := by
    rcases h.rank_cases hk with ⟨_, o', ho', heq⟩ | ⟨base, k₀, hdesc⟩
    · have hkey : overrides o' k = true := by
        rw [heq, overrides_iff]
        exact ⟨rfl, rfl⟩
      rw [heq, honly o' ho' hkey]
    · rcases hdesc.result with ⟨_, hno⟩ | ⟨o', ho', hover', hres, _⟩
      · rw [hno o ho] at hover
        cases hover
      · rw [hres, honly o' ho' hover']
  have heq : (⟨o.name, o.params, o.result, k.slot⟩ : Rank) = k := by
    rw [← hresult]
    exact congrArg₂ (fun n ps => (⟨n, ps, k.result, k.slot⟩ : Rank)) hname.symm hparams.symm
  exact heq ▸ hk

/-- A class sees what its ancestors see. -/
theorem Tables.sees_of_mem_mro {r : Registry} (ht : Tables r) {h a : TypeHash} {c A : Class}
    {s : Nat} (hc : r.class? h = some c) (ha : a ∈ c.mro) (hA : r.class? a = some A)
    (hs : A.sees s = true) : c.sees s = true := by
  revert ha
  refine ht.hierarchy.induction (P := fun _ c => a ∈ c.mro → c.sees s = true) ?_ hc
  intro h c hc ih ha
  rcases (ht.hierarchy.mem_mro_iff hc).mp ha with rfl | ⟨b, hb, base, hbase, ha⟩
  · rw [hA] at hc
    injection hc with hc
    exact hc ▸ hs
  · obtain ⟨own, inh, htabled, _⟩ := ht.tabled hc
    obtain ⟨k, hk, hslot⟩ := Class.sees_iff.mp (ih b hb base hbase ha)
    obtain ⟨k₁, hk₁, hslot₁⟩ :=
      (inheritedRanks_inherited htabled.inherited).covers b hb base hbase k hk
    rcases htabled.kept k₁ hk₁ with ⟨hmem, _⟩ | ⟨o, _, _, hmem, _⟩
    · exact Class.sees_iff.mpr ⟨k₁, hmem, hslot₁.trans hslot⟩
    · exact Class.sees_iff.mpr ⟨_, hmem, hslot₁.trans hslot⟩

/-- What descending keeps relates every slot to the one that was introduced. -/
theorem Tables.rank_origin {r : Registry} (ht : Tables r) {R : Rank → Rank → Prop}
    (hrefl : ∀ {h c k} {own : List OwnMethod} {o : OwnMethod}, r.class? h = some c →
      (∀ o ∈ own, Signed r h o) → o ∈ own → k = ⟨o.name, o.params, o.result, k.slot⟩ → R k k)
    (hstep : ∀ {h c own base k k' k₀}, r.class? h = some c → (∀ o ∈ own, Signed r h o) →
      Descends r c own base k k' → R k k₀ → R k' k₀)
    {h : TypeHash} {c : Class} (hc : r.class? h = some c) :
    ∀ k ∈ c.ranks, ∃ h₀ c₀ k₀, r.class? h₀ = some c₀ ∧ Introduces r c₀ k.slot ∧
      k₀ ∈ c₀.ranks ∧ k₀.slot = k.slot ∧ R k k₀ := by
  refine ht.hierarchy.induction (P := fun _ c => ∀ k ∈ c.ranks, ∃ h₀ c₀ k₀,
    r.class? h₀ = some c₀ ∧ Introduces r c₀ k.slot ∧ k₀ ∈ c₀.ranks ∧ k₀.slot = k.slot ∧
    R k k₀) ?_ hc
  intro h c hc ih k' hk'
  obtain ⟨own, inh, htabled, hsigned⟩ := ht.tabled hc
  rcases htabled.rank_cases hk' with ⟨hintro, o, ho, heq⟩ | ⟨base, k, hdesc⟩
  · exact ⟨h, c, k', hc, hintro, hk', rfl, hrefl hc hsigned ho heq⟩
  · obtain ⟨_, b, hb, hbase⟩ := firstSeeing?_sees hdesc.first
    obtain ⟨h₀, c₀, k₀, hc₀, hintro, hk₀, hslot₀, hR⟩ := ih b hb base hbase k hdesc.mem
    rw [hdesc.slot] at hintro hslot₀
    exact ⟨h₀, c₀, k₀, hc₀, hintro, hk₀, hslot₀, hstep hc hsigned hdesc hR⟩

/-- Any two slots of one number are related to the same introduced slot. -/
theorem Tables.common_origin {r : Registry} (ht : Tables r) {R : Rank → Rank → Prop}
    (hrefl : ∀ {h c k} {own : List OwnMethod} {o : OwnMethod}, r.class? h = some c →
      (∀ o ∈ own, Signed r h o) → o ∈ own → k = ⟨o.name, o.params, o.result, k.slot⟩ → R k k)
    (hstep : ∀ {h c own base k k' k₀}, r.class? h = some c → (∀ o ∈ own, Signed r h o) →
      Descends r c own base k k' → R k k₀ → R k' k₀)
    {h₁ h₂ : TypeHash} {c₁ c₂ : Class} (hc₁ : r.class? h₁ = some c₁)
    (hc₂ : r.class? h₂ = some c₂) {k₁ k₂ : Rank} (hk₁ : k₁ ∈ c₁.ranks) (hk₂ : k₂ ∈ c₂.ranks)
    (hslot : k₁.slot = k₂.slot) : ∃ k₀, R k₁ k₀ ∧ R k₂ k₀ := by
  obtain ⟨a₁, d₁, o₁, hd₁, hi₁, ho₁, hs₁, hR₁⟩ := ht.rank_origin hrefl hstep hc₁ k₁ hk₁
  obtain ⟨a₂, d₂, o₂, hd₂, hi₂, ho₂, hs₂, hR₂⟩ := ht.rank_origin hrefl hstep hc₂ k₂ hk₂
  rw [← hslot] at hi₂
  have ha := ht.introduced hd₁ hd₂ hi₁ hi₂
  rw [ha, hd₂] at hd₁
  injection hd₁ with hd₁
  subst hd₁
  obtain ⟨own, inh, htabled, _⟩ := ht.tabled hd₂
  have ho := eq_of_slot_eq htabled.nodup ho₁ ho₂ (hs₁.trans (hslot.trans hs₂.symm))
  exact ⟨o₁, hR₁, ho ▸ hR₂⟩

end Dispatch

end ClassLang
