import ClassLang.Proofs.Class.Linearization
import ClassLang.Proofs.Registration.Effects

/-!
# The class hierarchy of an accepted program

Registration declares all classes before it fills in any of them, and from then on a class is
only ever changed under its own hash, one part at a time. So what one step found out about a
class is still true at the end, and the hierarchy can be described once and for all: every
class is registered under its own hash, its linearization is what it adds to those of its
bases, and these are registered too. A base has the shorter linearization, which is why
classes in the order of their ancestry come after their ancestors, and why facts about classes
are proved by going from the bases to the class.
-/

namespace ClassLang

open CompileM

variable {β : Type}

/-! ## Changes to registered classes -/

/-- Only classes that satisfy `touched` changed, and of them nothing that `π` shows. -/
structure Registry.Changes (touched : TypeHash → Prop) (π : Class → β) (r r' : Registry) :
    Prop where
  shown : ∀ h, (r'.class? h).map π = (r.class? h).map π
  outside : ∀ h, ¬touched h → r'.class? h = r.class? h
  functions : r'.functions = r.functions
  nextSlot : r'.nextSlot = r.nextSlot
  pointerSize : r'.pointerSize = r.pointerSize

namespace Registry.Changes

variable {touched : TypeHash → Prop} {π : Class → β} {r r₁ r₂ : Registry}

theorem refl (touched : TypeHash → Prop) (π : Class → β) (r : Registry) :
    r.Changes touched π r := ⟨fun _ => rfl, fun _ _ => rfl, rfl, rfl, rfl⟩

theorem trans (h₁ : r.Changes touched π r₁) (h₂ : r₁.Changes touched π r₂) :
    r.Changes touched π r₂ where
  shown h := (h₂.shown h).trans (h₁.shown h)
  outside h hh := (h₂.outside h hh).trans (h₁.outside h hh)
  functions := h₂.functions.trans h₁.functions
  nextSlot := h₂.nextSlot.trans h₁.nextSlot
  pointerSize := h₂.pointerSize.trans h₁.pointerSize

/-- What shows less of a class does not change either. -/
theorem coarsen {γ : Type} {φ : Class → γ} (h : r.Changes touched π r₁) (g : β → γ)
    (hg : ∀ c, φ c = g (π c)) : r.Changes touched φ r₁ where
  shown k := by
    have hφ : φ = g ∘ π := funext hg
    rw [hφ, ← Option.map_map, ← Option.map_map, h.shown k]
  outside := h.outside
  functions := h.functions
  nextSlot := h.nextSlot
  pointerSize := h.pointerSize

theorem widen {touched' : TypeHash → Prop} (htouched : ∀ h, touched h → touched' h)
    (h : r.Changes touched π r₁) : r.Changes touched' π r₁ where
  shown := h.shown
  outside k hk := h.outside k fun hk' => hk (htouched k hk')
  functions := h.functions
  nextSlot := h.nextSlot
  pointerSize := h.pointerSize

/-- A class is registered afterwards if it was before, and shows the same. -/
theorem exists_class (h : r.Changes touched π r₁) {k : TypeHash} {c : Class}
    (hc : r.class? k = some c) : ∃ c', r₁.class? k = some c' ∧ π c' = π c := by
  have hshown := h.shown k
  rw [hc, Option.map_some, Option.map_eq_some_iff] at hshown
  exact hshown

/-- A class is registered before if it is afterwards, and showed the same. -/
theorem exists_class_before (h : r.Changes touched π r₁) {k : TypeHash} {c' : Class}
    (hc : r₁.class? k = some c') : ∃ c, r.class? k = some c ∧ π c = π c' := by
  have hshown := h.shown k
  rw [hc, Option.map_some, eq_comm, Option.map_eq_some_iff] at hshown
  exact hshown

/-- Changing a part of one class that `π` does not show. -/
theorem modifyClass {h : TypeHash} {f : Class → Class} (hh : touched h)
    (hf : ∀ c, π (f c) = π c) : r.Changes touched π (r.modifyClass h f) where
  shown k := by
    rw [class?_modifyClass]
    split
    · rename_i hk
      subst hk
      cases r.class? k with
      | none => rfl
      | some c => simp [hf]
    · rfl
  outside k hk := by
    rw [class?_modifyClass, if_neg]
    rintro rfl
    exact hk hh
  functions := rfl
  nextSlot := rfl
  pointerSize := rfl

end Registry.Changes

namespace Registration

/-! ## Declared classes -/

/-- The registry holds the root and the given classes, which have no methods yet. -/
structure Declared (r : Registry) (ps : List PendingClass) : Prop where
  known : ∀ h c, r.class? h = some c → h = Class.rootHash ∨ ∃ p ∈ ps, p.hash = h
  registered : ∀ p ∈ ps, ∃ c, r.class? p.hash = some c ∧ c.name = p.decl.name.name
  distinct : (Class.rootHash :: ps.map (·.hash)).Nodup
  hash_eq : ∀ h c, r.class? h = some c → c.hash = h
  rootClass : r.class? Class.rootHash = some (Class.root r.pointerSize)
  untabled : ∀ h c, r.class? h = some c → c.methods = [] ∧ c.ranks = [] ∧ c.vtable = []
  slotless : r.nextSlot = 0
  functionless : r.functions = #[]

theorem Declared.root {r : Registry} {ps : List PendingClass} (h : Declared r ps) :
    ∃ c, r.class? Class.rootHash = some c ∧ c.mro = [Class.rootHash] ∧ c.bases = [] :=
  ⟨_, h.rootClass, rfl, rfl⟩

theorem Declared.root_not_mem {r : Registry} {ps : List PendingClass} (h : Declared r ps)
    {p : PendingClass} (hp : p ∈ ps) : p.hash ≠ Class.rootHash := by
  intro hroot
  have hnot := (List.nodup_cons.mp h.distinct).1
  rw [← hroot] at hnot
  exact hnot (List.mem_map_of_mem hp)

theorem declared_initial (n : Nat) : Declared (.initial n) [] := by
  have hfind : ∀ h, (Registry.initial n).class? h =
      if h = Class.rootHash then some (Class.root n) else none := by
    intro h
    exact Registry.class?_addClass _ _ h
  refine ⟨?_, by simp, by simp, ?_, ?_, ?_, rfl, rfl⟩
  · intro h c hc
    rw [hfind] at hc
    split at hc
    · rename_i hh
      exact .inl hh
    · cases hc
  · intro h c hc
    rw [hfind] at hc
    split at hc
    · rename_i hh
      injection hc with hc
      rw [← hc, hh]
      rfl
    · cases hc
  · rw [hfind, if_pos rfl]
    rfl
  · intro h c hc
    rw [hfind] at hc
    split at hc
    · injection hc with hc
      subst hc
      exact ⟨rfl, rfl, rfl⟩
    · cases hc

/-- Declaring a class whose hash is free. -/
theorem Declared.addClass {r : Registry} {ps : List PendingClass} (h : Declared r ps)
    {p : PendingClass} {name path : String} {span : Span} {isAbstract : Bool}
    (hp : p.hash = (Class.declared name path span isAbstract).hash)
    (hname : name = p.decl.name.name) (hfree : r.class? p.hash = none) :
    Declared (r.addClass (.declared name path span isAbstract)) (ps ++ [p]) := by
  have hfind : ∀ k, (r.addClass (.declared name path span isAbstract)).class? k =
      if k = p.hash then
        some { Class.declared name path span isAbstract with id := r.order.length }
      else r.class? k := by
    intro k
    rw [hp]
    exact Registry.class?_addClass _ _ k
  have hroot : Class.rootHash ≠ p.hash := by
    obtain ⟨c, hc, _⟩ := h.root
    rintro heq
    rw [heq, hfree] at hc
    cases hc
  -- All declared classes are registered, so none of them has the free hash.
  have hfresh : ∀ q ∈ ps, q.hash ≠ p.hash := by
    intro q hq heq
    obtain ⟨c, hc, _⟩ := h.registered q hq
    rw [heq, hfree] at hc
    cases hc
  exact
    { known := by
        intro k c hc
        rw [hfind] at hc
        split at hc
        · rename_i hk
          exact .inr ⟨p, List.mem_append_right _ (List.mem_singleton_self p), hk.symm⟩
        · rcases h.known k c hc with hk | ⟨q, hq, hk⟩
          · exact .inl hk
          · exact .inr ⟨q, List.mem_append_left _ hq, hk⟩
      registered := by
        intro q hq
        rcases List.mem_append.mp hq with hq | hq
        · obtain ⟨c, hc, hname⟩ := h.registered q hq
          exact ⟨c, by rw [hfind, if_neg (hfresh q hq), hc], hname⟩
        · rw [List.mem_singleton.mp hq]
          exact ⟨_, by rw [hfind, if_pos rfl], hname⟩
      distinct := by
        rw [List.map_append, List.map_singleton, ← List.cons_append]
        refine List.nodup_append.mpr ⟨h.distinct, by simp, ?_⟩
        intro a ha b hb
        rw [List.mem_singleton.mp hb]
        rcases List.mem_cons.mp ha with rfl | ha
        · exact hroot
        · obtain ⟨q, hq, rfl⟩ := List.mem_map.mp ha
          exact hfresh q hq
      hash_eq := by
        intro k c hc
        rw [hfind] at hc
        split at hc
        · rename_i hk
          injection hc with hc
          rw [← hc, hk, hp]
          rfl
        · exact h.hash_eq k c hc
      rootClass := by
        rw [hfind, if_neg hroot]
        exact h.rootClass
      untabled := by
        intro k c hc
        rw [hfind] at hc
        split at hc
        · injection hc with hc
          subst hc
          exact ⟨rfl, rfl, rfl⟩
        · exact h.untabled k c hc
      slotless := h.slotless
      functionless := h.functionless }

theorem declareItems_declared {path : String} :
    ∀ {items : List Item} {c c' : Compilation} {ps qs : List PendingClass},
      Declared c.registry qs → Yields (declareItems path items) c ps c' →
      Declared c'.registry (qs ++ ps) := by
  intro items
  induction items with
  | nil =>
    intro c c' ps qs hqs h
    simp only [declareItems, yields_pure] at h
    obtain ⟨rfl, rfl⟩ := h
    rw [List.append_nil]
    exact hqs
  | cons item rest ih =>
    intro c c' ps qs hqs h
    cases item with
    | classDecl d =>
      simp only [declareItems, yields_bind, yields_pure] at h
      obtain ⟨p, c₁, hp, more, c₂, hmore, rfl, rfl⟩ := h
      obtain ⟨hpeq, hfree, hreg⟩ := declareClass_effect hp
      have hdecl : Declared c₁.registry (qs ++ [p]) := by
        rw [hreg]
        exact hqs.addClass (by rw [hpeq]) (by rw [hpeq]) hfree
      have := ih hdecl hmore
      rwa [List.append_assoc] at this
    | require name =>
      simp only [declareItems, yields_bind] at h
      obtain ⟨_, c₁, hname, hrest⟩ := h
      exact ih (hname.keeps (f := Compilation.registry) ▸ hqs) hrest
    | _ =>
      simp only [declareItems] at h
      exact ih hqs h

theorem declareModules_declared :
    ∀ {ms : List Module} {c c' : Compilation} {ps qs : List PendingClass},
      Declared c.registry qs → Yields (declareModules ms) c ps c' →
      Declared c'.registry (qs ++ ps) := by
  intro ms
  induction ms with
  | nil =>
    intro c c' ps qs hqs h
    simp only [declareModules, yields_pure] at h
    obtain ⟨rfl, rfl⟩ := h
    rw [List.append_nil]
    exact hqs
  | cons m rest ih =>
    intro c c' ps qs hqs h
    simp only [declareModules, yields_bind, yields_pure] at h
    obtain ⟨ps₁, c₁, hitems, ps₂, c₂, hrest, rfl, rfl⟩ := h
    obtain ⟨c₀, c₁', hbody, hbefore, hafter⟩ := inModule_effect hitems
    have hdecl : Declared c₁.registry (qs ++ ps₁) := by
      rw [hafter]
      exact declareItems_declared (hbefore ▸ hqs) hbody
    have := ih hdecl hrest
    rwa [List.append_assoc] at this

theorem declareItems_pointerSize {path : String} {items : List Item} :
    ∀ {c c' : Compilation} {ps : List PendingClass}, Yields (declareItems path items) c ps c' →
      c'.registry.pointerSize = c.registry.pointerSize := by
  induction items with
  | nil =>
    intro c c' ps h
    rw [(yields_pure.mp h).2]
  | cons item rest ih =>
    intro c c' ps h
    cases item with
    | require name =>
      simp only [declareItems, yields_bind] at h
      obtain ⟨_, c₁, hname, hrest⟩ := h
      have hkept : c₁.registry = c.registry := hname.keeps
      rw [ih hrest, hkept]
    | classDecl d =>
      simp only [declareItems, yields_bind, yields_pure] at h
      obtain ⟨p, c₁, hclass, qs, c₂, hrest, _, rfl⟩ := h
      rw [ih hrest, (declareClass_effect hclass).2.2]
      rfl
    | _ => exact ih h

theorem declareModules_pointerSize {ms : List Module} :
    ∀ {c c' : Compilation} {ps : List PendingClass}, Yields (declareModules ms) c ps c' →
      c'.registry.pointerSize = c.registry.pointerSize := by
  induction ms with
  | nil =>
    intro c c' ps h
    rw [(yields_pure.mp h).2]
  | cons m rest ih =>
    intro c c' ps h
    simp only [declareModules, yields_bind, yields_pure] at h
    obtain ⟨ps₁, c₁, hitems, ps₂, c₂, hrest, _, rfl⟩ := h
    obtain ⟨c₀, c₁', hbody, hbefore, hafter⟩ := inModule_effect hitems
    rw [ih hrest, hafter, declareItems_pointerSize hbody, hbefore]

/-! ## Headers and linearizations -/

/-- A class is one of the declared ones. -/
def Pending (ps : List PendingClass) (h : TypeHash) : Prop := ∃ p ∈ ps, p.hash = h

/-- What filling in the header of a class leaves alone. -/
def lasting (c : Class) :
    TypeHash × List Method × List Rank × List (Nat × Option Nat) × String :=
  (c.hash, c.methods, c.ranks, c.vtable, c.name)

theorem Declared.changes {r r' : Registry} {ps : List PendingClass} (h : Declared r ps)
    (hc : r.Changes (Pending ps) lasting r') : Declared r' ps where
  known k c hk := by
    obtain ⟨c₀, hk₀, _⟩ := hc.exists_class_before hk
    exact h.known k c₀ hk₀
  registered p hp := by
    obtain ⟨c₀, hk₀, hname⟩ := h.registered p hp
    obtain ⟨c, hk, hlast⟩ := hc.exists_class hk₀
    simp only [lasting, Prod.mk.injEq] at hlast
    exact ⟨c, hk, hlast.2.2.2.2.trans hname⟩
  distinct := h.distinct
  hash_eq k c hk := by
    obtain ⟨c₀, hk₀, hlast⟩ := hc.exists_class_before hk
    rw [← h.hash_eq k c₀ hk₀]
    exact (congrArg Prod.fst hlast).symm
  rootClass := by
    rw [hc.outside, hc.pointerSize]
    · exact h.rootClass
    · rintro ⟨p, hp, heq⟩
      exact h.root_not_mem hp heq
  untabled k c hk := by
    obtain ⟨c₀, hk₀, hlast⟩ := hc.exists_class_before hk
    have hempty := h.untabled k c₀ hk₀
    simp only [lasting, Prod.mk.injEq] at hlast
    rw [← hlast.2.1, ← hlast.2.2.1, ← hlast.2.2.2.1]
    exact hempty
  slotless := hc.nextSlot.trans h.slotless
  functionless := hc.functions.trans h.functionless

/-- A step for each of the given classes that changes no more than that class. -/
theorem forM_changes {π : Class → β} {f : PendingClass → CompileM Unit}
    {ps : List PendingClass}
    (hf : ∀ p ∈ ps, ∀ c u c', Yields (f p) c u c' →
      c.registry.Changes (Pending ps) π c'.registry)
    {c c' : Compilation} {u : Unit} (h : Yields (ps.forM f) c u c') :
    c.registry.Changes (Pending ps) π c'.registry :=
  forM_induction (fun k => c.registry.Changes (Pending ps) π k.registry)
    (fun p hp k v k' hk hstep => hk.trans (hf p hp k v k' hstep))
    (Registry.Changes.refl ..) h

theorem resolveHeaders_changes {ps : List PendingClass} {c c' : Compilation} {u : Unit}
    (h : Yields (resolveHeaders ps) c u c') :
    c.registry.Changes (Pending ps) (fun k => { k with templates := [], bases := [] })
      c'.registry := by
  simp only [resolveHeaders, yields_bind, yields_modify, yields_attempt, yields_conclude,
    exists_eq_left] at h
  obtain ⟨_, result, c₁, hrun, _, hresult, rfl⟩ := h
  have hrun := yields_of_attempt hrun hresult
  simp only [yields_bind] at hrun
  obtain ⟨_, c₂, htemplates, hbases⟩ := hrun
  have h₁ := forM_changes
    (π := fun k : Class => { k with templates := [], bases := [] }) (fun p hp k _ k' hstep => by
      obtain ⟨ts, _, hts⟩ := resolveTemplates_effect hstep
      rw [hts]
      exact .modifyClass ⟨p, hp, rfl⟩ fun _ => rfl) htemplates
  have h₂ := forM_changes
    (π := fun k : Class => { k with templates := [], bases := [] }) (fun p hp k _ k' hstep => by
      obtain ⟨bases, _, hb⟩ := resolveBases_effect hstep
      rw [hb]
      exact .modifyClass ⟨p, hp, rfl⟩ fun _ => rfl) hbases
  exact h₁.trans h₂

/-- The bases of a class are class types, written with or without arguments. Every class but
the root has some. -/
theorem resolveHeaders_bases {ps : List PendingClass} {c c' : Compilation} {u : Unit}
    (hd : Declared c.registry ps) (h : Yields (resolveHeaders ps) c u c') {k : TypeHash}
    {d : Class} (hk : c'.registry.class? k = some d) :
    (∀ t ∈ d.bases, t.isClass = true) ∧ (k = Class.rootHash ∨ d.bases ≠ []) := by
  have hd' := hd.changes ((resolveHeaders_changes h).coarsen lasting fun _ => rfl)
  rcases hd'.known k d hk with rfl | ⟨p, hp, rfl⟩
  · obtain ⟨root, hroot, _, hnone⟩ := hd'.root
    rw [hk] at hroot
    injection hroot with hroot
    rw [hroot, hnone]
    exact ⟨List.forall_mem_nil _, .inl rfl⟩
  · simp only [resolveHeaders, yields_bind, yields_modify, yields_attempt, yields_conclude,
      exists_eq_left] at h
    obtain ⟨_, result, c₁, hrun, _, hresult, rfl⟩ := h
    have hrun := yields_of_attempt hrun hresult
    simp only [yields_bind] at hrun
    obtain ⟨_, c₂, _, hbases⟩ := hrun
    obtain ⟨before, after, rfl⟩ := List.append_of_mem hp
    rw [yields_forM_append] at hbases
    obtain ⟨_, c₃, _, hbases⟩ := hbases
    rw [yields_forM_cons] at hbases
    obtain ⟨_, c₄, hstep, hafter⟩ := hbases
    obtain ⟨bases, ⟨hclasses, hsome⟩, hset⟩ := resolveBases_effect hstep
    -- No class is resolved twice, so the bases stay what they are.
    have hlast : ¬Pending after p.hash := by
      rintro ⟨q, hq, heq⟩
      have hdistinct := (List.nodup_cons.mp hd.distinct).2
      rw [List.map_append, List.map_cons] at hdistinct
      exact (List.nodup_cons.mp (List.nodup_append.mp hdistinct).2.1).1
        (heq ▸ List.mem_map_of_mem hq)
    have hchanges := forM_changes (π := fun k : Class => { k with bases := [] })
      (fun q hq k _ k' hstep => by
        obtain ⟨bases, _, hb⟩ := resolveBases_effect hstep
        rw [hb]
        exact .modifyClass ⟨q, hq, rfl⟩ fun _ => rfl) hafter
    have hk : c₁.registry.class? p.hash = some d := hk
    rw [hchanges.outside _ hlast, hset, Registry.class?_modifyClass, if_pos rfl,
      Option.map_eq_some_iff] at hk
    obtain ⟨d₀, _, rfl⟩ := hk
    exact ⟨hclasses, .inr hsome⟩

/-- The classes of the direct bases, in order. -/
def baseHashes (c : Class) : List TypeHash := c.bases.filterMap (·.classHash?)

/-- The table of bases has the bases of the given classes, and otherwise what it had. -/
theorem directBases_from {r : Registry} {ps : List PendingClass} :
    ∀ {t t' : Linearization.Bases},
      ps.foldlM (fun bases p => do
        let c ← r.getClass p.hash
        return bases.insert p.hash (baseHashes c)) t = .ok t' →
      ∀ k, (∃ c, r.class? k = some c ∧ t'.find? k = some (baseHashes c)) ∨
        (¬Pending ps k ∧ t'.find? k = t.find? k) := by
  induction ps with
  | nil =>
    intro t t' h k
    injection h with h
    subst h
    refine .inr ⟨?_, rfl⟩
    rintro ⟨p, hp, _⟩
    exact absurd hp List.not_mem_nil
  | cons p ps ih =>
    intro t t' h k
    simp only [List.foldlM_cons, except_bind_eq_ok, except_pure_eq_ok, Registry.getClass_eq_ok] at h
    obtain ⟨_, ⟨c, hc, rfl⟩, hrest⟩ := h
    rcases ih hrest k with hin | ⟨hout, hsame⟩
    · exact .inl hin
    -- Later insertions win, so those for the rest of the classes are looked at first.
    · by_cases hk : p.hash = k
      · subst hk
        rw [Table.find?_insert_self] at hsame
        exact .inl ⟨c, hc, hsame⟩
      · rw [Table.find?_insert_of_ne _ hk] at hsame
        refine .inr ⟨?_, hsame⟩
        rintro ⟨q, hq, heq⟩
        rcases List.mem_cons.mp hq with rfl | hq
        · exact hk heq
        · exact hout ⟨q, hq, heq⟩

/-- The direct bases of a registered class, according to the table. -/
theorem directBases_eq {r : Registry} {ps : List PendingClass} (hd : Declared r ps)
    {t : Linearization.Bases} (h : directBases r ps = .ok t) {k : TypeHash} {c : Class}
    (hc : r.class? k = some c) : Linearization.directBases t k = baseHashes c := by
  unfold Linearization.directBases
  rcases directBases_from (t := .empty) h k with ⟨c', hc', hfind⟩ | ⟨hout, hfind⟩
  · rw [hc] at hc'
    injection hc' with hc'
    rw [hfind, hc', Option.getD_some]
  · -- A class that is not pending is the root, which has no bases.
    rcases hd.known k c hc with rfl | hp
    · obtain ⟨c', hc', _, hbases⟩ := hd.root
      rw [hc] at hc'
      injection hc' with hc'
      rw [hfind, baseHashes, hc', hbases]
      rfl
    · exact absurd hp hout

/-- Linearizing classes in order records for each of them what the memo remembers. -/
theorem linearizeFrom_effect {bases : Linearization.Bases} {ps : List PendingClass} :
    ∀ {memo : Linearization.Memo} {c c' : Compilation} {u : Unit},
      Yields (linearizeFrom bases ps memo) c u c' →
      c.registry.Changes (Pending ps) (fun k => { k with mro := [] }) c'.registry ∧
      ∃ memo', Linearization.Grows bases [] memo memo' ∧
        ∀ k, Pending ps k → ∀ d, c'.registry.class? k = some d →
          memo'.find? k = some d.mro := by
  induction ps with
  | nil =>
    intro memo c c' u h
    simp only [linearizeFrom, yields_pure] at h
    obtain ⟨_, rfl⟩ := h
    refine ⟨Registry.Changes.refl .., memo, Linearization.Grows.refl .., ?_⟩
    rintro k ⟨p, hp, _⟩
    exact absurd hp List.not_mem_nil
  | cons p ps ih =>
    intro memo c c' u h
    obtain ⟨hgrows, hknown⟩ := Linearization.linearize_spec bases p.hash memo
    unfold linearizeFrom at h
    rcases hp : Linearization.linearize bases p.hash memo with ⟨e | mro, memo₁⟩
    · rw [hp] at h
      simp only [yields_bind, yields_fromRegistry] at h
      obtain ⟨_, _, _, hfail⟩ := h
      obtain ⟨_, _, hfail, _⟩ := inModule_effect hfail
      simp at hfail
    · rw [hp] at h hgrows hknown
      simp only [yields_bind, yields_modifyClass, and_assoc, exists_and_left, exists_eq_left] at h
      obtain ⟨_, _, hrest⟩ := h
      obtain ⟨hchanges, memo', hgrows', hmemo⟩ := ih hrest
      have hset : c.registry.Changes (Pending (p :: ps)) (fun k => { k with mro := [] })
          (c.registry.modifyClass p.hash fun k => { k with mro := mro }) :=
        .modifyClass ⟨p, by simp, rfl⟩ fun _ => rfl
      refine ⟨hset.trans (hchanges.widen ?_), memo', hgrows.trans hgrows', ?_⟩
      · rintro k ⟨q, hq, heq⟩
        exact ⟨q, List.mem_cons_of_mem _ hq, heq⟩
      intro k hk d hd
      -- A class among the rest is recorded later; else this is the last time, and the memo keeps
      -- it.
      by_cases hlater : Pending ps k
      · exact hmemo k hlater d hd
      · obtain ⟨q, hq, rfl⟩ := hk
        rcases List.mem_cons.mp hq with rfl | hq
        · rw [hchanges.outside _ hlater] at hd
          have hd := hd
          rw [Registry.class?_modifyClass, if_pos rfl, Option.map_eq_some_iff] at hd
          obtain ⟨d₀, _, rfl⟩ := hd
          exact hgrows'.keeps _ _ (hknown mro rfl)
        · exact absurd ⟨q, hq, rfl⟩ hlater

/-- The linearization of a class is what it adds to those of its bases, as far as these are
registered. -/
def Linearized (r : Registry) (c : Class) : Prop :=
  ∃ mros, List.Forall₂ (fun b mro => ∀ k, r.class? b = some k → k.mro = mro) (baseHashes c)
      mros ∧
    Linearization.extend c.hash (baseHashes c) mros = .ok c.mro

theorem linearizeAll_linearized {ps : List PendingClass} {c c' : Compilation} {u : Unit}
    (hd : Declared c.registry ps) (h : Yields (linearizeAll ps) c u c') :
    c.registry.Changes (Pending ps) (fun k => { k with mro := [] }) c'.registry ∧
      ∀ k d, c'.registry.class? k = some d → Linearized c'.registry d := by
  simp only [linearizeAll, yields_bind, yields_askRegistry] at h
  obtain ⟨bases, c₀, ⟨hbases, rfl⟩, h⟩ := h
  obtain ⟨hchanges, memo, hgrows, hmemo⟩ := linearizeFrom_effect h
  have hcons := hgrows.consistent (Linearization.consistent_empty bases)
  have hd' : Declared c'.registry ps := hd.changes (hchanges.coarsen lasting fun _ => rfl)
  have hdirect : ∀ k d, c'.registry.class? k = some d →
      Linearization.directBases bases k = baseHashes d := by
    intro k d hk
    obtain ⟨d₀, hk₀, heq⟩ := hchanges.exists_class_before hk
    rw [directBases_eq hd hbases hk₀]
    exact (congrArg baseHashes heq :)
  -- What the memo knows about a registered class is what is recorded in it.
  have hrecorded : ∀ k d mro, c'.registry.class? k = some d → memo.find? k = some mro →
      d.mro = mro := by
    intro k d mro hk hm
    rcases hd'.known k d hk with rfl | hp
    · obtain ⟨root, hroot, hmro, hnone⟩ := hd'.root
      rw [hk] at hroot
      injection hroot with hroot
      subst hroot
      obtain ⟨mros, hknows, hext⟩ := hcons _ _ hm
      rw [hdirect _ _ hk, baseHashes, hnone] at hext
      injection hext with hext
      rw [hmro, hext]
    · have := hmemo k hp d hk
      rw [hm] at this
      injection this with this
      exact this.symm
  refine ⟨hchanges, ?_⟩
  intro k d hk
  have hhash := hd'.hash_eq k d hk
  rcases hd'.known k d hk with rfl | hp
  · obtain ⟨root, hroot, hmro, hnone⟩ := hd'.root
    rw [hk] at hroot
    injection hroot with hroot
    subst hroot
    refine ⟨[], ?_, ?_⟩
    · rw [baseHashes, hnone]
      exact List.Forall₂.nil
    · rw [baseHashes, hnone, hhash, hmro]
      rfl
  · obtain ⟨mros, hknows, hext⟩ := hcons _ _ (hmemo k hp d hk)
    rw [hdirect _ _ hk] at hknows hext
    refine ⟨mros, List.Forall₂.imp ?_ hknows, hhash ▸ hext⟩
    intro b mro hb k' hk'
    exact hrecorded b k' mro hk' hb

/-- Where a class stands in the hierarchy. -/
def standing (c : Class) : TypeHash × List Ty × List TypeHash := (c.hash, c.bases, c.mro)

/-- A linearization depends on nothing but where classes stand. -/
theorem Linearized.congr {r r' : Registry}
    (hr : ∀ k, (r'.class? k).map standing = (r.class? k).map standing) {c c' : Class}
    (hc : standing c' = standing c) (h : Linearized r c) : Linearized r' c' := by
  obtain ⟨mros, hmros, hext⟩ := h
  simp only [standing, Prod.mk.injEq] at hc
  obtain ⟨hhash, hbases, hmro⟩ := hc
  have hdirect : baseHashes c' = baseHashes c := congrArg (List.filterMap _) hbases
  refine ⟨mros, ?_, by rw [hhash, hdirect, hmro, hext]⟩
  rw [hdirect]
  refine List.Forall₂.imp ?_ hmros
  intro b mro hb k' hk'
  have hk := hr b
  rw [hk', Option.map_some, eq_comm, Option.map_eq_some_iff] at hk
  obtain ⟨k, hk, heq⟩ := hk
  rw [← hb k hk]
  exact (congrArg (·.2.2) heq).symm

/-! ## The order of ancestry -/

theorem insertByAncestry_perm (r : Registry) (p : PendingClass) (ps : List PendingClass) :
    (insertByAncestry r p ps).Perm (p :: ps) := by
  induction ps with
  | nil => exact .refl _
  | cons q ps ih =>
    unfold insertByAncestry
    split
    · exact .refl _
    · exact (ih.cons q).trans (.swap p q ps)

theorem byAncestry_perm (r : Registry) (ps : List PendingClass) :
    (byAncestry r ps).Perm ps := by
  induction ps with
  | nil => exact .refl _
  | cons p ps ih => exact (insertByAncestry_perm r p _).trans (ih.cons p)

theorem insertByAncestry_sorted {r : Registry} {p : PendingClass} {ps : List PendingClass}
    (h : ps.Pairwise (ancestry r · ≤ ancestry r ·)) :
    (insertByAncestry r p ps).Pairwise (ancestry r · ≤ ancestry r ·) := by
  induction ps with
  | nil => exact List.pairwise_singleton ..
  | cons q ps ih =>
    obtain ⟨hq, hps⟩ := List.pairwise_cons.mp h
    unfold insertByAncestry
    split
    · rename_i hle
      refine List.pairwise_cons.mpr ⟨?_, h⟩
      intro a ha
      rcases List.mem_cons.mp ha with rfl | ha
      · exact hle
      · exact Nat.le_trans hle (hq a ha)
    · rename_i hlt
      refine List.pairwise_cons.mpr ⟨?_, ih hps⟩
      intro a ha
      rcases List.mem_cons.mp ((insertByAncestry_perm r p ps).mem_iff.mp ha) with rfl | ha
      · omega
      · exact hq a ha

theorem byAncestry_sorted (r : Registry) (ps : List PendingClass) :
    (byAncestry r ps).Pairwise (ancestry r · ≤ ancestry r ·) := by
  induction ps with
  | nil => exact .nil
  | cons p ps ih => exact insertByAncestry_sorted ih

/-! ## The finished hierarchy -/

/-- Every class is registered under its own hash, behind its bases. -/
structure Hierarchy (r : Registry) : Prop where
  hash_eq : ∀ {h c}, r.class? h = some c → c.hash = h
  bases : ∀ {h c}, r.class? h = some c → ∀ b ∈ baseHashes c, ∃ k, r.class? b = some k
  linearized : ∀ {h c}, r.class? h = some c → Linearized r c

/-- What is known about a class before it is laid out. -/
def header (c : Class) : Class :=
  { c with fields := [], length := 0, methods := [], ranks := [], vtable := [] }

/-- The classes of both registries have the same headers. -/
def SameHeaders (r r' : Registry) : Prop :=
  ∀ h, (r'.class? h).map header = (r.class? h).map header

theorem SameHeaders.symm {r r' : Registry} (h : SameHeaders r r') : SameHeaders r' r :=
  fun k => (h k).symm

theorem SameHeaders.trans {r r₁ r₂ : Registry} (h₁ : SameHeaders r r₁)
    (h₂ : SameHeaders r₁ r₂) : SameHeaders r r₂ := fun k => (h₂ k).trans (h₁ k)

theorem SameHeaders.exists_class {r r' : Registry} (h : SameHeaders r r') {k : TypeHash}
    {c : Class} (hc : r.class? k = some c) :
    ∃ c', r'.class? k = some c' ∧ header c' = header c := by
  have hk := h k
  rw [hc, Option.map_some, Option.map_eq_some_iff] at hk
  exact hk

theorem registered_of_inheritedArgs {r : Registry} {ts : List Ty} :
    ∀ {known args : Table TypeHash (List Ty)}, inheritedArgs r ts known = .ok args →
      ∀ b ∈ ts.filterMap (·.classHash?), ∃ k, r.class? b = some k := by
  induction ts with
  | nil =>
    intro _ _ _ b hb
    exact absurd hb List.not_mem_nil
  | cons t ts ih =>
    intro known args h b hb
    unfold inheritedArgs at h
    split at h
    · rename_i hnone
      rw [List.filterMap_cons_none hnone] at hb
      exact ih h b hb
    · rename_i hash hsome
      simp only [except_bind_eq_ok, Registry.getClass_eq_ok] at h
      obtain ⟨base, hbase, hrest⟩ := h
      rw [List.filterMap_cons_some hsome] at hb
      rcases List.mem_cons.mp hb with rfl | hb
      · exact ⟨base, hbase⟩
      · exact ih hrest b hb

/-- Finding the inherited arguments of some classes changes nothing but these arguments. -/
theorem inheritAll_changes {qs : List PendingClass} {c c' : Compilation} {u : Unit}
    (h : Yields (qs.forM inheritArgs) c u c') :
    c.registry.Changes (Pending qs) (fun k => { k with inherited := .empty }) c'.registry := by
  refine forM_changes (π := fun k : Class => { k with inherited := .empty })
    (fun p hp k _ k' hstep => ?_) h
  obtain ⟨_, args, _, _, hset⟩ := inheritArgs_effect hstep
  rw [hset]
  exact .modifyClass ⟨p, hp, rfl⟩ fun _ => rfl

/-- When the arguments that a class inherits were found, its bases were registered. -/
theorem registered_bases_of_inheritAll {qs : List PendingClass} {c c' : Compilation} {u : Unit}
    (h : Yields (qs.forM inheritArgs) c u c') {p : PendingClass} (hp : p ∈ qs) {d : Class}
    (hk : c'.registry.class? p.hash = some d) :
    ∀ b ∈ baseHashes d, ∃ e, c'.registry.class? b = some e := by
  obtain ⟨before, after, rfl⟩ := List.append_of_mem hp
  rw [yields_forM_append] at h
  obtain ⟨_, c₁, _, h⟩ := h
  rw [yields_forM_cons] at h
  obtain ⟨_, c₂, hstep, hafter⟩ := h
  obtain ⟨d₁, args, hd₁, hargs, hset⟩ := inheritArgs_effect hstep
  have hstep : c₁.registry.Changes (fun _ => True) (fun k => { k with inherited := .empty })
      c₂.registry := by
    rw [hset]
    exact .modifyClass trivial fun _ => rfl
  -- From then on the class keeps its bases, and these stay registered.
  have hlast := hstep.trans ((inheritAll_changes hafter).widen fun _ _ => trivial)
  obtain ⟨d', hd', heq⟩ := hlast.exists_class hd₁
  rw [hk] at hd'
  injection hd' with hd'
  subst hd'
  have hbases := congrArg Class.bases heq
  dsimp only at hbases
  intro b hb
  rw [baseHashes, hbases] at hb
  obtain ⟨e, he⟩ := registered_of_inheritedArgs hargs b hb
  obtain ⟨e', he', _⟩ := hlast.exists_class he
  exact ⟨e', he'⟩

/-- Inherited arguments are found only for classes whose bases are registered. -/
theorem inheritAll_hierarchy {ps ordered : List PendingClass} {c c' : Compilation} {u : Unit}
    (hd : Declared c.registry ps) (hperm : ordered.Perm ps)
    (hl : ∀ k d, c.registry.class? k = some d → Linearized c.registry d)
    (h : Yields (ordered.forM inheritArgs) c u c') :
    c.registry.Changes (Pending ps) (fun k => { k with inherited := .empty }) c'.registry ∧
      Hierarchy c'.registry := by
  have hchanges : c.registry.Changes (Pending ps) (fun k => { k with inherited := .empty })
      c'.registry := by
    refine (inheritAll_changes h).widen ?_
    rintro a ⟨q, hq, heq⟩
    exact ⟨q, hperm.mem_iff.mp hq, heq⟩
  have hd' : Declared c'.registry ps := hd.changes (hchanges.coarsen lasting fun _ => rfl)
  refine ⟨hchanges, fun {k d} hk => hd'.hash_eq k d hk, ?_, ?_⟩
  · intro k d hk b hb
    rcases hd'.known k d hk with rfl | ⟨p, hp, rfl⟩
    · obtain ⟨root, hroot, _, hnone⟩ := hd'.root
      rw [hk] at hroot
      injection hroot with hroot
      subst hroot
      rw [baseHashes, hnone] at hb
      exact absurd hb List.not_mem_nil
    · exact registered_bases_of_inheritAll h (hperm.mem_iff.mpr hp) hk b hb
  · intro k d hk
    obtain ⟨d₀, hk₀, heq⟩ := hchanges.exists_class_before hk
    have hstand := hchanges.coarsen standing (φ := standing) fun _ => rfl
    have heq : standing d = standing d₀ := (congrArg standing heq).symm
    exact (hl k d₀ hk₀).congr hstand.shown heq

end Registration

end ClassLang
