import ClassLang.Proofs.Class.Bindings
import ClassLang.Proofs.Class.Layout
import Mathlib.Data.List.Perm.Subperm

/-!
# The layouts of an accepted program

Classes are laid out in a depth-first walk: a class after its bases and after the classes that it
holds by value. The walk carries an invariant: the classes that are laid out have sound layouts
that mention only classes that are laid out too, and since no class is laid out twice, that stays
so. A class that waits for others is not laid out meanwhile, and a chain of waiting classes has no
repetition; so the bound of the walk is never reached, and in the end every class is laid out.

From a class to its bases, and from these to theirs, every field keeps its name, its place and its
length. So an object can be used as one of any ancestor.
-/

namespace ClassLang

open CompileM

namespace Registration

/-! ## Plans -/

/-- A field can be stored: it is not of a template parameter's type, and if it holds an object, its
class is registered. -/
def Storable (r : Registry) (d : OwnField) : Prop :=
  d.type.isParam = false ∧ ∀ k, d.type.storage = .object k → ∃ c, r.class? k = some c

theorem Storable.congr {r r' : Registry} (hr : SameHeaders r r') {d : OwnField}
    (h : Storable r d) : Storable r' d := by
  refine ⟨h.1, fun k hk => ?_⟩
  obtain ⟨c, hc⟩ := h.2 k hk
  obtain ⟨c', hc', _⟩ := hr.exists_class hc
  exact ⟨c', hc'⟩

/-- What each of several steps that keep the registry says about its outcome. -/
theorem yields_mapM_registry {α β : Type} {f : α → CompileM β} {P : Registry → β → Prop}
    {xs : List α} [∀ x, Keeps Compilation.registry (f x)]
    (hf : ∀ x ∈ xs, ∀ c b c', Yields (f x) c b c' → P c.registry b) {c c' : Compilation}
    {bs : List β} (h : Yields (xs.mapM f) c bs c') : ∀ b ∈ bs, P c.registry b := by
  refine (mapM_induction (·.registry = c.registry) (fun x hx c₁ b c₂ hkept hb => ?_) rfl h).2
  exact ⟨hb.keeps.trans hkept, hkept ▸ hf x hx c₁ b c₂ hb⟩

theorem requireStorable_registered {t : Ty} {name : String} {span : Span} {c c' : Compilation}
    {u : Unit} (h : Yields (requireStorable t name span) c u c') :
    ∀ k, t.storage = .object k → ∃ d, c.registry.class? k = some d := by
  have hclass : ∀ k, t.isClass = true → t.classHash? = some k →
      Yields (Lowering.requireConcrete t span) c u c' → ∃ d, c.registry.class? k = some d := by
    intro k ht hk h
    simp only [Lowering.requireConcrete, if_pos ht, hk, yields_bind, yields_askRegistry,
      Registry.getClass_eq_ok] at h
    obtain ⟨d, _, ⟨hd, _⟩, _⟩ := h
    exact ⟨d, hd⟩
  intro k hk
  cases t with
  | classRef b =>
    injection hk with hk
    exact hclass k rfl (congrArg some hk) h
  | applied b as =>
    injection hk with hk
    exact hclass k rfl (congrArg some hk) h
  | param n b => simp [requireStorable] at h
  | _ => cases hk

theorem resolveField_storable {f : FieldDecl} {c c' : Compilation} {d : OwnField}
    (h : Yields (resolveField f) c d c') : Storable c.registry d := by
  simp only [resolveField, yields_bind, yields_pure] at h
  obtain ⟨t, c₁, htype, _, _, hstorable, rfl, _⟩ := h
  have hkept : c₁.registry = c.registry := htype.keeps
  rw [← hkept]
  exact ⟨requireStorable_isParam hstorable, requireStorable_registered hstorable⟩

theorem layoutPlan_spec {p : PendingClass} {c c' : Compilation} {plan : LayoutPlan}
    (h : Yields (layoutPlan p) c plan c') :
    plan.pending = p ∧ ∀ d ∈ plan.fields, Storable c.registry d := by
  simp only [layoutPlan, yields_bind, yields_pure] at h
  obtain ⟨fields, c₁, hfields, rfl, _⟩ := h
  obtain ⟨c₀, _, hbody, hbefore, _⟩ := inModule_effect hfields
  unfold Lowering.inClass at hbody
  obtain ⟨_, _, hbody, _⟩ := yields_inScope hbody
  obtain ⟨_, c₂, htemplates, hmap⟩ := yields_bind.mp hbody
  have hkept : c₂.registry = c₀.registry :=
    htemplates.keeps (f := Compilation.registry)
  refine ⟨rfl, ?_⟩
  rw [← hbefore, ← hkept]
  exact yields_mapM_registry (fun _ _ _ _ _ => resolveField_storable) hmap

/-- Every pending class has a plan, and every plan can be carried out; the types in it are those
that the class `wrote`. -/
structure Planned (r : Registry) (wrote : TypeHash → Ty → Prop) (ps : List PendingClass)
    (plans : Table TypeHash LayoutPlan) : Prop where
  total : ∀ p ∈ ps, ∃ plan, plans.find? p.hash = some plan
  spec : ∀ h plan, plans.find? h = some plan →
    plan.pending ∈ ps ∧ plan.pending.hash = h ∧ ∀ d ∈ plan.fields, wrote h d.type ∧ Storable r d

/-- What is in a table to which plans were added, each under its own class. -/
theorem find?_foldl_plans (plans : List LayoutPlan) :
    ∀ t : Table TypeHash LayoutPlan,
      (∀ h plan, (plans.foldl (fun t plan => t.insert plan.pending.hash plan) t).find? h =
        some plan → (plan ∈ plans ∧ plan.pending.hash = h) ∨ t.find? h = some plan) ∧
      ∀ h, (∃ plan ∈ plans, plan.pending.hash = h) ∨ (∃ plan, t.find? h = some plan) →
        ∃ plan, (plans.foldl (fun t plan => t.insert plan.pending.hash plan) t).find? h =
          some plan := by
  induction plans with
  | nil =>
    intro t
    refine ⟨fun h plan hfind => .inr hfind, ?_⟩
    rintro h (⟨plan, hplan, _⟩ | hfound)
    · exact absurd hplan List.not_mem_nil
    · exact hfound
  | cons q plans ih =>
    intro t
    obtain ⟨hsound, htotal⟩ := ih (t.insert q.pending.hash q)
    constructor
    · intro h plan hfind
      rcases hsound h plan hfind with ⟨hmem, hhash⟩ | hfound
      · exact .inl ⟨List.mem_cons_of_mem _ hmem, hhash⟩
      -- What is found was inserted later, here, or before.
      · by_cases hq : q.pending.hash = h
        · rw [hq, Table.find?_insert_self] at hfound
          injection hfound with hfound
          exact .inl ⟨hfound ▸ List.mem_cons_self .., hfound ▸ hq⟩
        · rw [Table.find?_insert_of_ne _ hq] at hfound
          exact .inr hfound
    · intro h hknown
      refine htotal h ?_
      by_cases hq : q.pending.hash = h
      · exact .inr ⟨q, by rw [hq, Table.find?_insert_self]⟩
      · rw [Table.find?_insert_of_ne _ hq]
        rcases hknown with ⟨plan, hplan, hhash⟩ | hfound
        · rcases List.mem_cons.mp hplan with rfl | hplan
          · exact absurd hhash hq
          · exact .inl ⟨plan, hplan, hhash⟩
        · exact .inr hfound

/-- There is one plan for each class, in order. -/
theorem map_pending_of_mapM {ps : List PendingClass} {c c' : Compilation} {plans : List LayoutPlan}
    (h : Yields (ps.mapM layoutPlan) c plans c') : plans.map (·.pending) = ps :=
  (yields_mapM_map (fun hp => (layoutPlan_spec hp).1) h).trans (List.map_id _)

theorem planned_of_mapM {wrote : TypeHash → Ty → Prop} {ps : List PendingClass}
    {c c' : Compilation} {plans : List LayoutPlan} (h : Yields (ps.mapM layoutPlan) c plans c')
    (hwrote : ∀ plan ∈ plans, ∀ d ∈ plan.fields, wrote plan.pending.hash d.type) :
    Planned c.registry wrote ps
      (plans.foldl (fun t plan => t.insert plan.pending.hash plan) .empty) := by
  have hstorable := yields_mapM_registry (P := fun r plan => ∀ d ∈ plan.fields, Storable r d)
    (fun _ _ _ _ _ h => (layoutPlan_spec h).2) h
  have hpending := map_pending_of_mapM h
  obtain ⟨hsound, htotal⟩ := find?_foldl_plans plans .empty
  refine ⟨?_, ?_⟩
  · intro p hp
    rw [← hpending] at hp
    obtain ⟨plan, hplan, rfl⟩ := List.mem_map.mp hp
    exact htotal _ (.inl ⟨plan, hplan, rfl⟩)
  · intro h plan hfind
    rcases hsound h plan hfind with ⟨hplan, hhash⟩ | hnone
    · exact ⟨hpending ▸ List.mem_map_of_mem hplan, hhash, fun d hd =>
        ⟨hhash ▸ hwrote plan hplan d hd, hstorable plan hplan d hd⟩⟩
    · cases hnone

/-! ## The walk -/

/-- A class whose layout is final: the root, or one that is laid out. -/
def Settled (done : List TypeHash) (h : TypeHash) : Prop := h = Class.rootHash ∨ h ∈ done

theorem Settled.mono {done done' : List TypeHash} (hgrows : ∀ h ∈ done, h ∈ done') {h : TypeHash}
    (hh : Settled done h) : Settled done' h := hh.imp_right (hgrows h)

/-- The hierarchy in which classes are laid out. -/
structure Site (r : Registry) (wrote : TypeHash → Ty → Prop) (ps : List PendingClass)
    (plans : Table TypeHash LayoutPlan) : Prop where
  hierarchy : Hierarchy r
  known : ∀ h c, r.class? h = some c → h = Class.rootHash ∨ Pending ps h
  root : ∀ p ∈ ps, p.hash ≠ Class.rootHash
  bases : ∀ h c, r.class? h = some c →
    (∀ t ∈ c.bases, t.isClass = true) ∧ (h = Class.rootHash ∨ c.bases ≠ [])
  planned : Planned r wrote ps plans

theorem Site.congr {r r' : Registry} {wrote : TypeHash → Ty → Prop} {ps : List PendingClass}
    {plans : Table TypeHash LayoutPlan} (h : Site r wrote ps plans) (hsame : SameHeaders r r') :
    Site r' wrote ps plans where
  hierarchy := h.hierarchy.congr hsame
  known k c' hc' := by
    obtain ⟨c, hc, _⟩ := hsame.symm.exists_class hc'
    exact h.known k c hc
  root := h.root
  bases k c' hc' := by
    obtain ⟨c, hc, heq⟩ := hsame.symm.exists_class hc'
    have hbases := congrArg Class.bases heq
    dsimp only [header] at hbases
    rw [← hbases]
    exact h.bases k c hc
  planned :=
    ⟨h.planned.total, fun k plan hfind => (h.planned.spec k plan hfind).imp_right
      (And.imp_right fun hall d hd => (hall d hd).imp_right (Storable.congr hsame))⟩

/-- A class that is registered is settled if it is done or nothing is planned for it. -/
theorem Site.settled {r : Registry} {wrote : TypeHash → Ty → Prop} {ps : List PendingClass}
    {plans : Table TypeHash LayoutPlan} (h : Site r wrote ps plans) {done : List TypeHash}
    {k : TypeHash} {c : Class}
    (hc : r.class? k = some c) (hk : k ∈ done ∨ plans.find? k = none) : Settled done k := by
  rcases hk with hk | hnone
  · exact .inr hk
  · rcases h.known k c hc with hroot | ⟨p, hp, rfl⟩
    · exact .inl hroot
    · obtain ⟨plan, hplan⟩ := h.planned.total p hp
      rw [hnone] at hplan
      cases hplan

/-- The invariant of the walk. -/
structure Laying (r₀ : Registry) (wrote : TypeHash → Ty → Prop) (r : Registry)
    (done : List TypeHash) : Prop where
  headers : SameHeaders r₀ r
  pointerSize : r.pointerSize = r₀.pointerSize
  laid : ∀ h c, Settled done h → r.class? h = some c → LaidOut r wrote (Settled done) c

/-- Laying out a class whose bases and whose fields' classes are settled, and which is not. -/
theorem Laying.step {r₀ r : Registry} {wrote : TypeHash → Ty → Prop} {ps : List PendingClass}
    {plans : Table TypeHash LayoutPlan} {done : List TypeHash} {plan : LayoutPlan} {k : Class}
    {fields : List Field} {length : Nat} (h : Laying r₀ wrote r done)
    (hsite : Site r₀ wrote ps plans)
    (hplan : plans.find? plan.pending.hash = some plan)
    (hnew : ¬Settled done plan.pending.hash)
    (hk : r.class? plan.pending.hash = some k)
    (hdeps : ∀ d ∈ layoutDependencies k plan.fields, d ∈ done ∨ plans.find? d = none)
    (hlayout : Layout.layOut r k plan.fields = .ok (fields, length)) :
    Laying r₀ wrote (r.modifyClass plan.pending.hash
      fun k => { k with fields := fields, length := length }) (plan.pending.hash :: done) := by
  have hsite := hsite.congr h.headers
  have hgrows : ∀ h, Settled done h → Settled (plan.pending.hash :: done) h :=
    fun h => Settled.mono fun _ => List.mem_cons_of_mem _
  have hother : ∀ h, Settled done h → (r.modifyClass plan.pending.hash
      fun k => { k with fields := fields, length := length }).class? h = r.class? h := by
    intro h hh
    rw [Registry.class?_modifyClass, if_neg]
    rintro rfl
    exact hnew hh
  obtain ⟨hclasses, hsome⟩ := hsite.bases _ k hk
  have hsettled : ∀ d ∈ layoutDependencies k plan.fields, ∀ c, r.class? d = some c →
      Settled done d := fun d hd c hc => hsite.settled hc (hdeps d hd)
  -- The class itself gets a sound layout, in terms of what was settled before.
  have hself : LaidOut r wrote (Settled done) { k with fields := fields, length := length } := by
    refine Layout.layOut_laidOut hlayout (hsite.hierarchy.primary_eq hk) ?_ hclasses ?_ ?_
    · exact hsome.resolve_left fun hroot => hnew (.inl hroot)
    · intro b hb
      obtain ⟨base, hbase⟩ := hsite.hierarchy.bases hk b hb
      have hb := hsettled b (List.mem_append_left _ hb) base hbase
      exact ⟨hb, fun base hbase => h.laid b base hb hbase⟩
    · intro d hd
      obtain ⟨hwrote, hparam, hregistered⟩ := (hsite.planned.spec _ plan hplan).2.2 d hd
      refine ⟨(hsite.hierarchy.hash_eq hk).symm ▸ hwrote, hparam, fun a ha => ?_⟩
      obtain ⟨c, hc⟩ := hregistered a ha
      obtain ⟨hclass, hhash⟩ := (Ty.storage_eq_object hparam).mp ha
      exact hsettled a (List.mem_append_right _
        (List.mem_filterMap.mpr ⟨d, List.mem_filter.mpr ⟨hd, hclass⟩, hhash⟩)) c hc
  refine ⟨fun a => ?_, h.pointerSize, ?_⟩
  · rw [Registry.class?_modifyClass, ← h.headers a]
    split
    · rename_i ha
      rw [ha, Option.map_map]
      rfl
    · rfl
  · intro a c ha hc
    by_cases hself' : a = plan.pending.hash
    · rw [hself', Registry.class?_modifyClass, if_pos rfl, hk] at hc
      injection hc with hc
      subst hc
      exact hself.mono rfl hother hgrows
    · have ha : Settled done a := ha.imp_right fun hmem => (List.mem_cons.mp hmem).resolve_left hself'
      rw [hother a ha] at hc
      exact (h.laid a c ha hc).mono rfl hother hgrows

/-- What a part of the walk achieves: the invariant is kept, what is laid out stays laid out, and
no class that waits is laid out. -/
structure Walked (r₀ : Registry) (wrote : TypeHash → Ty → Prop) (visiting done : List TypeHash)
    (r : Registry) (done' : List TypeHash) : Prop where
  laying : Laying r₀ wrote r done'
  grows : ∀ h ∈ done, h ∈ done'
  waits : ∀ v ∈ visiting, v ∉ done → v ∉ done'

theorem Walked.trans {r₀ r₁ r₂ : Registry} {wrote : TypeHash → Ty → Prop}
    {visiting done done₁ done₂ : List TypeHash} (h₁ : Walked r₀ wrote visiting done r₁ done₁)
    (h₂ : Walked r₀ wrote visiting done₁ r₂ done₂) :
    Walked r₀ wrote visiting done r₂ done₂ where
  laying := h₂.laying
  grows a ha := h₂.grows a (h₁.grows a ha)
  waits v hv hnot := h₂.waits v hv (h₁.waits v hv hnot)

section Walk

variable {r₀ : Registry} {wrote : TypeHash → Ty → Prop} {ps : List PendingClass}
  {plans : Table TypeHash LayoutPlan}

/-- Visiting several classes, if visiting one is understood. -/
theorem foldlM_walked (plans : Table TypeHash LayoutPlan) {visiting : List TypeHash}
    {step : List TypeHash → TypeHash → CompileM (List TypeHash)}
    (hstep : ∀ done a c done' c', Laying r₀ wrote c.registry done → Yields (step done a) c done' c' →
      Walked r₀ wrote visiting done c'.registry done' ∧ (a ∈ done' ∨ plans.find? a = none))
    {hs : List TypeHash} :
    ∀ {done done' : List TypeHash} {c c' : Compilation}, Laying r₀ wrote c.registry done →
      Yields (hs.foldlM step done) c done' c' →
      Walked r₀ wrote visiting done c'.registry done' ∧
        ∀ a ∈ hs, a ∈ done' ∨ plans.find? a = none := by
  induction hs with
  | nil =>
    intro done done' c c' hlaying h
    obtain ⟨rfl, rfl⟩ := yields_pure.mp h
    exact ⟨⟨hlaying, fun _ h => h, fun _ _ h => h⟩, List.forall_mem_nil _⟩
  | cons a hs ih =>
    intro done done' c c' hlaying h
    rw [yields_foldlM_cons] at h
    obtain ⟨done₁, c₁, ha, hhs⟩ := h
    obtain ⟨hwalked, hdone⟩ := hstep done a c done₁ c₁ hlaying ha
    obtain ⟨hwalked', hrest⟩ := ih hwalked.laying hhs
    refine ⟨hwalked.trans hwalked', List.forall_mem_cons.mpr ⟨?_, hrest⟩⟩
    exact hdone.imp_left (hwalked'.grows a)

/-- Visiting a class lays it out, unless there is nothing to do. The bound is never reached: the
waiting classes are different classes, so there are no more of them than classes. -/
theorem layOutWithin_walked (hsite : Site r₀ wrote ps plans) :
    ∀ (bound : Nat) (visiting done : List TypeHash) (hash : TypeHash) (c : Compilation)
      (done' : List TypeHash) (c' : Compilation),
      ps.length < bound + visiting.length → visiting.Nodup →
      (∀ v ∈ visiting, v ∈ ps.map (·.hash)) → Laying r₀ wrote c.registry done →
      Yields (layOutWithin plans bound visiting done hash) c done' c' →
      Walked r₀ wrote visiting done c'.registry done' ∧ (hash ∈ done' ∨ plans.find? hash = none)
  | 0, visiting, done, hash, c, done', c', hbound, hnodup, hpending, _, _ => by
    have hle := (hnodup.subperm hpending).length_le
    rw [List.length_map] at hle
    omega
  | bound + 1, visiting, done, hash, c, done', c', hbound, hnodup, hpending, hlaying, h => by
    unfold layOutWithin at h
    split at h
    · rename_i hdone
      obtain ⟨rfl, rfl⟩ := yields_pure.mp h
      exact ⟨⟨hlaying, fun _ h => h, fun _ _ h => h⟩, .inl (List.contains_iff_mem.mp hdone)⟩
    · rename_i hundone
      split at h
      · rename_i hnone
        obtain ⟨rfl, rfl⟩ := yields_pure.mp h
        exact ⟨⟨hlaying, fun _ h => h, fun _ _ h => h⟩, .inr hnone⟩
      · rename_i plan hplan
        obtain ⟨hmem, rfl, _⟩ := hsite.planned.spec hash plan hplan
        dsimp only at h
        split at h
        · simp only [yields_bind] at h
          obtain ⟨_, _, hfail, _⟩ := h
          obtain ⟨_, _, hfail, _⟩ := inModule_effect hfail
          simp at hfail
        · rename_i hfresh
          simp only [yields_bind, yields_askRegistry, Registry.getClass_eq_ok, yields_pure] at h
          obtain ⟨k, _, ⟨hk, rfl⟩, done₁, c₂, hdeps, _, c₃, hlayout, rfl, rfl⟩ := h
          have hundone : plan.pending.hash ∉ done := fun hmem =>
            hundone (List.contains_iff_mem.mpr hmem)
          have hfresh : plan.pending.hash ∉ visiting := fun hmem =>
            hfresh (List.contains_iff_mem.mpr hmem)
          -- While its dependencies are visited, the class waits with those that wait for it.
          obtain ⟨hwalked, hsettled⟩ := foldlM_walked plans
            (fun done a c done' c' hlaying => layOutWithin_walked hsite bound
              (plan.pending.hash :: visiting) done a c done' c'
              (by rw [List.length_cons]; omega) (List.nodup_cons.mpr ⟨hfresh, hnodup⟩)
              (List.forall_mem_cons.mpr ⟨List.mem_map_of_mem hmem, hpending⟩) hlaying)
            hlaying hdeps
          obtain ⟨k', fields, length, hk', hlaid, hset⟩ := layOutClass_effect hlayout
          have hbases : k'.bases = k.bases := by
            have hheader := hlaying.headers.symm.trans hwalked.laying.headers plan.pending.hash
            rw [hk, hk', Option.map_some, Option.map_some] at hheader
            injection hheader with hheader
            exact (congrArg Class.bases hheader :)
          have hnew : ¬Settled done₁ plan.pending.hash := by
            rintro (hroot | hdone)
            · exact hsite.root plan.pending hmem hroot
            · exact hwalked.waits _ (List.mem_cons_self ..) hundone hdone
          refine ⟨⟨?_, ?_, ?_⟩, .inl (List.mem_cons_self ..)⟩
          · rw [hset]
            refine hwalked.laying.step hsite hplan hnew hk' ?_ hlaid
            rw [layoutDependencies, hbases]
            exact hsettled
          · exact fun a ha => List.mem_cons_of_mem _ (hwalked.grows a ha)
          · intro v hv hnot hmem'
            rcases List.mem_cons.mp hmem' with rfl | hmem'
            · exact hfresh hv
            · exact hwalked.waits v (List.mem_cons_of_mem _ hv) hnot hmem'

end Walk

/-- When the walk is over, every class has a sound layout. -/
theorem layOutAll_laidOut (wrote : TypeHash → Ty → Prop) {ps ordered : List PendingClass}
    {c c' : Compilation} {u : Unit} (hh : Dispatch.Headed c.registry ps ordered)
    (hbases : ∀ h d, c.registry.class? h = some d →
      (∀ t ∈ d.bases, t.isClass = true) ∧ (h = Class.rootHash ∨ d.bases ≠ []))
    (hroot : wrote Class.rootHash .voidPointer)
    (hwrote : ∀ plans c₁, Yields (ps.mapM layoutPlan) c plans c₁ →
      ∀ plan ∈ plans, ∀ d ∈ plan.fields, wrote plan.pending.hash d.type)
    (h : Yields (layOutAll ps) c u c') :
    ∀ k d, c'.registry.class? k = some d → LaidOut c'.registry wrote (fun _ => True) d := by
  simp only [layOutAll, yields_bind, yields_pure] at h
  obtain ⟨plans, c₁, hplans, done, c₂, hwalk, _, rfl⟩ := h
  have hkept : c₁.registry = c.registry := hplans.keeps
  have hsite : Site c.registry wrote ps _ := ⟨hh.hierarchy, hh.declared.known,
    fun p hp => hh.declared.root_not_mem hp, hbases,
    planned_of_mapM hplans (hwrote plans c₁ hplans)⟩
  -- At first only the root has a layout.
  have hstart : Laying c.registry wrote c₁.registry [] := by
    rw [hkept]
    refine ⟨fun _ => rfl, rfl, ?_⟩
    rintro k d (rfl | hk) hd
    · rw [hh.declared.rootClass] at hd
      injection hd with hd
      exact hd ▸ .root _ _ hroot
    · exact absurd hk List.not_mem_nil
  obtain ⟨hwalked, hdone⟩ := foldlM_walked _
    (fun done a c done' c' hlaying => layOutWithin_walked hsite _ [] done a c done' c'
      (by rw [List.length_nil]; omega) List.nodup_nil (List.forall_mem_nil _) hlaying)
    hstart hwalk
  intro k d hd
  have hsite' := hsite.congr hwalked.laying.headers
  refine (hwalked.laying.laid k d ?_ hd).mono rfl (fun _ _ => rfl) fun _ _ => trivial
  refine hsite'.settled hd ?_
  rcases hsite'.known k d hd with rfl | ⟨p, hp, rfl⟩
  · refine .inr (Option.eq_none_iff_forall_ne_some.mpr fun plan hfind => ?_)
    obtain ⟨hp, hroot, _⟩ := hsite.planned.spec _ plan hfind
    exact hsite.root _ hp hroot
  · exact hdone _ (List.mem_map_of_mem hp)

/-! ## The finished layouts -/

/-- Lengths of types depend on the layouts of classes. -/
theorem length_of_sameLayouts {r r' : Registry} (hr : Dispatch.SameLayouts r r') (t : Ty) :
    r'.length t = r.length t := by
  rw [Registry.length_eq, Registry.length_eq]
  cases t.storage with
  | word => exact hr.pointerSize
  | object k =>
    have hk := congrArg (Option.map Class.length) (hr.classes k)
    rw [Option.map_map, Option.map_map] at hk
    exact congrArg (Option.getD · 0) hk
  | _ => rfl

/-- What a type is in the terms of another class depends on the layouts of the two. -/
theorem inOwnTerms_of_laidOut {c c' base base' : Class}
    (hc : Dispatch.laidOut c = Dispatch.laidOut c')
    (hbase : Dispatch.laidOut base = Dispatch.laidOut base') (t : Ty) :
    c.inOwnTerms base t = c'.inOwnTerms base' t := by
  have hown := congrArg (fun c => Class.inOwnTerms c (Dispatch.laidOut base) t) hc
  have hother := congrArg (fun base => c'.inOwnTerms base t) hbase
  exact Eq.trans hown hother

/-- Layouts are complete before methods are known. -/
theorem LaidOut.congr {r r' : Registry} {wrote : TypeHash → Ty → Prop}
    {settled : TypeHash → Prop} {c c' : Class} (h : LaidOut r wrote settled c)
    (hr : Dispatch.SameLayouts r r') (hc : Dispatch.laidOut c = Dispatch.laidOut c') :
    LaidOut r' wrote settled c' := by
  have hfields : c.fields = c'.fields := (congrArg Class.fields hc :)
  have hlength : c.length = c'.length := (congrArg Class.length hc :)
  have hbases : baseHashes c = baseHashes c' := (congrArg baseHashes hc :)
  have hhash : c.hash = c'.hash := (congrArg Class.hash hc :)
  exact
    { names := hfields ▸ h.names
      tag := hfields ▸ h.tag
      fills := by
        rw [← hfields, ← hlength]
        exact h.fills.congr fun f _ => length_of_sameLayouts hr f.type
      types := hfields ▸ h.types
      bases := by
        intro b hb
        obtain ⟨hsettled, hincludes⟩ := h.bases b (hbases ▸ hb)
        refine ⟨hsettled, fun base' hbase' f hf => ?_⟩
        obtain ⟨base, hbase, heq⟩ := hr.exists_class_before hbase'
        have hbaseFields : base.fields = base'.fields := (congrArg Class.fields heq :)
        have hmem := hincludes base hbase f (hbaseFields ▸ hf)
        rwa [inOwnTerms_of_laidOut hc heq f.type, hfields] at hmem
      origins := by
        intro f hf
        rw [← hhash, ← hbases]
        refine (h.origins f (hfields ▸ hf)).imp_right ?_
        rintro ⟨b, hb, base, hbase, g, hg, horigin⟩
        obtain ⟨base', hbase', heq⟩ := hr.exists_class hbase
        have hbaseFields : base.fields = base'.fields := (congrArg Class.fields heq :)
        exact ⟨b, hb, base', hbase', g, hbaseFields ▸ hg,
          horigin.trans (inOwnTerms_of_laidOut hc heq g.type)⟩ }

theorem laidOut_of_accepted? {o : Options} {p : Program} {r : Registry}
    (h : accepted? o p = some r) {k : TypeHash} {d : Class} (hk : r.class? k = some d) :
    LaidOut r (fun _ _ => True) (fun _ => True) d := by
  obtain ⟨_, _, _, _, _, _, _, _, _, _, hstart, hsteps, rfl⟩ := Dispatch.steps_of_accepted? h
  have hd := Dispatch.declared_start hstart
  obtain ⟨d₂, hd₂, heq⟩ := hsteps.sameLayouts.exists_class_before hk
  have hlaid := layOutAll_laidOut (fun _ _ => True) (Dispatch.runHeaders_headed hd hsteps.headers)
    (runHeaders_bases hd hsteps.headers) trivial (fun _ _ _ _ _ _ _ => trivial) hsteps.layout
  exact LaidOut.congr (hlaid k d₂ hd₂) hsteps.sameLayouts heq

end Registration

/-! ## Ancestors -/

/-- The layout of `C` is sound under every upcast: its fields have distinct names, start with the
class tag and lie one behind the other up to the end of the object, and every field of an ancestor
is found in it by name, at the same place and with the same length. -/
structure LayoutSound (r : Registry) (C : Class) : Prop where
  distinct : (C.fields.map (·.name)).Nodup
  tagged : C.fields.head? = some ⟨Class.tagField, 0, .voidPointer⟩
  contiguous : r.Fills 0 C.fields C.length
  ancestors : ∀ a ∈ C.mro, ∃ A, r.class? a = some A ∧ ∀ f ∈ A.fields, ∃ g ∈ C.fields,
    C.field? f.name = some g ∧ g.name = f.name ∧ g.offset = f.offset ∧
      r.length g.type = r.length f.type

/-- A field of distinct fields is found by its name. -/
theorem Class.field?_of_mem {c : Class} (hnames : (c.fields.map (·.name)).Nodup) {f : Field}
    (hf : f ∈ c.fields) : c.field? f.name = some f := by
  cases hfind : c.field? f.name with
  | none =>
    have hnone := List.find?_eq_none.mp hfind f hf
    simp at hnone
  | some g =>
    have hname : g.name = f.name := by simpa using List.find?_some hfind
    rw [List.inj_on_of_nodup_map hnames (List.mem_of_find?_eq_some hfind) hf hname]

namespace Registration

/-- In a program that registration accepts, the layout of every class is sound under every upcast,
in exact numbers. -/
theorem layoutSound_of_accepted? {o : Options} {p : Program} {r : Registry}
    (h : accepted? o p = some r) {k : TypeHash} {C : Class} (hC : r.class? k = some C) :
    LayoutSound r C := by
  have hr := (Dispatch.tables_of_accepted? h).hierarchy
  have hlaid := laidOut_of_accepted? h hC
  obtain ⟨rest, hrest⟩ := hlaid.tag
  refine ⟨hlaid.names, by rw [hrest, List.head?_cons], hlaid.fills, ?_⟩
  -- What a base has from an ancestor, the class has from the base.
  refine hr.induction (P := fun _ C => ∀ a ∈ C.mro, ∃ A, r.class? a = some A ∧
    ∀ f ∈ A.fields, ∃ g ∈ C.fields, C.field? f.name = some g ∧ g.name = f.name ∧
      g.offset = f.offset ∧ r.length g.type = r.length f.type) ?_ hC
  intro k C hC ih a ha
  have hlaid := laidOut_of_accepted? h hC
  rcases (hr.mem_mro_iff hC).mp ha with rfl | ⟨b, hb, B, hB, ha⟩
  · exact ⟨C, hC, fun f hf => ⟨f, hf, Class.field?_of_mem hlaid.names hf, rfl, rfl, rfl⟩⟩
  · obtain ⟨A, hA, hfields⟩ := ih b hb B hB a ha
    refine ⟨A, hA, fun f hf => ?_⟩
    obtain ⟨g, hg, _, hname, hoffset, hlength⟩ := hfields f hf
    have hmem := (hlaid.bases b hb).2 B hB g hg
    refine ⟨_, hmem, hname ▸ Class.field?_of_mem hlaid.names hmem, hname, hoffset, ?_⟩
    exact ((laidOut_of_accepted? h hB).length_inOwnTerms C g hg).trans hlength

/-- A class of a sample program: its bases, and its fields with the classes that they point to or
hold. -/
def sampleRecord (name : String) (bases : List String) (fields : List (String × TypeExpr)) : Item :=
  .classDecl ⟨⟨name, .unknown⟩, [], bases.map fun b => .named b [] .unknown,
    fields.map fun f => ⟨f.1, f.2, .unknown⟩, [], false, .unknown⟩

/-- A class that holds an object by value, declared after it, a base without fields, and a class
below both. -/
def nestedRecords : Program :=
  ⟨[⟨"m", [
    sampleRecord "Outer" [] [("x", .named "char" [] .unknown), ("in", .named "Inner" [] .unknown)],
    sampleRecord "Mark" [] [],
    sampleRecord "Both" ["Outer", "Mark"] [("y", .named "int" [] .unknown)],
    sampleRecord "Inner" [] [("z", .named "int" [] .unknown)]]⟩]⟩

end Registration

end ClassLang
