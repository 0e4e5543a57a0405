import ClassLang.Proofs.Order.Headers
import ClassLang.Proofs.Registration.LayoutOrder

/-!
# Layouts in another order

How a class is laid out depends on its header and on the layouts of its direct bases and of the
classes that it holds by value. When all classes are laid out, in some order, each one has the
layout that it would get if it were laid out again. A walk in another order comes to each class when
those that it depends on are laid out, since no class depends on itself; so it gives each one the
layout that it had before.
-/

namespace ClassLang

open CompileM Registration

/-! ## What a layout depends on -/

/-- A class before it is laid out. -/
def Class.unplaced (k : Class) : Class := { k with id := 0, fields := [], length := 0 }

instance : Untagged Class.unplaced := ⟨fun _ => rfl⟩

namespace Layout

variable {r r' : Registry} {k k' : Class} {own : List OwnField}

theorem inOwnTerms_congr {base base' : Class} (hk : k'.unplaced = k.unplaced)
    (hbase : base'.untagged = base.untagged) (t : Ty) : k'.inOwnTerms base' t = k.inOwnTerms base t := by
  have hown := congrArg (fun k : Class => k.inOwnTerms base'.untagged t) hk
  have hother := congrArg (fun base : Class => k.inOwnTerms base t) hbase
  exact Eq.trans hown hother

/-- A class that is looked up looks the same in both registries, or is in neither. -/
theorem bind_getClass_congr {α : Type} {f g : Class → Except CompileError α} {x : TypeHash}
    (hx : (r'.class? x).map Class.untagged = (r.class? x).map Class.untagged)
    (hfg : ∀ base base', base'.untagged = base.untagged → g base' = f base) :
    r'.getClass x >>= g = r.getClass x >>= f := by
  unfold Registry.getClass
  cases hbase : r.class? x with
  | none =>
    rw [hbase, Option.map_none, Option.map_eq_none_iff] at hx
    rw [hx]
    rfl
  | some base =>
    rw [hbase, Option.map_some, Option.map_eq_some_iff] at hx
    obtain ⟨base', hbase', heq⟩ := hx
    rw [hbase']
    exact hfg base base' heq

theorem inheritedFields_congr (hk : k'.unplaced = k.unplaced)
    (hprimary : ∀ x, k.mro[1]? = some x →
    (r'.class? x).map Class.untagged = (r.class? x).map Class.untagged) :
    inheritedFields r' k' = inheritedFields r k := by
  have hmro : k'.mro = k.mro := (congrArg Class.mro hk :)
  unfold inheritedFields
  rw [hmro]
  cases hfirst : k.mro[1]? with
  | none => rfl
  | some x =>
    refine bind_getClass_congr (hprimary x hfirst) fun base base' heq => ?_
    have hfields : base'.fields = base.fields := (congrArg Class.fields heq :)
    have hlength : base'.length = base.length := (congrArg Class.length heq :)
    simp only [hfields, hlength, inOwnTerms_congr hk heq]

theorem placeFields_congr (hspan : k'.span = k.span) :
    ∀ {own earlier : List OwnField} {placed : List Field} {offset : Nat},
      (∀ d ∈ own, r'.length d.type = r.length d.type) →
      placeFields r' k' earlier placed offset own = placeFields r k earlier placed offset own
  | [], _, _, _, _ => rfl
  | d :: own, earlier, placed, offset, hlength => by
    obtain ⟨hd, hown⟩ := List.forall_mem_cons.mp hlength
    have hprevious : previousSpan k' earlier d.name = previousSpan k earlier d.name := by
      unfold previousSpan
      rw [hspan]
    unfold placeFields
    rw [hd, hprevious, placeFields_congr hspan hown]

theorem checkBases_congr (hk : k'.unplaced = k.unplaced) {fields : List Field} :
    ∀ {ts : List Ty}, (∀ x ∈ ts.filterMap (·.classHash?),
      (r'.class? x).map Class.untagged = (r.class? x).map Class.untagged) →
      checkBases r' k' fields ts = checkBases r k fields ts
  | [], _ => rfl
  | t :: ts, hbases => by
    have hname : k'.name = k.name := (congrArg Class.name hk :)
    have hspan : k'.span = k.span := (congrArg Class.span hk :)
    unfold checkBases
    cases hash : t.classHash? with
    | none =>
      rw [List.filterMap_cons_none hash] at hbases
      exact checkBases_congr hk hbases
    | some x =>
      rw [List.filterMap_cons_some hash] at hbases
      obtain ⟨hx, hrest⟩ := List.forall_mem_cons.mp hbases
      refine bind_getClass_congr hx fun base base' heq => ?_
      have hfields : base'.fields = base.fields := (congrArg Class.fields heq :)
      have hbaseName : base'.name = base.name := (congrArg Class.name heq :)
      have hfield : hasField k' base' fields = hasField k base fields := by
        funext f
        unfold hasField
        rw [inOwnTerms_congr hk heq]
      rw [hfields, hbaseName, hname, hspan, hfield, checkBases_congr hk hrest]

/-- A class is laid out in the same way if the classes that it depends on look the same. -/
theorem layOut_congr (hk : k'.unplaced = k.unplaced) (hsize : r'.pointerSize = r.pointerSize)
    (hprimary : k.mro[1]? = (baseHashes k).head?) (hown : ∀ d ∈ own, d.type.isParam = false)
    (hdeps : ∀ x ∈ layoutDependencies k own,
      (r'.class? x).map Class.untagged = (r.class? x).map Class.untagged) :
    layOut r' k' own = layOut r k own := by
  have hbases : k'.bases = k.bases := (congrArg Class.bases hk :)
  have hfirst : inheritedFields r' k' = inheritedFields r k := inheritedFields_congr hk fun x hx =>
    hdeps x (List.mem_append_left _ (List.mem_of_mem_head? (hprimary ▸ hx)))
  have hlength : ∀ d ∈ own, r'.length d.type = r.length d.type := by
    intro d hd
    rw [Registry.length_eq, Registry.length_eq]
    cases hs : d.type.storage with
    | object x =>
      have hdep : x ∈ layoutDependencies k own :=
        mem_layoutDependencies.mpr (.inr ⟨d, hd, (Ty.storage_eq_object (hown d hd)).mp hs⟩)
      have hlengths := congrArg (Option.map Class.length) (hdeps x hdep)
      rw [Option.map_map, Option.map_map] at hlengths
      exact congrArg (Option.getD · 0) hlengths
    | word => exact hsize
    | _ => rfl
  have hcheck : ∀ fields,
    checkBases r' k' fields (k.bases.drop 1) = checkBases r k fields (k.bases.drop 1) :=
    fun fields => checkBases_congr hk fun x hx =>
      hdeps x (List.mem_append_left _ (((List.drop_sublist 1 k.bases).filterMap _).subset hx))
  have hspan : k'.span = k.span := (congrArg Class.span hk :)
  have hplace : ∀ {placed offset},
    placeFields r' k' [] placed offset own = placeFields r k [] placed offset own :=
    placeFields_congr hspan hlength
  unfold layOut
  simp only [hfirst, hbases, hplace, hcheck]

end Layout

namespace Registration

/-! ## Layouts that last -/

/-- The class has the layout that it would get if it were laid out again. -/
def Fixed (r : Registry) (plan : LayoutPlan) : Prop :=
  ∃ k, r.class? plan.pending.hash = some k ∧ Layout.layOut r k plan.fields = .ok (k.fields, k.length)

theorem layOutClass_modifies {plan : LayoutPlan} {c c' : Compilation} {u : Unit}
    (h : Yields (layOutClass plan) c u c') :
    c.registry.Changes (· = plan.pending.hash) Class.unplaced c'.registry := by
  obtain ⟨k, fields, length, -, -, hset⟩ := layOutClass_effect h
  rw [hset]
  exact .modifyClass rfl fun _ => rfl

/-- Only classes with plans are laid out. -/
theorem forM_layOutClass_changes {order : List LayoutPlan} {c c' : Compilation} {u : Unit}
    (h : Yields (order.forM layOutClass) c u c') :
    c.registry.Changes (fun x => ∃ plan ∈ order, plan.pending.hash = x) Class.unplaced c'.registry := by
  refine forM_induction (fun k => c.registry.Changes _ Class.unplaced k.registry)
    (fun plan hplan _ _ _ hk hstep => hk.trans ?_) (.refl ..) h
  exact (layOutClass_modifies hstep).widen fun x hx => ⟨plan, hplan, hx.symm⟩

section Walks

variable {r t : Registry} {ps : List PendingClass} {plans : List LayoutPlan} {done : List TypeHash}

/-- A planned class is not the root, and its own fields are not of a template parameter's type. -/
theorem Site.plan_spec (hsite : Site r (fun _ _ => True) ps (planTable plans))
    (hplans : (plans.map (·.pending.hash)).Nodup) {plan : LayoutPlan} (hplan : plan ∈ plans) :
    plan.pending.hash ≠ Class.rootHash ∧ ∀ d ∈ plan.fields, d.type.isParam = false := by
  obtain ⟨hp, -, hfields⟩ := hsite.planned.spec _ plan ((find?_planTable hplans).mpr ⟨hplan, rfl⟩)
  exact ⟨hsite.root _ hp, fun d hd => (hfields d hd).2.1⟩

/-- When all plans are carried out, every class has a layout that lasts: what it depends on was laid
out before it, and is not laid out again. -/
theorem Follows.fixed (hsite : Site r (fun _ _ => True) ps (planTable plans))
    (hplans : (plans.map (·.pending.hash)).Nodup) {order : List LayoutPlan}
    (h : Follows r plans done order) :
    ∀ {c c' : Compilation}, SameHeaders r c.registry → Yields (order.forM layOutClass) c () c' →
      ∀ plan ∈ order, Fixed c'.registry plan := by
  induction h with
  | nil => exact fun _ _ => List.forall_mem_nil _
  | @cons done plan rest hplan hnew hdeps hrest ih =>
    intro c c' hr hrun
    obtain ⟨_, c₁, hstep, hrun⟩ := yields_forM_cons.mp hrun
    obtain ⟨k, fields, length, hk, hlayout, hset⟩ := layOutClass_effect hstep
    obtain ⟨hroot, hown⟩ := hsite.plan_spec hplans hplan
    refine List.forall_mem_cons.mpr ⟨?_, ih (hr.trans (layOutClass_headers hstep)) hrun⟩
    have hlater := forM_layOutClass_changes hrun
    have happart : ∀ x ∈ plan.pending.hash :: done, ¬∃ q ∈ rest, q.pending.hash = x := by
      rintro x hx ⟨q, hq, rfl⟩
      exact hrest.nodup.2 q hq hx
    have hself : c'.registry.class? plan.pending.hash =
      some { k with fields := fields, length := length } := by
      rw [hlater.outside _ (happart _ List.mem_cons_self), hset, Registry.class?_modifyClass,
        if_pos rfl, hk]
      rfl
    refine ⟨_, hself, ?_⟩
    rw [← hlayout]
    refine Layout.layOut_congr rfl (hlater.pointerSize.trans (layOutClass_modifies hstep).pointerSize)
      ((hsite.hierarchy.congr hr).primary_eq hk) hown fun x hx => ?_
    -- What the class depends on was settled before, and so it is neither the class nor a later one.
    have hsettled := hdeps x ((dependsOn_iff hplans hr hplan hk).mpr hx)
    have hne : x ≠ plan.pending.hash := by
      rintro rfl
      exact hsettled.elim hroot hnew
    have hnone : ¬∃ q ∈ rest, q.pending.hash = x := by
      rcases hsettled with rfl | hx
      · rintro ⟨q, hq, heq⟩
        exact (hsite.plan_spec hplans (hrest.mem q hq)).1 heq
      · exact happart x (List.mem_cons_of_mem _ hx)
    rw [hlater.outside x hnone, (layOutClass_modifies hstep).outside x hne]

/-! ## The walk in another order -/

/-- The registry `r` is on the way to `t`: the classes have the headers that they have there, and
those that are settled have their layouts. -/
structure Toward (t r : Registry) (done : List TypeHash) : Prop where
  headers : ∀ x, (r.class? x).map Class.unplaced = (t.class? x).map Class.unplaced
  pointerSize : r.pointerSize = t.pointerSize
  settled : ∀ x, Settled done x → (r.class? x).map Class.untagged = (t.class? x).map Class.untagged

/-- At first only the root has its layout. -/
theorem toward_of_changes {c d : Compilation} {touched : TypeHash → Prop} (halike : c.Alike d)
    (hchanges : c.registry.Changes touched Class.unplaced t) (hroot : ¬touched Class.rootHash) :
    Toward t d.registry [] := by
  refine ⟨fun x => ?_, ?_, fun x hx => ?_⟩
  · have hview := congrFun (congrArg View.classes (halike.view_eq Class.unplaced)) x
    exact Eq.trans hview (hchanges.shown x).symm
  · exact (congrArg View.pointerSize halike.view).trans hchanges.pointerSize.symm
  · obtain rfl := hx.resolve_right List.not_mem_nil
    rw [hchanges.outside Class.rootHash hroot]
    exact congrFun (congrArg View.classes halike.view) Class.rootHash

theorem yields_layOutClass {c : Compilation} {plan : LayoutPlan} {k : Class} {fields : List Field}
    {length : Nat}
    (hk : c.registry.class? plan.pending.hash = some k)
    (hlayout : Layout.layOut c.registry k plan.fields = .ok (fields, length)) :
    ∃ c', Yields (layOutClass plan) c () c' ∧ c'.registry = c.registry.modifyClass plan.pending.hash
      fun k => { k with fields := fields, length := length } := by
  have hbody :
    Yields (askRegistry fun r => do Layout.layOut r (← r.getClass plan.pending.hash) plan.fields)
      (c.entered plan.pending.path) (fields, length) (c.entered plan.pending.path) :=
    yields_askRegistry.mpr ⟨except_bind_eq_ok.mpr ⟨k, Registry.getClass_eq_ok.mpr hk, hlayout⟩, rfl⟩
  have hrun := run_inModule hbody rfl
  exact ⟨_, yields_bind.mpr ⟨_, _, hrun,
    yields_modifyClass.mpr ⟨⟨k, Registry.getClass_eq_ok.mpr hk⟩, rfl⟩⟩, rfl⟩

/-- A class whose dependencies have the layouts that they have in the end gets its own. -/
theorem Toward.step (hsite : Site r (fun _ _ => True) ps (planTable plans))
    (hplans : (plans.map (·.pending.hash)).Nodup) {plan : LayoutPlan} (hplan : plan ∈ plans)
    (hfixed : Fixed t plan) {c : Compilation} (hr : SameHeaders r c.registry)
    (h : Toward t c.registry done)
    (hdeps : ∀ x, DependsOn r plans plan.pending.hash x → Settled done x) :
    ∃ c', Yields (layOutClass plan) c () c' ∧ Toward t c'.registry (plan.pending.hash :: done) := by
  obtain ⟨k, hk, hlayout⟩ := hfixed
  obtain ⟨k₀, hk₀, heq⟩ : ∃ k₀, c.registry.class? plan.pending.hash = some k₀ ∧
    k₀.unplaced = k.unplaced := by
    have hheader := h.headers plan.pending.hash
    rwa [hk, Option.map_some, Option.map_eq_some_iff] at hheader
  have hsame : Layout.layOut t k plan.fields = Layout.layOut c.registry k₀ plan.fields :=
    Layout.layOut_congr heq.symm h.pointerSize.symm ((hsite.hierarchy.congr hr).primary_eq hk₀)
      (hsite.plan_spec hplans hplan).2 fun x hx =>
        (h.settled x (hdeps x ((dependsOn_iff hplans hr hplan hk₀).mpr hx))).symm
  obtain ⟨c', hyields, hset⟩ := yields_layOutClass hk₀ (hsame.symm.trans hlayout)
  have hchanges := layOutClass_modifies hyields
  refine ⟨c', hyields, fun x =>
    (hchanges.shown x).trans (h.headers x), hchanges.pointerSize.trans h.pointerSize,
    fun x hx => ?_⟩
  by_cases hself : x = plan.pending.hash
  · rw [hself, hset, Registry.class?_modifyClass, if_pos rfl, hk₀, hk]
    have hplaced := congrArg (fun e : Class => { e with fields := k.fields, length := k.length }) heq
    exact congrArg some hplaced
  · rw [hchanges.outside x hself]
    exact h.settled x (hx.imp_right fun hx => (List.mem_cons.mp hx).resolve_left hself)

/-- When its dependencies are visited, all that a class depends on is settled. -/
theorem Visits.settles (hsite : Site r (fun _ _ => True) ps (planTable plans))
    (hplans : (plans.map (·.pending.hash)).Nodup) {plan : LayoutPlan} (hplan : plan ∈ plans) {k : Class}
    {waiting done₁ : List TypeHash} {c c₁ : Compilation} (hr : SameHeaders r c.registry)
    (hk : c.registry.class? plan.pending.hash = some k)
    (h : Visits (planTable plans) waiting done (layoutDependencies k plan.fields) c (.ok done₁) c₁) :
    ∀ x, DependsOn r plans plan.pending.hash x → Settled done₁ x := by
  intro x hdep
  obtain ⟨order, horder⟩ := h.exists_order hsite hplans rfl hr
  obtain ⟨kx, hkx⟩ := hsite.exists_of_dependsOn hplans hdep
  exact hsite.settled hkx (horder.visited x ((dependsOn_iff hplans hr hplan hk).mp hdep))

/-- The walk succeeds, and what it lays out has the layout that it has in the end. -/
theorem Visits.toward (hsite : Site r (fun _ _ => True) ps (planTable plans))
    (hplans : (plans.map (·.pending.hash)).Nodup) (hacyclic : Acyclic r plans)
    (hfixed : ∀ plan ∈ plans, Fixed t plan)
    {waiting hs : List TypeHash} {c c' : Compilation} {o : Except CompileError (List TypeHash)}
    (h : Visits (planTable plans) waiting done hs c o c') : SameHeaders r c.registry →
    Toward t c.registry done →
      (∀ w ∈ waiting, ∀ x ∈ hs, Relation.TransGen (DependsOn r plans) w x) →
      ∃ done', o = .ok done' ∧ Toward t c'.registry done' := by
  induction h with
  | nil => exact fun _ ht _ => ⟨_, rfl, ht⟩
  | skip _ _ ih =>
    exact fun hr ht hpath => ih hr ht fun w hw x hx =>
      hpath w hw x (List.mem_cons_of_mem _ hx)
  -- A class that waits depends on the one that is met again, which would be a cycle.
  | circular _ _ hwaits =>
    intro _ _ hpath
    exact (hacyclic _ (hpath _ hwaits _ List.mem_cons_self)).elim
  | @unregistered _ _ _ _ plan _ henters hnone =>
    intro _ ht _
    obtain ⟨hplan, rfl⟩ := (find?_planTable hplans).mp henters.planned
    obtain ⟨k, hk, -⟩ := hfixed plan hplan
    have hheader := ht.headers plan.pending.hash
    rw [hnone, hk] at hheader
    cases hheader
  | failed henters hk _ ih =>
    intro hr ht hpath
    obtain ⟨hplan, rfl⟩ := (find?_planTable hplans).mp henters.planned
    obtain ⟨_, ho, _⟩ := ih hr ht (waiting_paths hplans hr hplan hk hpath)
    cases ho
  -- The layout cannot be refused: it is the one that the class has in the end.
  | refused henters hk hwalk hfails ih =>
    intro hr ht hpath
    obtain ⟨hplan, rfl⟩ := (find?_planTable hplans).mp henters.planned
    obtain ⟨_, ho, ht₁⟩ := ih hr ht (waiting_paths hplans hr hplan hk hpath)
    cases ho
    obtain ⟨_, hyields, _⟩ := ht₁.step hsite hplans hplan (hfixed _ hplan) (hr.trans (hwalk.headers rfl))
      (hwalk.settles hsite hplans hplan hr hk)
    cases hfails.symm.trans hyields
  | laid henters hk hwalk hlayout _ ih ih' =>
    intro hr ht hpath
    obtain ⟨hplan, rfl⟩ := (find?_planTable hplans).mp henters.planned
    obtain ⟨_, ho, ht₁⟩ := ih hr ht (waiting_paths hplans hr hplan hk hpath)
    cases ho
    have hr₁ := hr.trans (hwalk.headers rfl)
    obtain ⟨_, hyields, ht₂⟩ := ht₁.step hsite hplans hplan (hfixed _ hplan) hr₁
      (hwalk.settles hsite hplans hplan hr hk)
    obtain ⟨-, rfl⟩ := hyields.unique hlayout
    exact ih' (hr₁.trans (layOutClass_headers hlayout)) ht₂ fun w hw x hx =>
      hpath w hw x (List.mem_cons_of_mem _ hx)

/-- A walk that starts with every class settles every class. -/
theorem Visits.settled_all (hsite : Site r (fun _ _ => True) ps (planTable plans))
    (hplans : (plans.map (·.pending.hash)).Nodup) {c c' : Compilation} (hr : SameHeaders r c.registry)
    (h : Visits (planTable plans) [] [] (ps.map (·.hash)) c (.ok done) c') {x : TypeHash} {k : Class}
    (hk : c'.registry.class? x = some k) : Settled done x := by
  obtain ⟨order, horder⟩ := h.exists_order hsite hplans rfl hr
  obtain ⟨k₀, hk₀, -⟩ := (hr.trans (h.headers rfl)).symm.exists_class hk
  rcases hsite.known x k₀ hk₀ with rfl | ⟨p, hp, rfl⟩
  · exact .inl rfl
  · exact hsite.settled hk₀ (horder.visited _ (List.mem_map_of_mem hp))

end Walks

/-! ## All classes in another order -/

instance (p : PendingClass) : Fills Class.baseless none (layoutPlan p) where
  same hview h := by
    unfold layoutPlan at h ⊢
    obtain ⟨fields, c₁, hfields, hplan⟩ := yields_bind.mp h
    obtain ⟨rfl, rfl⟩ := yields_pure.mp hplan
    obtain ⟨g, checks, hπ, hg, hc, d', hfields', hd⟩ :=
      Fills.same (π := Class.baseless) (h := none) hview hfields
    refine ⟨g, checks, hπ, hg, hc, d', ?_, hd⟩
    exact yields_bind.mpr ⟨fields, d', hfields', yields_pure.mpr ⟨rfl, rfl⟩⟩

theorem dependsOn_perm {c d : Compilation} {plans plans' : List LayoutPlan} (halike : c.Alike d)
    (hperm : plans'.Perm plans) {x y : TypeHash} (h : DependsOn d.registry plans' x y) :
    DependsOn c.registry plans x y := by
  obtain ⟨plan, hplan, hx, hdep⟩ := h
  refine ⟨plan, hperm.mem_iff.mp hplan, hx, hdep.imp_left ?_⟩
  rintro ⟨k, hk, t, ht, hy⟩
  obtain ⟨k', hk', heq⟩ := exists_class_of_view halike.symm.view hk
  have hbases : k'.bases = k.bases := (congrArg Class.bases heq :)
  exact ⟨k', hk', t, hbases ▸ ht, hy⟩

/-- Layouts do not depend on the order in which the walk starts with classes. -/
theorem layOutAll_perm {ps qs ordered ordered' : List PendingClass} {c c' d : Compilation}
    (hc : Dispatch.Headed c.registry ps ordered) (hd : Dispatch.Headed d.registry qs ordered')
    (hbases : ∀ x k, c.registry.class? x = some k →
      (∀ t ∈ k.bases, t.isClass = true) ∧ (x = Class.rootHash ∨ k.bases ≠ []))
    (hbases' : ∀ x k, d.registry.class? x = some k →
      (∀ t ∈ k.bases, t.isClass = true) ∧ (x = Class.rootHash ∨ k.bases ≠ []))
    (hperm : ps.Perm qs) (halike : c.Alike d) (h : Yields (layOutAll ps) c () c') :
    ∃ d', Yields (layOutAll qs) d () d' ∧
      ∀ x, (d'.registry.class? x).map Class.untagged = (c'.registry.class? x).map Class.untagged := by
  obtain ⟨plans, c₁, order, hplans, horder, hfollows, hruns⟩ := exists_order_of_layOutAll hc hbases h
  obtain ⟨plans', d₁, hplanPerm, hplans', halike₁⟩ :=
    mapM_perm (π := Class.baseless) (κ := fun _ => none) hperm
    (List.pairwise_of_forall fun _ _ => .inl rfl) halike hplans
  have hkept : c₁.registry = c.registry := hplans.keeps
  have hkept' : d₁.registry = d.registry := hplans'.keeps
  have hqs := (List.nodup_cons.mp hd.declared.distinct).2
  have hhashes : (plans.map (·.pending.hash)).Nodup :=
    map_hash_of_mapM hplans ▸ (List.nodup_cons.mp hc.declared.distinct).2
  have hhashes' : (plans'.map (·.pending.hash)).Nodup := map_hash_of_mapM hplans' ▸ hqs
  have hsite := site_of_headed hc hbases hplans
  have hsite' := site_of_headed hd hbases' hplans'
  -- In the one order the walk has succeeded, so there is no cycle, and every layout lasts.
  have hacyclic : Acyclic c.registry plans :=
    acyclic_of_follows hfollows (fun plan => horder.mem_iff.mpr) fun plan hplan =>
      (hsite.plan_spec hhashes hplan).1
  have hacyclic' : Acyclic d.registry plans' := fun x hx =>
    hacyclic x (Relation.TransGen.mono (fun _ _ => dependsOn_perm halike hplanPerm) _ _ hx)
  have hfixed := hfollows.fixed hsite hhashes (hkept ▸ fun _ => rfl) hruns
  have hfixed' : ∀ plan ∈ plans', Fixed c'.registry plan := fun plan hplan =>
    hfixed plan (horder.mem_iff.mpr (hplanPerm.mem_iff.mp hplan))
  have hstart : Toward c'.registry d₁.registry [] := hkept' ▸ toward_of_changes halike
    (hkept ▸ forM_layOutClass_changes hruns) fun ⟨plan, hplan, hroot⟩ =>
      (hsite.plan_spec hhashes (horder.mem_iff.mp hplan)).1 hroot
  have hwalk : ∀ {o d'}, Visits (planTable plans') [] [] (qs.map (·.hash)) d₁ o d' →
      ∃ done', o = .ok done' ∧ Toward c'.registry d'.registry done' := fun h =>
    h.toward hsite' hhashes' hacyclic' hfixed' (hkept' ▸ fun _ => rfl) hstart (List.forall_mem_nil _)
  rcases hrun : (layOutAll qs).run.run d with ⟨out, d'⟩
  have hlays := (laysOut_iff hqs).mpr hrun
  cases hlays with
  | unresolved hfails => cases hfails.symm.trans hplans'
  | failed hplans'' hvisits =>
    obtain ⟨rfl, rfl⟩ := hplans''.unique hplans'
    obtain ⟨_, ho, _⟩ := hwalk hvisits
    cases ho
  | @done _ done' _ _ hplans'' hvisits =>
    obtain ⟨rfl, rfl⟩ := hplans''.unique hplans'
    obtain ⟨_, ho, ht⟩ := hwalk hvisits
    cases ho
    refine ⟨d', hrun, fun x => ?_⟩
    by_cases hx : Settled done' x
    · exact ht.settled x hx
    · have hnone := Option.eq_none_iff_forall_ne_some.mpr fun k hk =>
        hx (hvisits.settled_all hsite' hhashes' (hkept' ▸ fun _ => rfl) hk)
      have hheader := ht.headers x
      rw [hnone, Option.map_none, eq_comm, Option.map_eq_none_iff] at hheader
      rw [hnone, hheader]

end Registration

end ClassLang
