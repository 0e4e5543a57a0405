import ClassLang.Proofs.Class.Bindings
import ClassLang.Proofs.Class.Graph
import ClassLang.Proofs.Order.Names
import ClassLang.Proofs.Safety.Headers

/-!
# Headers in another order

Template parameters, bases and linearizations are filled in class by class, and no class needs those
of another one. Inherited template arguments do: a class takes them over from its bases. But as all
classes come after their bases, in either order they have recorded what their bases say, and there
is only one way to do so.
-/

namespace ClassLang

open CompileM Lowering Registration

theorem Dispatch.HeaderSteps.yields {p : Program} {ps ordered : List PendingClass}
    {c c₁ c₂ c₃ c₄ c' : Compilation} (h : HeaderSteps p ps ordered c c₁ c₂ c₃ c₄ c') :
    Yields (runHeaders p) c (ps, ordered) c' := by
  simp only [runHeaders, yields_bind, yields_fromRegistry, yields_pure]
  exact ⟨ps, c₁, h.declared, (), c₂, h.resolved, (), c₃, h.linearized, (), c₄, h.checked, ordered, c₄,
    ⟨h.order, rfl⟩, (), c', h.inherited, rfl, rfl⟩

namespace Registration

/-- Template parameters play no part in how they are resolved. -/
def plain (k : Class) : Class := { k with id := 0, templates := [] }

instance : Untagged plain := ⟨fun _ => rfl⟩

instance (p : PendingClass) : Fills plain (some p.hash) (resolveTemplates p) := by
  have hfill : ∀ ts, Fills plain (some p.hash)
      (modifyClass p.hash fun c => { c with templates := ts }) := fun ts =>
    fills_modifyClass (fun _ => rfl) fun _ => rfl
  unfold resolveTemplates
  infer_instance

instance (p : PendingClass) : Fills Class.baseless (some p.hash) (resolveBases p) := by
  have hfill : ∀ bases, Fills Class.baseless (some p.hash)
      (modifyClass p.hash fun c => { c with bases := bases }) := fun bases =>
    fills_modifyClass (fun _ => rfl) fun _ => rfl
  unfold resolveBases
  refine @fills_inModule _ _ _ _ _ ?_
  refine @fills_bind _ _ _ _ _ _ _ fun written => ?_
  dsimp only
  split
  · refine ⟨fun _ h => ?_⟩
    simp at h
  · infer_instance

variable {ps qs : List PendingClass} {c c' d : Compilation} {u : Unit}

theorem pairwise_hash (h : (ps.map (·.hash)).Nodup) :
    ps.Pairwise fun p q => some p.hash = none ∨ some q.hash ≠ some p.hash :=
  (List.pairwise_map.mp h).imp fun hne => .inr fun heq => hne (Option.some.inj heq).symm

theorem resolveHeaders_perm (hperm : ps.Perm qs) (hnodup : (ps.map (·.hash)).Nodup) (halike : c.Alike d)
    (h : Yields (resolveHeaders ps) c u c') : ∃ d', Yields (resolveHeaders qs) d u d' ∧ c'.Alike d' := by
  obtain ⟨c₁, c₂, htemplates, hbases, rfl⟩ := yields_resolveHeaders h
  have halike₀ : ({ c with deferring := true } : Compilation).Alike { d with deferring := true } :=
    ⟨congrArg (fun v : View => { v with deferring := true }) halike.view, halike.deferred⟩
  obtain ⟨d₁, htemplates', halike₁⟩ :=
    forM_perm (π := plain) hperm (pairwise_hash hnodup) halike₀ htemplates
  obtain ⟨d₂, hbases', halike₂⟩ :=
    forM_perm (π := Class.baseless) hperm (pairwise_hash hnodup) halike₁ hbases
  refine ⟨{ d₂ with deferring := false }, ?_,
    congrArg (fun v : View => { v with deferring := false }) halike₂.view, halike₂.deferred⟩
  have hrun : Yields (do qs.forM resolveTemplates; qs.forM resolveBases)
    { d with deferring := true } u d₂ :=
    yields_bind.mpr ⟨(), d₁, htemplates', hbases'⟩
  unfold resolveHeaders
  refine yields_bind.mpr
    ⟨(), _, yields_modify.mpr rfl, yields_bind.mpr ⟨.ok u, d₂, yields_attempt.mpr hrun, ?_⟩⟩
  exact yields_bind.mpr ⟨(), _, yields_modify.mpr rfl, yields_conclude.mpr ⟨rfl, rfl⟩⟩

theorem checkDeferred_perm (halike : c.Alike d) (h : Yields checkDeferred c u c') :
    ∃ d', Yields checkDeferred d u d' ∧ c'.Alike d' := by
  unfold checkDeferred at h ⊢
  simp only [yields_bind, yields_get, yields_modify, and_assoc, exists_and_left, exists_eq_left] at h ⊢
  obtain ⟨_, hchecks⟩ := h
  have halike₀ : ({ c with deferred := [] } : Compilation).Alike { d with deferred := [] } :=
    ⟨halike.view, .refl _⟩
  obtain ⟨d', hchecks', halike'⟩ :=
    forM_perm (π := Class.baseless) (κ := fun _ => none) halike.deferred.symm
    (List.pairwise_of_forall fun _ _ => .inl rfl) halike₀ hchecks
  exact ⟨d', ⟨(), hchecks'⟩, halike'⟩

/-! ## Linearizations -/

/-- Linearize one class, with nothing remembered. -/
def recordOrder (bases : Linearization.Bases) (p : PendingClass) : CompileM Unit :=
  match Linearization.plainOrder bases p.hash with
  | .ok mro => modifyClass p.hash fun c => { c with mro := mro }
  | .error e => do
    let cause ← fromRegistry (hierarchyCause · e)
    inModule p.path (fail cause p.decl.span)

/-- What is remembered makes no difference. -/
theorem yields_linearizeFrom_iff {bases : Linearization.Bases} :
    ∀ {memo : Linearization.Memo} {c : Compilation}, Linearization.Consistent bases memo →
      (Yields (linearizeFrom bases ps memo) c u c' ↔ Yields (ps.forM (recordOrder bases)) c u c') := by
  induction ps with
  | nil =>
    intro memo c _
    simp [linearizeFrom]
  | cons p ps ih =>
    intro memo c hmemo
    have hanswer := Linearization.linearize_eq_plainOrder hmemo p.hash
    have hnext := (Linearization.linearize_spec bases p.hash memo).1.consistent hmemo
    rw [yields_forM_cons, linearizeFrom, show recordOrder bases p = _ from rfl, recordOrder, ← hanswer]
    rcases hrun : Linearization.linearize bases p.hash memo with ⟨e | mro, memo'⟩
    · -- A step that fails in a module fails.
      have hfails : ∀ {c c' : Compilation} {u : Unit} {cause : Cause},
          ¬Yields (inModule p.path (fail cause p.decl.span)) c u c' := by
        intro c c' u cause h
        obtain ⟨_, _, hfail, _⟩ := inModule_effect h
        exact yields_fail.mp hfail
      simp only [yields_bind, hfails, and_false, false_and, exists_false]
    · rw [hrun] at hnext
      simp only [yields_bind, ih hnext]

/-- The position of a class in the hierarchy is not part of what its linearization depends on. -/
def unordered (k : Class) : Class := { k with id := 0, mro := [] }

instance : Untagged unordered := ⟨fun _ => rfl⟩

instance (bases : Linearization.Bases) (p : PendingClass) :
    Fills unordered (some p.hash) (recordOrder bases p) := by
  unfold recordOrder
  split
  · exact fills_modifyClass (fun _ => rfl) fun _ => rfl
  · refine ⟨fun _ h => ?_⟩
    obtain ⟨_, _, _, h⟩ := yields_bind.mp h
    obtain ⟨_, _, hfail, _⟩ := inModule_effect h
    exact (yields_fail.mp hfail).elim

theorem order_congr {bases bases' : Linearization.Bases}
    (h : ∀ k, Linearization.directBases bases' k = Linearization.directBases bases k) :
    ∀ (n : Nat) (visiting : List TypeHash) (k : TypeHash),
      Linearization.order bases' n visiting k = Linearization.order bases n visiting k
  | 0, _, _ => rfl
  | n + 1, visiting, k => by
    rw [Linearization.order, Linearization.order, h, funext (order_congr h n (k :: visiting))]

/-- Linearizations depend on nothing but the bases of classes. -/
theorem plainOrder_congr {bases bases' : Linearization.Bases}
    (h : ∀ k, Linearization.directBases bases' k = Linearization.directBases bases k) (k : TypeHash) :
    Linearization.plainOrder bases' k = Linearization.plainOrder bases k := by
  have hlarge : ∀ {bases : Linearization.Bases} {n : Nat}, bases.entries.length + 2 ≤ n →
      Linearization.plainOrder bases k = Linearization.order bases n [] k := fun hn =>
    Linearization.order_eq_of_lt (Linearization.unvisited_lt ..)
      (Nat.lt_of_lt_of_le (Linearization.unvisited_lt ..) hn)
  rw [hlarge (Nat.le_max_left (bases'.entries.length + 2) (bases.entries.length + 2)),
    hlarge (Nat.le_max_right (bases'.entries.length + 2) (bases.entries.length + 2)), order_congr h]

/-- What the table of bases says about any class. -/
theorem directBases_value {r : Registry} (hd : Declared r ps) {t : Linearization.Bases}
    (h : directBases r ps = .ok t) (k : TypeHash) :
    Linearization.directBases t k = ((r.class? k).map baseHashes).getD [] := by
  cases hk : r.class? k with
  | some d => exact directBases_eq hd h hk
  | none =>
    rcases directBases_from (t := .empty) h k with ⟨d, hd, _⟩ | ⟨_, hnone⟩
    · rw [hk] at hd
      cases hd
    · unfold Linearization.directBases
      rw [hnone]
      rfl

theorem linearizeAll_perm (hperm : ps.Perm qs) (hc : Declared c.registry ps) (hd : Declared d.registry qs)
    (halike : c.Alike d) (h : Yields (linearizeAll ps) c u c') :
    ∃ d', Yields (linearizeAll qs) d u d' ∧ c'.Alike d' := by
  have hnodup := (List.nodup_cons.mp hc.distinct).2
  unfold linearizeAll at h ⊢
  simp only [yields_bind, yields_askRegistry, and_assoc, exists_and_left, exists_eq_left] at h ⊢
  obtain ⟨t, ht, h⟩ := h
  obtain ⟨t', ht'⟩ : ∃ t', directBases d.registry qs = .ok t' :=
    directBases_ok fun q hq => (hd.registered q hq).imp fun _ => And.left
  -- The tables may list the classes differently, but they say the same.
  have hsame : ∀ k, Linearization.directBases t' k = Linearization.directBases t k := by
    intro k
    have hview : (d.registry.class? k).map Class.untagged = (c.registry.class? k).map Class.untagged :=
      congrFun (congrArg View.classes halike.view) k
    have hbases : ∀ o : Option Class, o.map baseHashes = (o.map Class.untagged).map baseHashes := by
      intro o
      rw [Option.map_map]
      rfl
    rw [directBases_value hc ht, directBases_value hd ht', hbases, hview, ← hbases]
  have hstep : recordOrder t' = recordOrder t := by
    funext p
    unfold recordOrder
    rw [plainOrder_congr hsame]
  have hempty := Linearization.consistent_empty
  obtain ⟨d', hrun, halike'⟩ := forM_perm (π := unordered) hperm (pairwise_hash hnodup) halike
    ((yields_linearizeFrom_iff (hempty t)).mp h)
  exact ⟨d', ⟨t', ht', (yields_linearizeFrom_iff (hempty t')).mpr (hstep ▸ hrun)⟩, halike'⟩

/-! ## Inherited template arguments -/

theorem yields_inheritArgs {p : PendingClass} : Yields (inheritArgs p) c u c' ↔
    ∃ k args, c.registry.class? p.hash = some k ∧ inheritedArgs c.registry k.bases .empty = .ok args ∧
      c' = { c with registry := c.registry.modifyClass p.hash fun k =>
        { k with inherited := args } } := by
  simp only [inheritArgs, yields_bind, yields_askRegistry, yields_modifyClass, and_assoc,
    exists_and_left, exists_eq_left, Registry.getClass_eq_ok]
  constructor
  · rintro ⟨k, hk, args, hargs, -, hc'⟩
    exact ⟨k, hk, args, hargs, hc'⟩
  · rintro ⟨k, hk, args, hargs, hc'⟩
    exact ⟨k, hk, args, hargs, ⟨k, hk⟩, hc'⟩

/-- What inherited arguments are made from. -/
def unbound (k : Class) : Class := { k with id := 0, inherited := .empty }

instance : Untagged unbound := ⟨fun _ => rfl⟩

/-- Nothing but what is inherited is filled in. -/
theorem inheritAll_effect (h : Yields (qs.forM inheritArgs) c u c') :
    ∃ r, c' = { c with registry := r } ∧ c.registry.Changes (fun _ => True) unbound r := by
  refine forM_induction (fun k => ∃ r, k = { c with registry := r } ∧
    c.registry.Changes (fun _ => True) unbound r) ?_ ⟨c.registry, rfl, .refl ..⟩ h
  rintro q - _ _ _ ⟨r, rfl, hchanges⟩ hstep
  obtain ⟨k, args, -, -, rfl⟩ := yields_inheritArgs.mp hstep
  exact ⟨_, rfl, hchanges.trans (.modifyClass trivial fun _ => rfl)⟩

theorem inheritedArgs_total {r : Registry} {ts : List Ty} :
    ∀ known : Table TypeHash (List Ty), (∀ b ∈ ts.filterMap (·.classHash?), ∃ k, r.class? b = some k) →
      ∃ args, inheritedArgs r ts known = .ok args := by
  induction ts with
  | nil => exact fun known _ => ⟨known, rfl⟩
  | cons t ts ih =>
    intro known hbases
    unfold inheritedArgs
    cases hash : t.classHash? with
    | none =>
      rw [List.filterMap_cons_none hash] at hbases
      exact ih known hbases
    | some b =>
      rw [List.filterMap_cons_some hash] at hbases
      obtain ⟨⟨base, hbase⟩, hrest⟩ := List.forall_mem_cons.mp hbases
      obtain ⟨args, hargs⟩ := ih (addInherited base t known) hrest
      exact ⟨args, except_bind_eq_ok.mpr ⟨base, Registry.getClass_eq_ok.mpr hbase, hargs⟩⟩

/-- Arguments can be taken over from bases that are registered. -/
theorem inheritAll_total : ∀ (qs : List PendingClass) {c : Compilation},
    (∀ q ∈ qs, ∃ k, c.registry.class? q.hash = some k ∧
      ∀ b ∈ baseHashes k, ∃ e, c.registry.class? b = some e) →
    ∃ c', Yields (qs.forM inheritArgs) c () c'
  | [], c, _ => ⟨c, yields_forM_nil.mpr rfl⟩
  | q :: qs, c, hqs => by
    obtain ⟨⟨k, hk, hbases⟩, hqs⟩ := List.forall_mem_cons.mp hqs
    obtain ⟨args, hargs⟩ := inheritedArgs_total .empty hbases
    have hchanges : c.registry.Changes (fun _ => True) unbound
        (c.registry.modifyClass q.hash fun k => { k with inherited := args }) :=
      .modifyClass trivial fun _ => rfl
    obtain ⟨c', hrest⟩ := inheritAll_total qs (c := { c with
      registry := c.registry.modifyClass q.hash fun k => { k with inherited := args } }) fun p hp => by
        obtain ⟨e, he, hbases⟩ := hqs p hp
        obtain ⟨e', he', heq⟩ := hchanges.exists_class he
        have hsame : e'.bases = e.bases := (congrArg Class.bases heq :)
        refine ⟨e', he', fun b hb => ?_⟩
        rw [baseHashes, hsame] at hb
        obtain ⟨base, hbase⟩ := hbases b hb
        exact (hchanges.exists_class hbase).imp fun _ => And.left
    exact ⟨c', yields_forM_cons.mpr ⟨(), _, yields_inheritArgs.mpr ⟨k, args, hk, hargs, rfl⟩, hrest⟩⟩

/-- There is one way to record what the bases say. -/
theorem untagged_of_records {r r' : Registry} (hr : Hierarchy r) (hrec : Records r) (hrec' : Records r')
    (hsame : ∀ x, (r'.class? x).map unbound = (r.class? x).map unbound)
    (x : TypeHash) : (r'.class? x).map Class.untagged = (r.class? x).map Class.untagged := by
  have hfound : ∀ {x k}, r.class? x = some k → ∃ k', r'.class? x = some k' ∧
    k'.untagged = k.untagged := by
    refine hr.induction (P := fun x k => ∃ k', r'.class? x = some k' ∧ k'.untagged = k.untagged)
      fun x k hk ih => ?_
    have hx := hsame x
    rw [hk, Option.map_some, Option.map_eq_some_iff] at hx
    obtain ⟨k', hk', heq⟩ := hx
    have hbases : k'.bases = k.bases := (congrArg Class.bases heq :)
    -- The bases agree by induction, and the record is a function of them.
    have hinherited : k'.inherited = k.inherited := by
      have hargs := hrec' x k' hk'
      rw [hbases, inheritedArgs_congr_of (π := Class.untagged) (r := r) ?_ ?_, hrec x k hk] at hargs
      · injection hargs with hargs
        exact hargs.symm
      · intro e e' he
        exact (congrArg addInherited he :)
      · intro t ht b hb
        have hmem : b ∈ baseHashes k := List.mem_filterMap.mpr ⟨t, ht, hb⟩
        obtain ⟨e, he⟩ := hr.bases hk b hmem
        obtain ⟨e', he', heq⟩ := ih b hmem e he
        rw [he, he', Option.map_some, Option.map_some, heq]
    refine ⟨k', hk', ?_⟩
    -- The headers agree but for the record, which is put back on both sides.
    have hset := congrArg (fun e : Class => { e with inherited := k.inherited }) heq
    have hset' : ({ k'.untagged with inherited := k.inherited } : Class) = k.untagged := hset
    rw [← hset', ← hinherited]
    rfl
  cases hk : r.class? x with
  | some k =>
    obtain ⟨k', hk', heq⟩ := hfound hk
    rw [hk', Option.map_some, Option.map_some, heq]
  | none =>
    have hx := hsame x
    rw [hk, Option.map_none, Option.map_eq_none_iff] at hx
    rw [hx]

/-- Bases that are registered in one order are registered in the other, so arguments can be taken
over. -/
theorem exists_inheritAll {ordered ordered' : List PendingClass} (hperm : ordered'.Perm ps)
    (hheaded : Dispatch.Headed c'.registry ps ordered) (halike : c.Alike d)
    (h : Yields (ordered.forM inheritArgs) c u c') : ∃ d',
    Yields (ordered'.forM inheritArgs) d () d' := by
  obtain ⟨r, rfl, hchanges⟩ := inheritAll_effect h
  have hfound : ∀ {x k}, r.class? x = some k → ∃ e, d.registry.class? x = some e ∧ e.bases = k.bases := by
    intro x k hk
    obtain ⟨k₀, hk₀, heq⟩ := hchanges.exists_class_before hk
    obtain ⟨e, he, heq'⟩ := exists_class_of_view (halike.view_eq unbound) hk₀
    have hbases := congrArg Class.bases (heq'.trans heq)
    exact ⟨e, he, hbases⟩
  refine inheritAll_total ordered' fun q hq => ?_
  obtain ⟨k, hk, -⟩ := hheaded.declared.registered q (hperm.mem_iff.mp hq)
  obtain ⟨e, he, heq⟩ := hfound hk
  refine ⟨e, he, fun b hb => ?_⟩
  rw [baseHashes, heq] at hb
  obtain ⟨base, hbase⟩ := hheaded.hierarchy.bases hk b hb
  exact (hfound hbase).imp fun _ => And.left

theorem inheritAll_alike {ordered ordered' : List PendingClass} {d' : Compilation} (halike : c.Alike d)
    (hr : Hierarchy c'.registry) (hrec : Records c'.registry) (hrec' : Records d'.registry)
    (h : Yields (ordered.forM inheritArgs) c u c') (h' : Yields (ordered'.forM inheritArgs) d u d') :
    c'.Alike d' := by
  obtain ⟨r, rfl, hchanges⟩ := inheritAll_effect h
  obtain ⟨r', rfl, hchanges'⟩ := inheritAll_effect h'
  have hclasses := untagged_of_records hr hrec hrec' fun x => by
    have hx : (d.registry.class? x).map unbound = (c.registry.class? x).map unbound :=
      congrFun (congrArg View.classes (halike.view_eq unbound)) x
    exact (hchanges'.shown x).trans (hx.trans (hchanges.shown x).symm)
  have hsize : r'.pointerSize = r.pointerSize := by
    rw [hchanges'.pointerSize, hchanges.pointerSize]
    exact congrArg View.pointerSize halike.view
  refine ⟨?_, halike.deferred⟩
  show { d.view Class.untagged with
    classes := fun x => (r'.class? x).map Class.untagged, pointerSize := r'.pointerSize } =
    { c.view Class.untagged with
      classes := fun x => (r.class? x).map Class.untagged, pointerSize := r.pointerSize }
  rw [halike.view, hsize, funext hclasses]

/-! ## All headers -/

/-- The headers of classes do not depend on the order. -/
theorem runHeaders_perm {p p' : Program} (hp : p.Rearranges p') {ordered : List PendingClass}
    (hc : Declared c.registry []) (hnone : c.deferred = [])
    (h : Yields (Dispatch.runHeaders p) c (ps, ordered) c') :
    ∃ qs ordered' d', ps.Perm qs ∧ Yields (Dispatch.runHeaders p') c (qs, ordered') d' ∧ c'.Alike d' := by
  obtain ⟨c₁, c₂, c₃, c₄, hsteps⟩ := Dispatch.yields_runHeaders h
  have hchanges := hsteps.changes hc
  have hheaded := Dispatch.runHeaders_headed hc h
  obtain ⟨qs, d₁, hperm, hdeclared, halike₁⟩ := declareModules_perm hp hnone hsteps.declared
  have hps := (List.nodup_cons.mp hchanges.declared.distinct).2
  obtain ⟨d₂, hresolved, halike₂⟩ := resolveHeaders_perm hperm hps halike₁ hsteps.resolved
  -- For the linearizations it matters that both registries hold the declared classes and no others.
  have hc₂ := hchanges.declared.changes (hchanges.resolved.coarsen lasting fun _ => rfl)
  have hd₁ : Declared d₁.registry qs := declareModules_declared hc hdeclared
  have hd₂ := hd₁.changes ((resolveHeaders_changes hresolved).coarsen lasting fun _ => rfl)
  obtain ⟨d₃, hlinearized, halike₃⟩ := linearizeAll_perm hperm hc₂ hd₂ halike₂ hsteps.linearized
  obtain ⟨d₄, hchecked, halike₄⟩ := checkDeferred_perm halike₃ hsteps.checked
  obtain ⟨d', hinherited⟩ :=
    exists_inheritAll ((byAncestry_perm d₄.registry qs).trans hperm.symm) hheaded halike₄
    hsteps.inherited
  have hsteps' : Dispatch.HeaderSteps p' qs _ c d₁ d₂ d₃ d₄ d' :=
    ⟨hdeclared, hresolved, hlinearized, hchecked, rfl, hinherited⟩
  have hrecords := inheritAll_records hheaded hsteps.inherited
  have hrecords' := inheritAll_records (Dispatch.runHeaders_headed hc hsteps'.yields) hinherited
  exact ⟨qs, _, d', hperm, hsteps'.yields,
    inheritAll_alike halike₄ hheaded.hierarchy hrecords hrecords' hsteps.inherited hinherited⟩

end Registration

end ClassLang
