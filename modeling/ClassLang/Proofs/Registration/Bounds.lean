import ClassLang.Proofs.Registration.Resolution
import ClassLang.Proofs.Registration.Visible

/-!
# The types that a class body writes

Bases are resolved before any hierarchy is known, so the bounds of their template arguments are put
off and checked as soon as every class is linearized. The types of fields and of signatures are
resolved later and checked at once. In the end every instance that a class body writes has its
arguments within their bounds, and mentions no template parameters but those of the class.
-/

namespace ClassLang

open CompileM

/-- A type that is written in the body of the class `h`: its instances have their arguments within
their bounds, and its template parameters are those of the class. -/
def Registry.Written (r : Registry) (h : TypeHash) (t : Ty) : Prop :=
  ∃ k, r.class? h = some k ∧ t.Resolved r r.Below k.templates

/-- What is written in a class body depends on nothing but headers. -/
theorem Registry.Written.congr {r r' : Registry} (hr : Registration.SameHeaders r r')
    {h : TypeHash} {t : Ty} (ht : r.Written h t) : r'.Written h t := by
  obtain ⟨k, hk, hresolved⟩ := ht
  have hmap : ∀ {γ : Type} (g : Class → γ), (∀ c, g (Registration.header c) = g c) →
      ∀ a, (r'.class? a).map g = (r.class? a).map g := by
    intro γ g hg a
    have ha := congrArg (Option.map g) (hr a)
    rwa [Option.map_map, Option.map_map, show g ∘ Registration.header = g from funext hg] at ha
  obtain ⟨k', hk', heq⟩ := hr.exists_class hk
  have htemplates : k'.templates = k.templates := (congrArg Class.templates heq :)
  refine ⟨k', hk', htemplates ▸ ?_⟩
  exact (hresolved.congr (hmap Class.templates fun _ => rfl)).imp fun a b =>
    Below.congr (hmap Class.mro fun _ => rfl)

namespace Registration

variable {V : Binding → Prop} {b : Bool} {r : Registry} {ps : List TemplateParam}

/-! ## Declarations -/

theorem resolveField_resolved (f : FieldDecl) {c c' : Compilation} {d : OwnField}
    (hr : c.registry = r) (hsees : SeesParams ps c) (h : Yields (resolveField f) c d c') :
    PutsOff c c' ∧ ∀ t ∈ [d.type], t.Resolved r c'.Admits ps := by
  simp only [resolveField, yields_bind, yields_pure] at h
  obtain ⟨t, c₁, ht, _, c₂, hstorable, rfl, rfl⟩ := h
  have hsame : c' = c₁ := hstorable.keeps (f := id)
  subst hsame
  obtain ⟨hoff, ht⟩ := resolveType_resolved f.type hr hsees ht
  exact ⟨hoff, List.forall_mem_singleton.mpr ht⟩

theorem resolveParam_resolved (p : Param) {c c' : Compilation} {t : Ty}
    (hr : c.registry = r) (hsees : SeesParams ps c) (h : Yields (resolveParam p) c t c') :
    PutsOff c c' ∧ ∀ u ∈ [t], u.Resolved r c'.Admits ps := by
  simp only [resolveParam, yields_bind, yields_pure] at h
  obtain ⟨t, c₁, ht, _, c₂, hstorable, rfl, rfl⟩ := h
  have hsame : c' = c₁ := hstorable.keeps (f := id)
  subst hsame
  obtain ⟨hoff, ht⟩ := resolveType_resolved p.type hr hsees ht
  exact ⟨hoff, List.forall_mem_singleton.mpr ht⟩

/-- A result that is a template parameter itself is refused. -/
theorem checkResult_resolved {d : FunctionDecl} {params : List Ty} {c c' : Compilation} {t : Ty}
    {s : List Ty × Ty} (hparams : ∀ u ∈ params, u.Resolved r c.Admits ps) (ht : t.Resolved r c.Admits ps)
    (h : Yields (do
      if let .param n _ := t then fail (.typing (.parameterReturned n)) d.span
      return (params, t)) c s c') :
    c' = c ∧ ∀ u ∈ s.2 :: s.1, u.Resolved r c'.Admits ps := by
  cases t with
  | param n b => simp at h
  | _ =>
    obtain ⟨rfl, rfl⟩ := yields_pure.mp h
    exact ⟨rfl, List.forall_mem_cons.mpr ⟨ht, hparams⟩⟩

theorem resolveSignature_resolved {d : FunctionDecl} {c c' : Compilation} {s : List Ty × Ty}
    (hr : c.registry = r) (hsees : SeesParams ps c) (h : Yields (resolveSignature d) c s c') :
    PutsOff c c' ∧ ∀ t ∈ s.2 :: s.1, t.Resolved r c'.Admits ps := by
  simp only [resolveSignature, yields_bind] at h
  obtain ⟨params, c₁, hparams, h⟩ := h
  obtain ⟨hoff₁, hparams⟩ := mapM_resolved (fun t => [t]) resolveParam_resolved hr hsees
    hparams
  rw [List.flatMap_singleton'] at hparams
  split at h
  · rename_i e _
    obtain ⟨t, c₂, ht, h⟩ := yields_bind.mp h
    obtain ⟨hoff₂, ht⟩ := resolveType_resolved e (hoff₁.registry.trans hr) (hsees.putsOff hoff₁) ht
    have hparams₂ : ∀ u ∈ params, u.Resolved r c₂.Admits ps := fun u hu =>
      (hparams u hu).imp fun _ _ => hoff₂.admits
    obtain ⟨rfl, hs⟩ := checkResult_resolved hparams₂ ht h
    exact ⟨hoff₁.trans hoff₂, hs⟩
  · obtain ⟨t, c₂, ht, h⟩ := yields_bind.mp h
    obtain ⟨rfl, rfl⟩ := yields_pure.mp ht
    obtain ⟨rfl, hs⟩ := checkResult_resolved (d := d) hparams (.of_leaf rfl rfl : Ty.void.Resolved ..) h
    exact ⟨hoff₁, hs⟩

/-! ## Bases -/

theorem resolveBases_resolved {p : PendingClass} {c c' : Compilation} {u : Unit}
    (hc : c.Outside V true) (h : Yields (resolveBases p) c u c') :
    ∃ k bases, c.registry.class? p.hash = some k ∧ (k.templates.map (·.name)).Nodup ∧
      (∀ t ∈ bases, t.Resolved c.registry (Awaits c'.deferred) k.templates) ∧
      c.deferred ⊆ c'.deferred ∧
      c'.registry = c.registry.modifyClass p.hash fun k => { k with bases := bases } := by
  unfold resolveBases at h
  obtain ⟨c₁, scope, scopes, hbody, _, rfl⟩ := inModule_spec h
  have hentered := Modular.enter p.path hc
  obtain ⟨written, c₂, hwritten, hbody⟩ := yields_bind.mp hbody
  have hdefer₂ := (hwritten.preserves hentered).2
  have hregistry₂ : c₂.registry = c.registry := hwritten.keeps (f := Compilation.registry)
  obtain ⟨k, hk, hnodup, hresolved, hgrows⟩ := inClass_resolved id hentered.1
    (fun hr hsees hrun => by
      have hrun := mapM_resolved (fun t => [t]) (fun e {_ _ _} hr hsees h => by
        obtain ⟨hoff, ht⟩ := resolveClass_resolved (e := e) hr hsees h
        exact ⟨hoff, List.forall_mem_singleton.mpr ht⟩) hr hsees hrun
      rwa [List.flatMap_singleton'] at hrun) hwritten
  -- A class without bases extends the root, which has no arguments to be checked.
  have hbases : ∀ t ∈ (if written.isEmpty then [Ty.classRef Class.rootHash] else written),
      t.Resolved c.registry (Awaits c₂.deferred) k.templates := by
    split
    · exact List.forall_mem_singleton.mpr (.of_leaf rfl rfl)
    · intro t ht
      refine (hresolved t ht).imp fun a b hadmits => ?_
      rwa [Compilation.Admits, if_pos hdefer₂] at hadmits
  dsimp only at hbody
  generalize (if written.isEmpty then [Ty.classRef Class.rootHash] else written) = bases
    at hbody hbases
  split at hbody
  · simp at hbody
  · obtain ⟨_, rfl⟩ := yields_modifyClass.mp hbody
    exact ⟨k, bases, hk, hnodup, hbases, hgrows, by rw [hregistry₂]⟩

/-- While the bases of classes are resolved, more and more checks are put off. -/
theorem forM_resolveBases_deferred {qs : List PendingClass} {c c' : Compilation} {u : Unit}
    (hc : c.Outside V true) (h : Yields (qs.forM resolveBases) c u c') :
    c.deferred ⊆ c'.deferred := by
  refine (forM_induction (fun k => k.Outside V true ∧ c.deferred ⊆ k.deferred)
    (fun q _ k _ k' hk hstep => ?_) ⟨hc, List.Subset.refl _⟩ h).2
  obtain ⟨_, _, _, _, _, hmore, _⟩ := resolveBases_resolved hk.1 hstep
  exact ⟨hstep.preserves hk.1, List.Subset.trans hk.2 hmore⟩

/-- When headers are resolved, the template parameters of every class have different names, and
the template arguments in its bases await their checks. -/
theorem resolveHeaders_resolved {ps : List PendingClass} {c c' : Compilation} {u : Unit}
    (hd : Declared c.registry ps) (hc : c.Outer V) (h : Yields (resolveHeaders ps) c u c')
    {k : TypeHash} {d : Class} (hk : c'.registry.class? k = some d) :
    (d.templates.map (·.name)).Nodup ∧
      ∀ t ∈ d.bases, t.Resolved c'.registry (Awaits c'.deferred) d.templates := by
  have hd' := hd.changes ((resolveHeaders_changes h).coarsen lasting fun _ => rfl)
  rcases hd'.known k d hk with rfl | ⟨p, hp, rfl⟩
  · have hroot := hd'.rootClass
    rw [hk] at hroot
    injection hroot with hroot
    rw [hroot]
    exact ⟨List.nodup_nil, List.forall_mem_nil _⟩
  · obtain ⟨c₁, c₂, htemplates, hbases, rfl⟩ := yields_resolveHeaders h
    have hstart : Compilation.Outside V true { c with deferring := true } :=
      ⟨hc.mono (fun _ => id) rfl rfl (.refl _), rfl⟩
    have hc₁ := htemplates.preserves hstart
    obtain ⟨before, after, rfl⟩ := List.append_of_mem hp
    rw [yields_forM_append] at hbases
    obtain ⟨_, c₃, hbefore, hbases⟩ := hbases
    rw [yields_forM_cons] at hbases
    obtain ⟨_, c₄, hstep, hafter⟩ := hbases
    have hc₃ := hbefore.preserves hc₁
    have hc₄ := hstep.preserves hc₃
    obtain ⟨d₀, bases, hd₀, hnodup, hresolved, _, hset⟩ := resolveBases_resolved hc₃ hstep
    -- No class is resolved twice, so the bases stay what they are.
    have hlast : ¬Pending after p.hash := by
      rintro ⟨q, hq, heq⟩
      have hdistinct := (List.nodup_cons.mp hd.distinct).2
      rw [List.map_append, List.map_cons] at hdistinct
      exact (List.nodup_cons.mp (List.nodup_append.mp hdistinct).2.1).1
        (heq ▸ List.mem_map_of_mem hq)
    have hchanges := forM_changes (π := fun k : Class => { k with bases := [] })
      (fun q hq k _ k' hstep => by
        obtain ⟨bases, _, hb⟩ := resolveBases_effect hstep
        rw [hb]
        exact .modifyClass ⟨q, hq, rfl⟩ fun _ => rfl) hafter
    have hk : c₂.registry.class? p.hash = some d := hk
    rw [hchanges.outside _ hlast, hset, Registry.class?_modifyClass, if_pos rfl, hd₀,
      Option.map_some] at hk
    injection hk with hk
    subst hk
    have hsame : ∀ h, (c₂.registry.class? h).map Class.templates =
        (c₃.registry.class? h).map Class.templates := by
      intro a
      have hstep : c₃.registry.Changes (fun _ => True) Class.templates c₄.registry :=
        hset ▸ .modifyClass trivial fun _ => rfl
      exact ((hchanges.coarsen Class.templates fun _ => rfl).shown a).trans (hstep.shown a)
    refine ⟨hnodup, fun t ht => ((hresolved t ht).congr hsame).imp fun a b => ?_⟩
    rintro ⟨check, hcheck, heq⟩
    exact ⟨check, forM_resolveBases_deferred hc₄ hafter hcheck, heq⟩

theorem linearizeFrom_deferred {bases : Linearization.Bases} {ps : List PendingClass} :
    ∀ {memo : Linearization.Memo} {c c' : Compilation} {u : Unit},
      Yields (linearizeFrom bases ps memo) c u c' → c'.deferred = c.deferred := by
  induction ps with
  | nil =>
    intro memo c c' u h
    exact congrArg Compilation.deferred (yields_pure.mp h).2
  | cons p ps ih =>
    intro memo c c' u h
    unfold linearizeFrom at h
    split at h
    · simp only [yields_bind] at h
      obtain ⟨_, _, _, hfail⟩ := h
      obtain ⟨_, _, hfail, _⟩ := inModule_effect hfail
      simp at hfail
    · simp only [yields_bind, yields_modifyClass, and_assoc, exists_and_left, exists_eq_left] at h
      obtain ⟨_, _, h⟩ := h
      exact (ih h :)

theorem linearizeAll_deferred {ps : List PendingClass} {c c' : Compilation} {u : Unit}
    (h : Yields (linearizeAll ps) c u c') : c'.deferred = c.deferred := by
  simp only [linearizeAll, yields_bind, yields_askRegistry] at h
  obtain ⟨_, _, ⟨_, rfl⟩, h⟩ := h
  exact linearizeFrom_deferred h

/-- Every template argument that awaited its check has passed it. -/
theorem checkDeferred_below {c c' : Compilation} {u : Unit} (h : Yields checkDeferred c u c') :
    ∀ a b, Awaits c.deferred a b → c.registry.Below a b := by
  simp only [checkDeferred, yields_bind, yields_get, yields_modify, and_assoc, exists_and_left,
    exists_eq_left] at h
  obtain ⟨_, h⟩ := h
  have hall : ∀ {checks : List BoundCheck} {c₀ c' : Compilation} {u : Unit},
      Yields (checks.forM fun check => inModule check.path (Lowering.checkBound check)) c₀ u c' →
      ∀ check ∈ checks, ∀ b, check.bound = .classRef b → c₀.registry.Below check.arg b := by
    intro checks
    induction checks with
    | nil => exact fun _ => List.forall_mem_nil _
    | cons check checks ih =>
      intro c₀ c' u h
      rw [yields_forM_cons] at h
      obtain ⟨_, c₁, hcheck, hrest⟩ := h
      have hkept : c₁.registry = c₀.registry := hcheck.keeps
      refine List.forall_mem_cons.mpr ⟨fun b hb => ?_, hkept ▸ ih hrest⟩
      obtain ⟨c₂, _, hcheck, hbefore, _⟩ := inModule_effect hcheck
      exact hbefore ▸ (checkBound_below hb hcheck).1
  rintro a b ⟨check, hcheck, rfl, hb⟩
  exact hall h check hcheck b hb

/-! ## Headers -/

/-- The headers of all classes, once hierarchies are known. -/
theorem runHeaders_written {p : Program} {c c' : Compilation} {ps ordered : List PendingClass}
    (hd : Declared c.registry []) (hc : c.Outside V b)
    (h : Yields (Dispatch.runHeaders p) c (ps, ordered) c') :
    c'.Outside V false ∧ ∀ k d, c'.registry.class? k = some d →
      (d.templates.map (·.name)).Nodup ∧ ∀ t ∈ d.bases, c'.registry.Written k t := by
  obtain ⟨c₁, c₂, c₃, c₄, hsteps⟩ := Dispatch.yields_runHeaders h
  have hchanges := hsteps.changes hd
  have hc₁ := (hsteps.declared.preserves hc).1
  have hc₄ := hsteps.checked.preserves
    (hsteps.linearized.preserves (outside_resolveHeaders hc₁ hsteps.resolved))
  have hkept := hchanges.kept (fun k : Class => (k.templates, k.bases)) (fun _ => rfl) fun _ => rfl
  refine ⟨hsteps.inherited.preserves hc₄, fun k d hk => ?_⟩
  obtain ⟨d₂, hd₂, heq⟩ := hkept.exists_class_before hk
  obtain ⟨htemplates, hbases⟩ := Prod.mk.inj heq
  obtain ⟨hnodup, hresolved⟩ := resolveHeaders_resolved hchanges.declared hc₁ hsteps.resolved hd₂
  rw [← htemplates, ← hbases]
  refine ⟨hnodup, fun t ht => ⟨d, hk, htemplates ▸ ?_⟩⟩
  refine ((hresolved t ht).congr
    (hkept.coarsen (φ := Class.templates) Prod.fst fun _ => rfl).shown).imp ?_
  intro a b hawaits
  rw [← linearizeAll_deferred hsteps.linearized] at hawaits
  have hbelow := checkDeferred_below hsteps.checked a b hawaits
  have h₄ : c₄.registry = c₃.registry := hsteps.checked.keeps
  rw [← h₄] at hbelow
  exact hbelow.congr (hchanges.inherited.coarsen Class.mro fun _ => rfl).shown

/-- The fields of a class body. -/
theorem layoutPlan_written {p : PendingClass} {c c' : Compilation} {plan : LayoutPlan}
    (hc : c.Outside V false) (h : Yields (layoutPlan p) c plan c') :
    ∀ d ∈ plan.fields, c.registry.Written plan.pending.hash d.type := by
  simp only [layoutPlan, yields_bind, yields_pure] at h
  obtain ⟨fields, _, hfields, rfl, _⟩ := h
  obtain ⟨c₁, _, _, hbody, _, _⟩ := inModule_spec hfields
  have hentered := Modular.enter p.path hc
  obtain ⟨k, hk, _, hresolved, _⟩ := inClass_resolved (List.map OwnField.type) hentered.1
    (fun hr hsees hrun => by
      have hrun := mapM_resolved (fun d => [d.type]) resolveField_resolved hr hsees hrun
      rwa [← List.map_eq_flatMap] at hrun) hbody
  have hdefer₁ := (hbody.preserves hentered).2
  have hregistry₁ : c₁.registry = c.registry := hbody.keeps (f := Compilation.registry)
  intro d hd
  refine ⟨k, hk, (hresolved d.type (List.mem_map_of_mem hd)).imp fun a b hadmits => ?_⟩
  rw [Compilation.Admits, hdefer₁, hregistry₁] at hadmits
  exact hadmits

theorem layoutPlans_written {ps : List PendingClass} {c c' : Compilation} {plans : List LayoutPlan}
    (hc : c.Outside V false) (h : Yields (ps.mapM layoutPlan) c plans c') :
    ∀ plan ∈ plans, ∀ d ∈ plan.fields, c.registry.Written plan.pending.hash d.type := by
  refine (mapM_induction (fun c₁ => c₁.Outside V false ∧ c₁.registry = c.registry)
    (fun p _ c₁ plan c₂ ⟨hc₁, hkept⟩ hp => ?_) ⟨hc, rfl⟩ h).2
  exact ⟨⟨hp.preserves hc₁, hp.keeps.trans hkept⟩, hkept ▸ layoutPlan_written hc₁ hp⟩

/-! ## Signatures -/

/-- The types in the signatures of methods are written in class bodies. -/
def SignaturesWritten (r : Registry) : Prop :=
  ∀ id s h, r.function? id = some s → s.owner = .classOf h →
    ∀ t ∈ s.result :: s.params, r.Written h t

/-- Adding a function whose types are written in the body of its class, if it is a method. -/
theorem SignaturesWritten.push {r r' : Registry} {s : Signature} (h : SignaturesWritten r)
    (hr : r' = { r with functions := r.functions.push s })
    (hs : ∀ h, s.owner = .classOf h → ∀ t ∈ s.result :: s.params, r.Written h t) :
    SignaturesWritten r' := by
  subst hr
  have hsame : SameHeaders r { r with functions := r.functions.push s } := fun _ => rfl
  intro id s' k hs' howner t ht
  unfold Registry.function? at hs'
  rw [Array.getElem?_push] at hs'
  split at hs'
  · injection hs' with hs'
    subst hs'
    exact (hs k howner t ht).congr hsame
  · exact (h id s' k hs' howner t ht).congr hsame

/-- Outside of classes, with all signatures of methods written in class bodies. -/
def Registering (V : Binding → Prop) (c : Compilation) : Prop :=
  c.Outside V false ∧ SignaturesWritten c.registry

instance : Contextual (Registering V) where
  congr {c c'} hsame hc :=
    have hregistry : c'.registry = c.registry := (congrArg Compilation.registry hsame :)
    ⟨Contextual.congr hsame hc.1, hregistry ▸ hc.2⟩

instance : Modular (Registering V) where
  enter path hc := ⟨Modular.enter path hc.1, hc.2⟩
  leave path before hpop hc := ⟨Modular.leave path before hpop hc.1, hc.2⟩

instance (path : String) (d : FunctionDecl) : Preserves (Registering V) (registerFunction path d) where
  keeps hc h := by
    obtain ⟨_, _, _, _, hpush⟩ := registerFunction_effect h
    exact ⟨h.preserves hc.1, hc.2.push hpush fun k hk => by cases hk⟩

instance (path : String) (owner : TypeHash) (d : FunctionDecl) :
    Preserves (Registering V) (registerMethod path owner d) where
  keeps {c c' m} hc h := by
    obtain ⟨c₁, hsig, _, s, hdesc, hpush⟩ := registerMethod_effect h
    refine ⟨h.preserves hc.1, hc.2.push hpush fun k hk => ?_⟩
    rw [hdesc.owner_eq] at hk
    injection hk with hk
    subst hk
    obtain ⟨k, hk, _, hresolved, _⟩ := inClass_resolved
      (fun s : List Ty × Ty => s.2 :: s.1) hc.1.1 resolveSignature_resolved hsig
    have hdefer₁ := (hsig.preserves hc.1).2
    have hregistry₁ : c₁.registry = c.registry := hsig.keeps (f := Compilation.registry)
    rw [hdesc.params, hdesc.result]
    refine fun t ht => ⟨k, hk, (hresolved t ht).imp fun a b hadmits => ?_⟩
    rw [Compilation.Admits, hdefer₁, hregistry₁] at hadmits
    exact hadmits

/-! ## Accepted programs -/

/-- What an accepted program writes in class bodies: bases, fields and signatures; and where the
other fields come from. -/
structure WellWritten (r : Registry) : Prop where
  names : ∀ {h c}, r.class? h = some c → (c.templates.map (·.name)).Nodup
  bases : ∀ {h c}, r.class? h = some c → ∀ t ∈ c.bases, r.Written h t
  fields : ∀ {h c}, r.class? h = some c → LaidOut r r.Written (fun _ => True) c
  signatures : SignaturesWritten r

theorem outside_start {o : Options} {c : Compilation} (h : Compilation.start o = .ok c) :
    c.Outside V false := by
  refine ⟨outer_start h, ?_⟩
  unfold Compilation.start at h
  simp only [except_bind_eq_ok, except_pure_eq_ok] at h
  obtain ⟨_, _, _, _, rfl⟩ := h
  rfl

theorem SignaturesWritten.congr {r r' : Registry} (hr : SameHeaders r r')
    (hsigs : Dispatch.SameSignatures r r') (h : SignaturesWritten r) : SignaturesWritten r' := by
  intro id s' k hs' howner t ht
  have hid := hsigs id
  rw [hs', Option.map_some, eq_comm, Option.map_eq_some_iff] at hid
  obtain ⟨s, hs, heq⟩ := hid
  simp only [Signature.mk.injEq] at heq
  obtain ⟨_, _, _, howner', hparams, _, hresult, _⟩ := heq
  refine (h id s k hs (howner'.trans howner) t ?_).congr hr
  rwa [hresult, hparams]

theorem wellWritten_of_accepted? {o : Options} {p : Program} {r : Registry}
    (h : accepted? o p = some r) : WellWritten r := by
  obtain ⟨ps, ordered, methods, c, c₁, c₂, c₃, c₄, c₅, c', hstart, hsteps, rfl⟩ :=
    Dispatch.steps_of_accepted? h
  have hd := Dispatch.declared_start hstart
  have hh := Dispatch.runHeaders_headed hd hsteps.headers
  obtain ⟨hc₁, hwritten⟩ := runHeaders_written (V := fun _ => False) hd (outside_start hstart)
    hsteps.headers
  -- Headers and layouts are settled early; the later steps keep them.
  have hsame := sameHeaders_of_steps hsteps
  have hroot : c₁.registry.Written Class.rootHash .voidPointer :=
    ⟨_, hh.declared.rootClass, .of_leaf rfl rfl⟩
  refine ⟨fun {k d} hk => ?_, fun {k d} hk t ht => ?_, fun {k d} hk => ?_, ?_⟩
  · obtain ⟨d₁, hd₁, heq⟩ := hsame.symm.exists_class hk
    have htemplates : d₁.templates = d.templates := (congrArg Class.templates heq :)
    exact htemplates ▸ (hwritten k d₁ hd₁).1
  · obtain ⟨d₁, hd₁, heq⟩ := hsame.symm.exists_class hk
    have hbases : d₁.bases = d.bases := (congrArg Class.bases heq :)
    exact ((hwritten k d₁ hd₁).2 t (hbases ▸ ht)).congr hsame
  · obtain ⟨d₂, hd₂, heq⟩ := hsteps.sameLayouts.exists_class_before hk
    have hlaid := layOutAll_laidOut _ hh (runHeaders_bases hd hsteps.headers) hroot
      (fun plans c₂ hplans => layoutPlans_written hc₁ hplans) hsteps.layout
    have hlaid := LaidOut.congr (hlaid k d₂ hd₂) hsteps.sameLayouts heq
    exact { hlaid with origins := fun f hf => (hlaid.origins f hf).imp_left (.congr hsame) }
  · -- No function is registered before the signatures are.
    have hnone : SignaturesWritten c₂.registry := by
      intro id s k hs
      rw [Registry.function?, (layOutAll_changes hsteps.layout).functions,
        hh.declared.functionless] at hs
      simp at hs
    have hc₂ := hsteps.layout.preserves hc₁
    obtain ⟨_, hregister⟩ := hsteps.signatures
    have hc₃ : Registering (fun _ => False) c₃ := hregister.preserves ⟨hc₂, hnone⟩
    exact hc₃.2.congr (hsteps.sameHeaders.symm.trans hsame) hsteps.sameSignatures

end Registration

end ClassLang
