import ClassLang.Proofs.Safety.Closed
import ClassLang.Proofs.Safety.Modules

/-!
# Reading the headers of classes is safe

The first steps of registration look up classes by the names that are in scope, by the hashes that
were noted when the classes were declared, and by the types that were resolved before. All of these
are registered, so the steps fail at positions only. What a step resolves is known to the registry,
so the registry stays closed.
-/

namespace ClassLang

open CompileM Lowering Registration

namespace CompileM

variable {α : Type} {r : Registry} {c : Compilation} {V : Binding → Prop}

/-- A class that is changed has to be registered. -/
theorem safe_modifyClass {hash : TypeHash} {f : Class → Class} {Q : Unit → Compilation → Prop}
    (hhash : c.registry.Has hash) (h : Q () { c with registry := c.registry.modifyClass hash f }) :
    Safe Drafts (modifyClass hash f) c Q := by
  obtain ⟨_, hk, _⟩ := hhash.getClass
  exact .askRegistry_bind hk (safe_modifyRegistry (fun _ => Registry.Has.modifyClass) h)

/-! ## Names -/

theorem isLocated_of_defineGlobal {s : Scopes} {name : String} {d : Meaning} {span : Span}
    {e : CompileError} (h : s.defineGlobal name d span = .error e) : e.isLocated = true := by
  have halone : Scopes.define ⟨s.global, []⟩ name d span = .error e := by
    unfold Scopes.defineGlobal at h
    show Scopes.defineGlobal ⟨s.global, []⟩ name d span = .error e
    unfold Scopes.defineGlobal
    cases hdefine : s.global.define name d span with
    | error e' =>
      rw [hdefine] at h
      exact h
    | ok s' =>
      rw [hdefine] at h
      cases h
  exact Scopes.isLocated_of_define halone

theorem safe_defineScope {name : String} {d : Meaning} {span : Span} :
    Safe Drafts (define name d span) c fun _ _ => True := by
  refine safe_define fun scopes hdefine => ⟨?_, trivial⟩
  have hkinds := Scopes.kinds_define hdefine
  obtain ⟨scope, _, rfl⟩ := Scopes.define_effect hdefine
  exact ⟨⟨rfl, c.scopes.depth_replace scope⟩, rfl, Nat.le_refl _, id, fun _ => id, id,
    fun hc => hc.of_same hkinds rfl⟩

theorem safe_defineTopLevel {name : String} {d : Meaning} {span : Span} :
    Safe Drafts (defineTopLevel name d span) c fun _ _ => True := by
  unfold defineTopLevel updateScopes
  refine safe_defineScope.bind fun _ c₁ _ _ => .get_bind ?_
  refine (Safe.conclude (Q := fun scopes c' => c' = c₁ ∧
    c₁.scopes.defineGlobal name d span = .ok scopes) (fun scopes hs => ⟨rfl, hs⟩)
    fun e he => isLocated_of_defineGlobal he).bind ?_
  rintro scopes c₂ - ⟨rfl, hs⟩
  unfold Scopes.defineGlobal at hs
  obtain ⟨global, hglobal, hs⟩ := except_bind_eq_ok.mp hs
  cases hs
  refine safe_modify ⟨⟨rfl, rfl⟩, rfl, Nat.le_refl _, id, fun _ => id, id,
    fun hc => hc.of_same ?_ rfl⟩ trivial
  have hkind := Scope.kind_define hglobal
  unfold Scopes.kinds Scopes.chain
  rw [List.map_append, List.map_append, List.map_singleton, List.map_singleton, hkind]

theorem safe_requireName {name : Ident} :
    Safe Drafts (Registration.requireNative name) c fun _ _ => True := by
  unfold Registration.requireNative
  split
  · exact .fail
  · refine .get_bind ?_
    dsimp only
    split
    · exact safe_defineScope
    · exact .pure trivial

theorem safe_declareClass {path : String} {d : ClassDecl} :
    Safe Drafts (declareClass path d) c fun _ _ => True := by
  unfold declareClass
  refine .get_bind ?_
  dsimp only
  split
  · exact .fail_bind
  · refine (safe_modifyRegistry (Q := fun _ _ => True) (fun _ => Registry.Has.addClass)
      trivial).bind fun _ c₁ _ _ => ?_
    exact safe_defineTopLevel.bind fun _ _ _ _ => .pure trivial

theorem safe_declareItems {path : String} : ∀ {items : List Item} {c : Compilation},
    Safe Drafts (declareItems path items) c fun _ _ => True
  | [], _ => by
    unfold declareItems
    exact .pure trivial
  | item :: rest, c => by
    cases item with
    | require name =>
      unfold declareItems
      exact safe_requireName.bind fun _ _ _ _ => safe_declareItems
    | classDecl d =>
      unfold declareItems
      refine safe_declareClass.bind fun _ _ _ _ => safe_declareItems.bind fun _ _ _ _ => ?_
      exact .pure trivial
    | _ =>
      unfold declareItems
      exact safe_declareItems

theorem safe_declareModules : ∀ {ms : List Module} {c : Compilation},
    Safe Drafts (declareModules ms) c fun _ _ => True
  | [], _ => by
    unfold declareModules
    exact .pure trivial
  | m :: ms, c => by
    unfold declareModules
    refine (safe_inModule (Q := fun _ _ => True) safe_declareItems fun _ _ _ _ => trivial).bind
      fun _ _ _ _ => ?_
    exact safe_declareModules.bind fun _ _ _ _ => .pure trivial

/-! ## Types inside of classes -/

/-- Names are added to the innermost scope, and checks of bounds may be put off. -/
def Marks (c c' : Compilation) : Prop :=
  ∃ scope checks, scope.kind = c.scopes.current.kind ∧
    c' = { c with scopes := c.scopes.replace scope, deferred := checks }

instance : Steady Marks where
  refl c := ⟨c.scopes.current, c.deferred, rfl, by rw [Scopes.replace_current]⟩
  trans := by
    rintro c _ _ ⟨_, _, hkind₁, rfl⟩ ⟨scope, checks, hkind₂, rfl⟩
    exact ⟨scope, checks, by rw [hkind₂, Scopes.current_replace, hkind₁],
      by rw [Scopes.replace_replace]⟩
  depth := by
    rintro c _ ⟨scope, _, _, rfl⟩
    exact ⟨rfl, c.scopes.depth_replace scope⟩

theorem Defers.marks {c' : Compilation} (h : Defers c c') : Marks c c' := by
  obtain ⟨checks, rfl⟩ := h
  exact ⟨c.scopes.current, checks, rfl, by rw [Scopes.replace_current]⟩

/-- What is visible was visible before, or is a template parameter. -/
def Parametrized (r : Registry) (c c' : Compilation) : Prop :=
  ∀ name e, c'.scopes.find? name = some e → c.scopes.find? name = some e ∨
    ∃ t, e.meaning = .typeParam t ∧ r.Knows t

theorem Parametrized.named {c' : Compilation} (h : Parametrized r c c') (hn : Named r c) :
    Named r c' := by
  intro name e he
  rcases h name e he with he | ⟨t, hmeaning, ht⟩
  · exact hn name e he
  · exact hmeaning ▸ ht

theorem safe_defineTemplates {hash : TypeHash} (hr : c.registry = r) (hclosed : r.Closed)
    (hh : r.Has hash) : Safe Marks (defineTemplates hash) c fun _ c' =>
      c'.registry = r ∧ Parametrized r c c' := by
  obtain ⟨k, hk, hclass⟩ := hh.getClass
  unfold defineTemplates
  refine .askRegistry_bind (hr ▸ hk) ?_
  refine Safe.forM (I := fun c' => c'.registry = r ∧ Parametrized r c c') (fun p hp c₁ _ hI => ?_)
    ⟨hr, fun _ _ he => .inl he⟩
  refine safe_define fun scopes hdefine => ?_
  obtain ⟨scope, hscope, hscopes⟩ := Scopes.define_effect hdefine
  refine ⟨⟨scope, c₁.deferred, Scope.kind_define hscope, by rw [hscopes]⟩, hI.1, ?_⟩
  intro other e he
  have he : scopes.find? other = some e := he
  rw [Scopes.find?_define hdefine fun _ h => by cases h] at he
  split at he
  · injection he with he
    subst he
    exact .inr ⟨_, rfl, Registry.knows_param.mpr ((hclosed.classes hclass).templates p hp)⟩
  · exact hI.2 other e he

/-- A step in a class that only resolves types. -/
theorem safe_inClass {hash : TypeHash} {body : CompileM α} {P : α → Prop} (hr : c.registry = r)
    (hn : Named r c) (hclosed : r.Closed) (hh : r.Has hash)
    (hbody : ∀ c₁, c₁.registry = r → Named r c₁ → Safe Defers body c₁ fun a _ => P a) :
    Safe Defers (inClass hash body) c fun a _ => P a := by
  have hinside : Safe Marks (defineTemplates hash >>= fun _ => body)
      { c with scopes := c.scopes.enter .block, frame := c.frame.pushBlock.2 } fun a _ => P a :=
    (safe_defineTemplates (c := { c with
      scopes := c.scopes.enter .block, frame := c.frame.pushBlock.2 }) hr hclosed hh).bind
      fun _ c₁ _ h₁ => (hbody c₁ h₁.1 (h₁.2.named hn)).widen fun _ => Defers.marks
  unfold inClass
  refine safe_inScope hinside (fun _ h => Steady.depth h) ?_
  rintro a _ ⟨scope, checks, _, rfl⟩ ha
  refine ⟨⟨checks, ?_⟩, ha⟩
  have hscopes : ((c.scopes.enter .block).replace scope).truncate c.scopes.depth = c.scopes :=
    Scopes.truncate_replace_push c.scopes _ scope
  show ({ c with
    scopes := ((c.scopes.enter .block).replace scope).truncate c.scopes.depth
    deferred := checks } : Compilation) = _
  rw [hscopes]

/-- A step that only puts off checks, among steps that change more. -/
theorem Safe.drafts {m : CompileM α} {Q : α → Compilation → Prop} (h : Safe Defers m c Q) :
    Safe Drafts m c fun a c' => Defers c c' ∧ Q a c' :=
  (h.mono fun _ _ hR hQ => ⟨hR, hQ⟩).widen fun _ => Defers.drafts

/-! ## Headers -/

/-- Classes can be looked up: by what is in scope, by what was declared, and by all types in the
registry. -/
structure Registering (V : Binding → Prop) (ps : List PendingClass) (c : Compilation) : Prop where
  outer : c.Outer V
  closed : c.registry.Closed
  pending : ∀ p ∈ ps, c.registry.Has p.hash

/-- What is visible stays visible in steps that are known to keep it. -/
theorem Safe.outer {m : CompileM α} {Q : α → Compilation → Prop}
    [hm : ∀ b, Preserves (Compilation.Outside V b) m] (hc : c.Outer V) (h : Safe Drafts m c Q) :
    Safe Drafts m c fun a c' => c'.Outer V ∧ Q a c' :=
  h.traced.mono fun _ _ _ hQ => ⟨((hm c.deferring).keeps ⟨hc, rfl⟩ hQ.1).1, hQ.2⟩

theorem Registering.modifyClass {ps : List PendingClass} (h : Registering V ps c) {c' : Compilation}
    {k : TypeHash} {f : Class → Class} (houter : c'.Outer V)
    (hr : c'.registry = c.registry.modifyClass k f)
    (hf : ∀ d, c.registry.class? k = some d → d.Known c.registry → (f d).Known c.registry) :
    Registering V ps c' where
  outer := houter
  closed := hr ▸ h.closed.modifyClass hf
  pending p hp := hr ▸ (h.pending p hp).modifyClass

theorem safe_templateParam {t : TemplateDecl} (hr : c.registry = r) (hn : Named r c)
    (hclosed : r.Closed) : Safe Defers (templateParam t) c fun p _ => r.Has p.bound := by
  unfold templateParam
  split
  · exact .pure hclosed.root
  · refine (safe_resolveClass hr hn _).bind fun type c₁ h₁ htype => ?_
    split
    · exact .pure (Registry.knows_classRef.mp htype.1)
    · exact .typeName_bind .fail

theorem safe_resolveTemplates {ps : List PendingClass} {p : PendingClass} (hp : p ∈ ps)
    (hc : Registering V ps c) :
    Safe Drafts (resolveTemplates p) c fun _ c' => Registering V ps c' := by
  have hstep : Safe Drafts (resolveTemplates p) c fun _ c' => ∃ ts : List TemplateParam,
      (∀ t ∈ ts, c.registry.Has t.bound) ∧
        c'.registry = c.registry.modifyClass p.hash fun k => { k with templates := ts } := by
    unfold resolveTemplates
    refine safe_inModule ?_ fun _ _ _ h => h
    have hn := (hc.outer.entered p.path).named
    have hparams : Safe Defers (p.decl.templates.mapM templateParam) (c.entered p.path)
        fun ts _ => True ∧ ∀ t ∈ ts, c.registry.Has t.bound :=
      Safe.mapM (I := fun _ => True) (fun t _ c₁ h₁ _ =>
        (safe_templateParam h₁.registry (Named.defers hn h₁) hc.closed).mono fun _ _ _ h => ⟨trivial, h⟩)
        trivial
    refine hparams.drafts.bind fun ts c₁ _ h₁ => ?_
    have hr : c₁.registry = c.registry := h₁.1.registry
    exact safe_modifyClass (hr ▸ hc.pending p hp) ⟨ts, h₁.2.2, by rw [hr]; rfl⟩
  refine (hstep.outer hc.outer).mono fun _ _ _ ⟨houter, ts, hts, hr⟩ => ?_
  exact hc.modifyClass houter hr fun d _ hd =>
    ⟨hts, hd.bases, hd.inherited, hd.fields, hd.ranks⟩

theorem safe_resolveBases {ps : List PendingClass} {p : PendingClass} (hp : p ∈ ps)
    (hc : Registering V ps c) :
    Safe Drafts (resolveBases p) c fun _ c' => Registering V ps c' := by
  have hstep : Safe Drafts (resolveBases p) c fun _ c' => ∃ bases : List Ty,
      c.registry.KnowsAll bases ∧
        c'.registry = c.registry.modifyClass p.hash fun k => { k with bases := bases } := by
    unfold resolveBases
    refine safe_inModule ?_ fun _ _ _ h => h
    have hwritten : Safe Defers (inClass p.hash (p.decl.bases.mapM resolveClass))
        (c.entered p.path) fun ts _ => True ∧ ∀ t ∈ ts, c.registry.Knows t := by
      refine safe_inClass (r := c.registry) rfl (hc.outer.entered p.path).named hc.closed
        (hc.pending p hp) fun c₁ hr hn => ?_
      exact (Safe.mapM (I := fun _ => True) (fun t _ c₂ h₂ _ =>
        (safe_resolveClass (h₂.registry.trans hr) (Named.defers hn h₂) t).mono
          fun _ _ _ h => ⟨trivial, h.1⟩) trivial)
    refine hwritten.drafts.bind fun written c₁ _ h₁ => ?_
    have hbases : c.registry.KnowsAll
        (if written.isEmpty then [Ty.classRef Class.rootHash] else written) := by
      split
      · exact List.forall_mem_singleton.mpr (Registry.knows_classRef.mpr hc.closed.root)
      · exact h₁.2.2
    dsimp only
    split
    · exact .typeName_bind .fail_bind
    · have hr : c₁.registry = c.registry := h₁.1.registry
      exact safe_modifyClass (hr ▸ hc.pending p hp) ⟨_, hbases, by rw [hr]; rfl⟩
  refine (hstep.outer hc.outer).mono ?_
  rintro _ _ _ ⟨houter, bases, hbases, hr⟩
  exact hc.modifyClass houter hr fun d _ hd =>
    ⟨hd.templates, hbases, hd.inherited, hd.fields, hd.ranks⟩

theorem safe_resolveHeaders {ps : List PendingClass} (hc : Registering V ps c) :
    Safe Drafts (resolveHeaders ps) c fun _ c' => Registering V ps c' := by
  have hbody : Safe Drafts (ps.forM resolveTemplates >>= fun _ => ps.forM resolveBases)
      { c with deferring := true } fun _ c' => Registering V ps c' := by
    have hstart : Registering V ps { c with deferring := true } :=
      ⟨⟨hc.outer.scopes, hc.outer.modules⟩, hc.closed, hc.pending⟩
    refine (Safe.forM (I := Registering V ps) (fun _ hp _ _ h => safe_resolveTemplates hp h)
      hstart).bind fun _ c₁ _ h₁ => ?_
    exact Safe.forM (I := Registering V ps) (fun _ hp _ _ h => safe_resolveBases hp h) h₁
  unfold resolveHeaders
  refine .bracket (fun _ c₁ => { c₁ with deferring := false }) hbody (fun _ h => h.toSameDepth)
    ?_ ?_ ?_ fun _ _ h => ⟨h.blocks, h.scopes⟩
  · rw [emissions_of_yields (a := ⟨⟩) (yields_modify.mpr rfl),
      emissions_of_yields (yields_attempt.mpr rfl), emissions_attempt,
      Mute.bind (mute_modify _) fun _ => mute_conclude _, List.append_nil]
    rfl
  · intro o c₁ hrun _
    rw [run_of_yields (a := ⟨⟩) (yields_modify.mpr rfl), run_of_yields (yields_attempt.mpr hrun),
      run_of_yields (a := ⟨⟩) (yields_modify.mpr rfl)]
    rfl
  · exact fun _ c₁ h hQ =>
      ⟨⟨⟨h.blocks, h.scopes⟩, h.registers, h.globals, h.literals, h.classes, h.waiting,
      fun hc => (h.topmost ⟨hc.scopes, hc.modules⟩).of_same rfl rfl⟩,
        ⟨⟨hQ.outer.scopes, hQ.outer.modules⟩, hQ.closed, hQ.pending⟩⟩

/-! ## Hierarchies -/

theorem directBases_ok {ps : List PendingClass} (hps : ∀ p ∈ ps, r.Has p.hash) :
    ∀ {t : Linearization.Bases}, ∃ t', ps.foldlM (fun bases p => do
      let c ← r.getClass p.hash
      return bases.insert p.hash (c.bases.filterMap (·.classHash?))) t = Except.ok t' := by
  induction ps with
  | nil => exact fun {t} => ⟨t, rfl⟩
  | cons p ps ih =>
    intro t
    obtain ⟨hp, hps⟩ := List.forall_mem_cons.mp hps
    obtain ⟨k, hk, _⟩ := hp.getClass
    obtain ⟨t', ht'⟩ := ih hps (t := t.insert p.hash (k.bases.filterMap (·.classHash?)))
    refine ⟨t', ?_⟩
    rw [List.foldlM_cons, hk]
    exact ht'

theorem safe_linearizeFrom {ps : List PendingClass} {bases : Linearization.Bases} :
    ∀ {qs : List PendingClass} {memo : Linearization.Memo} {c : Compilation}, qs ⊆ ps →
      Registering V ps c → Safe Drafts (linearizeFrom bases qs memo) c fun _ c' => Registering V ps c'
  | [], memo, c, _, hc => by
    unfold linearizeFrom
    exact .pure hc
  | p :: qs, memo, c, hqs, hc => by
    obtain ⟨hp, hqs⟩ := List.cons_subset.mp hqs
    unfold linearizeFrom
    split
    · refine .fromRegistry_bind ?_
      exact safe_inModule (P := fun _ _ => False) .fail fun _ _ _ h => h.elim
    · refine (safe_modifyClass (Q := fun _ c' => Registering V ps c') (hc.pending p hp) ?_).bind
        fun _ c₁ _ h₁ => safe_linearizeFrom hqs h₁
      refine hc.modifyClass (hc.outer.mono (fun _ h => h) rfl rfl ?_) rfl fun d _ hd =>
        ⟨hd.templates, hd.bases, hd.inherited, hd.fields, hd.ranks⟩
      have hnames {f : Class → Class} (hf : ∀ k, (f k).name = k.name) :
          c.registry.Changes (fun _ => True) Class.name (c.registry.modifyClass p.hash f) :=
        .modifyClass trivial hf
      exact .of_changes (hnames fun _ => rfl) id fun _ => rfl

theorem safe_linearizeAll {ps : List PendingClass} (hc : Registering V ps c) :
    Safe Drafts (linearizeAll ps) c fun _ c' => Registering V ps c' := by
  obtain ⟨bases, hbases⟩ := directBases_ok hc.pending (t := .empty)
  unfold linearizeAll
  exact .askRegistry_bind hbases (safe_linearizeFrom (List.Subset.refl _) hc)

theorem safe_checkDeferred {ps : List PendingClass} (hc : Registering V ps c) :
    Safe Drafts checkDeferred c fun _ c' => Registering V ps c' := by
  have hstep : Safe Drafts checkDeferred c fun _ c' => c'.registry = c.registry := by
    unfold checkDeferred
    refine .get_bind ?_
    refine (safe_modify (Q := fun _ c' => c'.registry = c.registry)
      (.of_same rfl rfl rfl rfl rfl fun _ => id) rfl).bind fun _ c₁ _ h₁ => ?_
    refine Safe.forM (I := fun c' => c'.registry = c.registry) (fun check _ c₂ _ h₂ => ?_) h₁
    refine safe_inModule (safe_checkBound (R := Drafts)) ?_
    rintro _ _ - rfl
    exact h₂
  refine (hstep.outer hc.outer).mono fun _ _ _ ⟨houter, hr⟩ => ?_
  exact ⟨houter, hr ▸ hc.closed, hr ▸ hc.pending⟩

/-! ## Inherited template arguments -/

theorem knows_addInherited {base : Class} {t : Ty} {known : Table TypeHash (List Ty)}
    (hbase : base.Known r) (ht : r.Knows t) (hknown : ∀ e ∈ known.entries, r.KnowsAll e.2) :
    ∀ e ∈ (addInherited base t known).entries, r.KnowsAll e.2 := by
  have hinsert : ∀ (known : Table TypeHash (List Ty)) k args, r.KnowsAll args →
      (∀ e ∈ known.entries, r.KnowsAll e.2) → ∀ e ∈ (known.insert k args).entries, r.KnowsAll e.2 := by
    intro known k args hargs hknown e he
    rcases Table.mem_insert he with he | he
    · exact hknown e he
    · exact he ▸ hargs
  -- What the base inherits is substituted one by one; the arguments are known, so the results are.
  have hfold : ∀ (es : List (TypeHash × List Ty)) (known : Table TypeHash (List Ty)),
      (∀ e ∈ es, r.KnowsAll e.2) → (∀ e ∈ known.entries, r.KnowsAll e.2) →
      ∀ e ∈ (es.foldl (fun known (e : TypeHash × List Ty) =>
        addUnknown known e.1 (Ty.substituteAll base.templateNames t.args e.2)) known).entries,
        r.KnowsAll e.2 := by
    intro es
    induction es with
    | nil => exact fun _ _ h => h
    | cons e es ih =>
      intro known hes hknown
      obtain ⟨he, hes⟩ := List.forall_mem_cons.mp hes
      refine ih _ hes ?_
      dsimp only [addUnknown]
      split
      · exact hknown
      · exact hinsert _ _ _ (he.substitute ht.args) hknown
  unfold addInherited
  refine hfold _ _ hbase.inherited ?_
  split
  · exact hknown
  · exact hinsert _ _ _ ht.args hknown

theorem inheritedArgs_ok (hclosed : r.Closed) : ∀ {ts : List Ty} {known : Table TypeHash (List Ty)},
    r.KnowsAll ts → (∀ e ∈ known.entries, r.KnowsAll e.2) →
    ∃ args, inheritedArgs r ts known = .ok args ∧ ∀ e ∈ args.entries, r.KnowsAll e.2
  | [], known, _, hknown => ⟨known, rfl, hknown⟩
  | t :: ts, known, hts, hknown => by
    obtain ⟨ht, hts⟩ := Registry.knowsAll_cons.mp hts
    unfold inheritedArgs
    cases hh : t.classHash? with
    | none => exact inheritedArgs_ok hclosed hts hknown
    | some hash =>
      obtain ⟨base, hbase, hclass⟩ := (ht.has hh).getClass
      obtain ⟨args, hargs, hall⟩ := inheritedArgs_ok hclosed hts
        (knows_addInherited (hclosed.classes hclass) ht hknown)
      exact ⟨args, except_bind_eq_ok.mpr ⟨base, hbase, hargs⟩, hall⟩

theorem safe_inheritArgs {ps : List PendingClass} {p : PendingClass} (hp : p ∈ ps)
    (hc : Registering V ps c) : Safe Drafts (inheritArgs p) c fun _ c' => Registering V ps c' := by
  obtain ⟨k, hk, hclass⟩ := (hc.pending p hp).getClass
  obtain ⟨args, hargs, hall⟩ : ∃ args, inheritedArgs c.registry k.bases .empty = .ok args ∧
      ∀ e ∈ args.entries, c.registry.KnowsAll e.2 :=
    inheritedArgs_ok hc.closed (hc.closed.classes hclass).bases (List.forall_mem_nil _)
  have hstep : Safe Drafts (inheritArgs p) c fun _ c' => c'.registry =
      c.registry.modifyClass p.hash fun k => { k with inherited := args } := by
    unfold inheritArgs
    exact .askRegistry_bind hk (.askRegistry_bind hargs (safe_modifyClass (hc.pending p hp) rfl))
  refine (hstep.outer hc.outer).mono fun _ _ _ ⟨houter, hr⟩ => ?_
  exact hc.modifyClass houter hr fun d _ hd => ⟨hd.templates, hd.bases, hall, hd.fields, hd.ranks⟩

end CompileM

end ClassLang
