import ClassLang.Proofs.Registration.Layout
import ClassLang.Proofs.Registration.Scopes

/-!
# Registration makes nothing else visible

Each step of registration either leaves the scopes alone, apart from entering and leaving modules
and classes, or defines a name for something that it has just registered. What is registered stays
registered, so what is visible outside of classes keeps its sense.
-/

-- The instances of long steps are large terms.
set_option synthInstance.maxSize 1000

namespace ClassLang

open CompileM

variable {α β : Type} {I : Compilation → Prop}

/-! ## Invariants of steps -/

/-- A step that keeps an invariant whenever it succeeds. -/
class Preserves (I : Compilation → Prop) (m : CompileM α) : Prop where
  keeps : ∀ {c c' : Compilation} {a : α}, I c → Yields m c a c' → I c'

theorem CompileM.Yields.preserves {m : CompileM α} [hm : Preserves I m] {c c' : Compilation}
    {a : α} (h : Yields m c a c') (hc : I c) : I c' := hm.keeps hc h

/-- An invariant of the context alone. -/
class Contextual (I : Compilation → Prop) : Prop where
  congr : ∀ {c c' : Compilation}, c'.context = c.context → I c → I c'

/-- An invariant that is kept when a module is entered and when it is left. -/
class Modular (I : Compilation → Prop) : Prop where
  enter : ∀ {c : Compilation} (path : String), I c → I (c.entered path)
  leave : ∀ {c : Compilation} {n : Nat} {scope : Scope} {scopes : Scopes} (path before : String),
    (c.scopes.truncate n).pop = .ok (scope, scopes) → I c →
    I { c with
      scopes := scopes
      moduleScopes := c.moduleScopes.insert path scope
      path := before }

namespace Preserves

instance (priority := low) of_context (m : CompileM α) [hI : Contextual I]
    [Keeps Compilation.context m] : Preserves I m where
  keeps hc h := hI.congr (h.keeps (f := Compilation.context)) hc

instance bind (m : CompileM α) (g : α → CompileM β) [hm : Preserves I m]
    [hg : ∀ a, Preserves I (g a)] : Preserves I (m >>= g) where
  keeps hc h := by
    obtain ⟨a, c₁, hfirst, hrest⟩ := yields_bind.mp h
    exact (hg a).keeps (hm.keeps hc hfirst) hrest

/-- The second step may rely on an outcome that the first one can have. -/
theorem bind_of {m : CompileM α} {g : α → CompileM β} [hm : Preserves I m]
    (hg : ∀ a, (∃ c c', I c ∧ Yields m c a c') → Preserves I (g a)) : Preserves I (m >>= g) where
  keeps hc h := by
    obtain ⟨a, c₁, hfirst, hrest⟩ := yields_bind.mp h
    exact (hg a ⟨_, _, hc, hfirst⟩).keeps (hm.keeps hc hfirst) hrest

instance ite {p : Prop} [Decidable p] (m n : CompileM α) [Preserves I m] [Preserves I n] :
    Preserves I (if p then m else n) := by
  split <;> infer_instance

instance forM (g : α → CompileM Unit) (xs : List α) [hg : ∀ x, Preserves I (g x)] :
    Preserves I (xs.forM g) :=
  ⟨fun hc h => forM_induction I (fun x _ _ _ _ hk hx => (hg x).keeps hk hx) hc h⟩

instance mapM [Contextual I] (g : α → CompileM β) (xs : List α) [hg : ∀ x, Preserves I (g x)] :
    Preserves I (xs.mapM g) := by
  induction xs with
  | nil =>
    rw [List.mapM_nil]
    infer_instance
  | cons x xs ih =>
    rw [List.mapM_cons]
    infer_instance

instance foldlM [Contextual I] (g : β → α → CompileM β) (xs : List α) (b : β)
    [hg : ∀ b x, Preserves I (g b x)] : Preserves I (xs.foldlM g b) := by
  induction xs generalizing b with
  | nil =>
    rw [List.foldlM_nil]
    infer_instance
  | cons x xs ih =>
    rw [List.foldlM_cons]
    infer_instance

instance inModule [hI : Modular I] (path : String) (body : CompileM α) [hb : Preserves I body] :
    Preserves I (inModule path body) where
  keeps hc h := by
    obtain ⟨c₁, scope, scopes, hbody, hpop, rfl⟩ := inModule_spec h
    exact hI.leave path _ hpop (hb.keeps (hI.enter path hc) hbody)

instance inClass [hI : Contextual I] (hash : TypeHash) (body : CompileM α)
    [Keeps Compilation.context body] : Preserves I (Lowering.inClass hash body) where
  keeps hc h := hI.congr (inClass_spec h).1 hc

theorem modify {f : Compilation → Compilation} (hf : ∀ c, I c → I (f c)) :
    Preserves I (modify f : CompileM PUnit) where
  keeps hc h := by
    rw [yields_modify] at h
    exact h ▸ hf _ hc

end Preserves

namespace Registration

section Names

variable [Contextual I] [Modular I] [∀ name, Preserves I (requireNative name)]
  [∀ path d, Preserves I (declareClass path d)]

instance preserves_declareItems (path : String) :
    ∀ items : List Item, Preserves I (declareItems path items)
  | [] => by
    unfold declareItems
    infer_instance
  | item :: rest => by
    have := preserves_declareItems path rest
    cases item <;> unfold declareItems <;> infer_instance

instance preserves_declareModules : ∀ ms : List Module, Preserves I (declareModules ms)
  | [] => by
    unfold declareModules
    infer_instance
  | m :: ms => by
    have := preserves_declareModules ms
    unfold declareModules
    infer_instance

end Names

section Functions

variable [Contextual I] [Modular I] [∀ path d, Preserves I (registerFunction path d)]
  [∀ path owner d, Preserves I (registerMethod path owner d)]

instance (path : String) (item : Item) : Preserves I (registerItem path item) := by
  cases item <;> unfold registerItem <;> infer_instance

instance preserves_registerItems (path : String) :
    ∀ items : List Item, Preserves I (registerItems path items)
  | [] => by
    unfold registerItems
    infer_instance
  | item :: rest => by
    have := preserves_registerItems path rest
    unfold registerItems
    infer_instance

instance preserves_registerModules : ∀ ms : List Module, Preserves I (registerModules ms)
  | [] => by
    unfold registerModules
    infer_instance
  | m :: ms => by
    have := preserves_registerModules ms
    unfold registerModules
    infer_instance

end Functions

end Registration

/-! ## Outside of classes -/

variable {V : Binding → Prop} {b : Bool}

open Compilation (Outside)

namespace Compilation.Outside

theorem mono {c c' : Compilation} (h : Outside V b c) (hscopes : c'.scopes = c.scopes)
    (hmodules : c'.moduleScopes = c.moduleScopes) (hdefer : c'.deferring = c.deferring)
    (hregistry : c.registry.Grows c'.registry) : Outside V b c' :=
  ⟨h.1.mono (fun _ => id) hscopes hmodules hregistry, hdefer.trans h.2⟩

instance : Contextual (Outside V b) where
  congr hsame hc := ⟨hc.1.of_context hsame, (congrArg Compilation.deferring hsame :).trans hc.2⟩

instance : Modular (Outside V b) where
  enter path hc := ⟨hc.1.entered path, hc.2⟩
  leave path before hpop hc := ⟨hc.1.left path before hpop, hc.2⟩

theorem preserves_modify {f : Compilation → Compilation} (hscopes : ∀ c, (f c).scopes = c.scopes)
    (hmodules : ∀ c, (f c).moduleScopes = c.moduleScopes)
    (hdefer : ∀ c, (f c).deferring = c.deferring)
    (hregistry : ∀ c : Compilation, c.registry.Grows (f c).registry) :
    Preserves (Outside V b) (modify f : CompileM PUnit) :=
  .modify fun c hc => hc.mono (hscopes c) (hmodules c) (hdefer c) (hregistry c)

theorem preserves_modifyClass (hash : TypeHash) {f : Class → Class}
    (hf : ∀ k, (f k).name = k.name) :
    Preserves (Outside V b) (modifyClass hash f) := by
  have : Preserves (Outside V b) (modifyRegistry (·.modifyClass hash f)) := by
    refine preserves_modify (fun _ => rfl) (fun _ => rfl) (fun _ => rfl) fun c => ?_
    have hchanges : c.registry.Changes (fun _ => True) Class.name (c.registry.modifyClass hash f) :=
      .modifyClass trivial hf
    exact .of_changes hchanges id fun _ => rfl
  unfold modifyClass
  infer_instance

instance (d : FunctionDecl) (owner : Owner) (params : List Ty) (result : Ty) (isAbstract : Bool) :
    Preserves (Outside V b)
      (Registration.addSignature d owner params result isAbstract) where
  keeps hc h := by
    obtain ⟨_, rfl⟩ := Registration.yields_addSignature.mp h
    exact hc.mono rfl rfl rfl (.of_adds (.push rfl))

instance (id : Nat) (body : PendingBody) :
    Preserves (Outside V b) (Registration.queueBody id body) :=
  preserves_modify (fun _ => rfl) (fun _ => rfl) (fun _ => rfl) fun _ => .refl _

end Compilation.Outside

namespace Registration

/-! ## Names -/

theorem outer_start {o : Options} {c : Compilation} (h : Compilation.start o = .ok c) :
    c.Outer V := by
  unfold Compilation.start at h
  simp only [except_bind_eq_ok, except_pure_eq_ok] at h
  obtain ⟨_, _, scopes, hscopes, rfl⟩ := h
  have hall : ∀ d ∈ Compilation.predefined, d.2.Outer (.initial o.pointerSize) V d.1 := by
    refine List.forall_mem_cons.mpr ⟨⟨_, (declared_initial _).rootClass, rfl⟩, ?_⟩
    intro d hd
    obtain ⟨i, _, rfl⟩ := List.mem_map.mp hd
    trivial
  refine ⟨except_foldlM_induction (fun s => ∀ x ∈ s.chain, x.Outer (.initial o.pointerSize) V)
    (fun d hd s s' hs h => Scopes.outer_define hs (hall d hd) h) (fun x hx => ?_) hscopes,
    fun path x hx => ?_⟩
  · rw [List.mem_singleton.mp hx]
    exact Scope.outer_opened _
  · cases hx

instance (name : Ident) : Preserves (Outside V b) (requireNative name) where
  keeps {c c' _} hc h := by
    unfold requireNative at h
    split at h
    · simp at h
    · rename_i n _
      simp only [yields_bind, yields_get, and_assoc, exists_and_left, exists_eq_left] at h
      split at h
      · exact outside_define hc (d := .native n) trivial h
      · rw [(yields_pure.mp h).2]
        exact hc

instance (path : String) (d : ClassDecl) : Preserves (Outside V b) (declareClass path d) where
  keeps {c c' p} hc h := by
    obtain ⟨hp, hfree, _⟩ := declareClass_effect h
    subst hp
    simp only [declareClass, yields_bind, yields_get, and_assoc, exists_and_left,
      exists_eq_left] at h
    split at h
    · simp at h
    · simp only [yields_bind, yields_modifyRegistry, yields_pure, exists_eq_left] at h
      obtain ⟨_, _, _, hdefine, _, rfl⟩ := h
      let k := Class.declared d.name.name path d.span d.isAbstract
      have hadded : Outside V b { c with registry := c.registry.addClass k } :=
        hc.mono rfl rfl rfl (.addClass hfree)
      have hself := (Registry.class?_addClass c.registry k k.hash).trans (if_pos rfl)
      exact outside_defineTopLevel hadded (d := .classOf _) ⟨_, hself, rfl⟩ hdefine

/-! ## Hierarchies -/

instance (p : PendingClass) : Preserves (Outside V b) (resolveTemplates p) := by
  have := fun ts => Outside.preserves_modifyClass (V := V) (b := b) p.hash
    (f := fun k => { k with templates := ts }) fun _ => rfl
  unfold resolveTemplates
  infer_instance

instance (p : PendingClass) : Preserves (Outside V b) (resolveBases p) := by
  have := fun bases => Outside.preserves_modifyClass (V := V) (b := b) p.hash
    (f := fun k => { k with bases := bases }) fun _ => rfl
  unfold resolveBases
  refine @Preserves.inModule _ _ _ _ _ (@Preserves.bind _ _ _ _ _ _ fun written => ?_)
  dsimp only
  split <;> infer_instance

/-- Resolving headers is done with checks put off, and ends when all are resolved. -/
theorem yields_resolveHeaders {ps : List PendingClass} {c c' : Compilation} {u : Unit}
    (h : Yields (resolveHeaders ps) c u c') :
    ∃ c₁ c₂, Yields (ps.forM resolveTemplates) { c with deferring := true } () c₁ ∧
      Yields (ps.forM resolveBases) c₁ () c₂ ∧ c' = { c₂ with deferring := false } := by
  simp only [resolveHeaders, yields_bind, yields_modify, yields_attempt, yields_conclude,
    exists_eq_left] at h
  obtain ⟨_, result, c₂, hrun, _, hresult, rfl⟩ := h
  obtain ⟨_, c₁, htemplates, hbases⟩ := yields_bind.mp (yields_of_attempt hrun hresult)
  exact ⟨c₁, c₂, htemplates, hbases, rfl⟩

theorem outside_resolveHeaders {ps : List PendingClass} {c c' : Compilation} {u : Unit}
    (hc : c.Outer V) (h : Yields (resolveHeaders ps) c u c') : c'.Outside V false := by
  obtain ⟨c₁, c₂, htemplates, hbases, rfl⟩ := yields_resolveHeaders h
  have hstart : Outside V true { c with deferring := true } :=
    ⟨hc.mono (fun _ => id) rfl rfl (.refl _), rfl⟩
  have hend := hbases.preserves (htemplates.preserves hstart)
  exact ⟨hend.1.mono (fun _ => id) rfl rfl (.refl _), rfl⟩

instance outside_linearizeFrom (bases : Linearization.Bases) :
    ∀ (ps : List PendingClass) (memo : Linearization.Memo),
      Preserves (Outside V b) (linearizeFrom bases ps memo)
  | [], memo => by
    unfold linearizeFrom
    infer_instance
  | p :: ps, memo => by
    have := outside_linearizeFrom bases ps
    have := fun mro => Outside.preserves_modifyClass (V := V) (b := b) p.hash
      (f := fun k => { k with mro := mro }) fun _ => rfl
    unfold linearizeFrom
    split <;> infer_instance

instance (ps : List PendingClass) : Preserves (Outside V b) (linearizeAll ps) := by
  unfold linearizeAll
  infer_instance

instance : Preserves (Outside V b) checkDeferred := by
  have : Preserves (Outside V b) (modify fun s => { s with deferred := [] } : CompileM PUnit) :=
    Outside.preserves_modify (fun _ => rfl) (fun _ => rfl) (fun _ => rfl) fun _ => .refl _
  unfold checkDeferred
  infer_instance

instance (p : PendingClass) : Preserves (Outside V b) (inheritArgs p) := by
  have := fun args => Outside.preserves_modifyClass (V := V) (b := b) p.hash
    (f := fun k => { k with inherited := args }) fun _ => rfl
  unfold inheritArgs
  infer_instance

/-! ## Layouts -/

instance (p : PendingClass) : Preserves (Outside V b) (layoutPlan p) := by
  unfold layoutPlan
  infer_instance

instance (plan : LayoutPlan) : Preserves (Outside V b) (layOutClass plan) := by
  have := fun (fields : List Field) (length : Nat) =>
    Outside.preserves_modifyClass (V := V) (b := b) plan.pending.hash
      (f := fun k => { k with fields := fields, length := length }) fun _ => rfl
  unfold layOutClass
  infer_instance

instance outside_layOutWithin (plans : Table TypeHash LayoutPlan) :
    ∀ (bound : Nat) (visiting done : List TypeHash) (hash : TypeHash),
      Preserves (Outside V b) (layOutWithin plans bound visiting done hash)
  | 0, visiting, done, hash => by
    unfold layOutWithin
    infer_instance
  | bound + 1, visiting, done, hash => by
    have := outside_layOutWithin plans bound (hash :: visiting)
    unfold layOutWithin
    split
    · infer_instance
    · split
      · infer_instance
      · dsimp only
        split <;> infer_instance

instance (ps : List PendingClass) : Preserves (Outside V b) (layOutAll ps) := by
  unfold layOutAll
  infer_instance

/-! ## Functions -/

/-- A free function becomes visible under its name. -/
instance (path : String) (d : FunctionDecl) :
    Preserves (Outside V b) (registerFunction path d) where
  keeps {c c' _} hc h := by
    obtain ⟨c₁, params, result, hsig, _, hdefine⟩ := registerFunction_spec h
    refine outside_defineTopLevel ?_ (d := .functions [_]) ?_ hdefine
    · exact (hsig.preserves hc).mono rfl rfl rfl (.of_adds (.push rfl))
    · have hself := (function?_pushFunction c₁.registry
        (signatureOf d (.module path) params result false c₁.registry.functions.size) _).trans
          (if_pos rfl)
      exact ⟨List.cons_ne_nil _ _, List.forall_mem_singleton.mpr ⟨_, hself, rfl, rfl⟩⟩

instance (path : String) (owner : TypeHash) (d : FunctionDecl) :
    Preserves (Outside V b) (registerMethod path owner d) := by
  unfold registerMethod
  dsimp only
  infer_instance

end Registration

end ClassLang
