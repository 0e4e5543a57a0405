import ClassLang.Proofs.Lowering.Context
import ClassLang.Registration.Members

/-!
# What the steps of registration do to the registry

Most of what a registration step does is resolving names and types, which only reads the
registry. What is left is one small change for each step: a class is added, a part of a class
is filled in, a function is added. There is one lemma for each step that says which change it
is, so that later arguments speak about registries alone.
-/

-- The instances of long steps are large terms.
set_option synthInstance.maxSize 1000

namespace ClassLang

open CompileM

variable {α β : Type}

/-! ## Looking classes up -/

theorem Registry.getClass_eq_ok {r : Registry} {h : TypeHash} {c : Class} :
    r.getClass h = .ok c ↔ r.class? h = some c := by
  unfold getClass
  split
  · rename_i d hd
    rw [hd]
    simp
  · rename_i hnone
    rw [hnone]
    simp

theorem Registry.getFunction_eq_ok {r : Registry} {id : Nat} {s : Signature} :
    r.getFunction id = .ok s ↔ r.function? id = some s := by
  unfold getFunction
  split
  · rename_i d hd
    rw [hd]
    simp
  · rename_i hnone
    rw [hnone]
    simp

namespace Registration

/-! ## Steps that leave the context alone -/

instance (t : TemplateDecl) : Keeps Compilation.context (templateParam t) := by
  unfold templateParam
  split
  · infer_instance
  · refine .bind fun type => ?_
    split <;> infer_instance

instance (t : Ty) (name : String) (span : Span) : Looks (requireStorable t name span) := by
  unfold requireStorable
  split <;> infer_instance

instance (field : FieldDecl) : Keeps Compilation.context (resolveField field) := by
  unfold resolveField
  infer_instance

instance (p : Param) : Keeps Compilation.context (resolveParam p) := by
  unfold resolveParam
  infer_instance

instance (d : FunctionDecl) : Keeps Compilation.context (resolveSignature d) := by
  unfold resolveSignature
  refine .bind fun params => ?_
  dsimp only
  split
  · refine .bind fun result => ?_
    split <;> infer_instance
  · refine .bind fun result => ?_
    split <;> infer_instance

instance keeps_checkOverload (name : String) (params : List Ty) (span : Span) :
    ∀ ids : List Nat, Keeps Compilation.context (checkOverload name params span ids)
  | [] => by
    unfold checkOverload
    infer_instance
  | id :: rest => by
    have := keeps_checkOverload name params span rest
    unfold checkOverload
    infer_instance

instance (d : ClassDecl) : Keeps Compilation.context (declaredClass d) := by
  unfold declaredClass
  refine .bind fun c => ?_
  split <;> infer_instance

end Registration

/-! ## Steps that only read the registry -/

/-- A part of the state that only the registry, the listing, the globals and the bodies belong
to. -/
class Persistent {γ : Type} (f : Compilation → γ) : Prop where
  eq : ∀ c c', c'.registry = c.registry → c'.listing = c.listing → c'.globals = c.globals →
    c'.bodies = c.bodies → f c' = f c

instance : Persistent Compilation.registry := ⟨fun _ _ h _ _ _ => h⟩

instance : Persistent Compilation.listing := ⟨fun _ _ _ h _ _ => h⟩

instance : Persistent Compilation.globals := ⟨fun _ _ _ _ h _ => h⟩

instance : Persistent Compilation.bodies := ⟨fun _ _ _ _ _ h => h⟩

instance keeps_persistent {γ : Type} (f : Compilation → γ) [hf : Persistent f] (m : CompileM α)
    [hm : Keeps Compilation.context m] : Keeps f m :=
  ⟨fun c => hf.eq _ _ (congrArg (·.registry) (hm.eq c)) (congrArg (·.listing) (hm.eq c))
    (congrArg (·.globals) (hm.eq c)) (congrArg (·.bodies) (hm.eq c))⟩

/-- A part of the state that the scopes do not belong to. -/
class IgnoresScopes {γ : Type} (f : Compilation → γ) : Prop where
  eq : ∀ c scopes, f { c with scopes := scopes } = f c

instance {γ : Type} (f : Compilation → γ) [hf : Persistent f] : IgnoresScopes f :=
  ⟨fun _ _ => hf.eq _ _ rfl rfl rfl rfl⟩

instance : IgnoresScopes Compilation.frame := ⟨fun _ _ => rfl⟩

section Scopes

variable {γ : Type} (f : Compilation → γ) [hf : IgnoresScopes f]

instance (g : Scopes → Scopes) : Keeps f (modifyScopes g) := keeps_modify fun c => hf.eq c _

instance (g : Scopes → Except CompileError Scopes) : Keeps f (updateScopes g) := by
  unfold updateScopes
  infer_instance

instance (name : String) (d : Meaning) (span : Span) : Keeps f (define name d span) := by
  unfold define
  infer_instance

instance (name : String) (d : Meaning) (span : Span) : Keeps f (defineTopLevel name d span) := by
  unfold defineTopLevel
  infer_instance

instance (hash : TypeHash) : Keeps f (Lowering.defineTemplates hash) := by
  unfold Lowering.defineTemplates
  infer_instance

end Scopes

/-- A step in a module does to the registry what its body does. -/
theorem inModule_effect {path : String} {body : CompileM α} {c c' : Compilation} {a : α}
    (h : Yields (inModule path body) c a c') :
    ∃ c₀ c₁, Yields body c₀ a c₁ ∧ c₀.registry = c.registry ∧ c'.registry = c₁.registry := by
  obtain ⟨c₁, _, _, hbody, _, rfl⟩ := yields_inModule h
  exact ⟨_, c₁, hbody, rfl, rfl⟩

section Persistent

variable {γ : Type} (f : Compilation → γ) [hf : Persistent f]

instance (path : String) : Keeps f (noteFailure path) :=
  keeps_modify fun _ => hf.eq _ _ rfl rfl rfl rfl

instance (kind : ScopeKind) (body : CompileM α) [Keeps f body] :
    Keeps f (inScope kind body) := by
  unfold inScope
  infer_instance

instance (path : String) (body : CompileM α) [Keeps f body] :
    Keeps f (inModule path body) := by
  refine ⟨fun c => ?_⟩
  have hleave : ∀ scope scopes, Keeps f (modify fun s => { s with
      scopes := scopes
      moduleScopes := s.moduleScopes.insert path scope
      path := c.path } : CompileM PUnit) :=
    fun _ _ => keeps_modify fun _ => hf.eq _ _ rfl rfl rfl rfl
  -- Entering the module changes the scopes and the path; everything after that is a step.
  have hrest : Keeps f (do
      let result ← attempt body
      if let .error _ := result then noteFailure path
      modifyScopes (·.truncate (c.scopes.depth + 1))
      let (scope, scopes) ← conclude (← get).scopes.pop
      modify fun s => { s with
        scopes := scopes
        moduleScopes := s.moduleScopes.insert path scope
        path := c.path }
      conclude result : CompileM α) := by
    refine .bind fun result => ?_
    dsimp only
    split <;> infer_instance
  refine (hrest.eq { c with
    scopes := c.scopes.push ((c.moduleScopes.find? path).getD (.opened (.module path)))
    path := path }).trans ?_
  exact hf.eq _ _ rfl rfl rfl rfl

instance (hash : TypeHash) (body : CompileM α) [Keeps f body] :
    Keeps f (Lowering.inClass hash body) := by
  unfold Lowering.inClass
  infer_instance

namespace Registration

instance (name : Ident) : Keeps f (requireNative name) := by
  unfold requireNative
  split
  · infer_instance
  · refine .bind fun c => ?_
    infer_instance

instance : Keeps f checkDeferred := by
  have hclear : Keeps f
      (modify fun s => { s with deferred := [] } : CompileM PUnit) :=
    keeps_modify fun _ => hf.eq _ _ rfl rfl rfl rfl
  unfold checkDeferred
  infer_instance

instance (p : PendingClass) : Keeps f (layoutPlan p) := by
  unfold layoutPlan
  infer_instance

end Registration

end Persistent

namespace Registration

/-! ## Globals -/

/-- Registering a global variable: it gets its storage, then the name gets its meaning, and the
variable is listed. -/
theorem registerGlobal_spec {path : String} {d : VarDecl} {c c' : Compilation} {u : Unit}
    (h : Yields (registerGlobal path d) c u c') :
    ∃ t c₁ c₂, Yields (Lowering.declaredType d) c t c₁ ∧
      Yields (defineTopLevel d.name.name
        (.variable ⟨t, .global c₁.frame.globalLength, d.isConst, d.span⟩) d.span)
        { c₁ with frame := (c₁.frame.allocGlobal (c₁.registry.length t)).2 } () c₂ ∧
      c' = { c₂ with
        globals := c₂.globals ++ [⟨.global c₁.frame.globalLength, t, d.init, path⟩] } := by
  unfold registerGlobal at h
  split at h
  · simp only [yields_bind, yields_fail, false_and, exists_false] at h
  · simp only [yields_bind, yields_lengthOf, yields_updateFrame, yields_modify, and_assoc,
      exists_and_left, exists_eq_left] at h
    obtain ⟨t, c₁, htype, _, c₂, hdefine, hc'⟩ := h
    exact ⟨t, c₁, c₂, htype, hdefine, hc'⟩

instance (path : String) (d : VarDecl) : Keeps Compilation.registry (registerGlobal path d) := by
  have hpush : ∀ g, Keeps Compilation.registry
      (modify fun s => { s with globals := s.globals ++ [g] } : CompileM PUnit) :=
    fun _ => keeps_modify fun _ => rfl
  unfold registerGlobal
  dsimp only
  infer_instance

instance keeps_registerGlobals (path : String) :
    ∀ items : List Item, Keeps Compilation.registry (registerGlobals path items)
  | [] => by
    unfold registerGlobals
    infer_instance
  | item :: rest => by
    have := keeps_registerGlobals path rest
    cases item <;> unfold registerGlobals <;> infer_instance

instance keeps_registerAllGlobals :
    ∀ ms : List Module, Keeps Compilation.registry (registerAllGlobals ms)
  | [] => by
    unfold registerAllGlobals
    infer_instance
  | m :: ms => by
    have := keeps_registerAllGlobals ms
    unfold registerAllGlobals
    infer_instance

/-! ## Steps that change one thing -/

theorem declareClass_effect {path : String} {d : ClassDecl} {c c' : Compilation}
    {p : PendingClass} (h : Yields (declareClass path d) c p c') :
    p = ⟨(Class.declared d.name.name path d.span d.isAbstract).hash, d, path⟩ ∧
      c.registry.class? p.hash = none ∧
      c'.registry = c.registry.addClass (.declared d.name.name path d.span d.isAbstract) := by
  simp only [declareClass, yields_bind, yields_get, and_assoc, exists_and_left,
    exists_eq_left] at h
  split at h
  · simp at h
  · rename_i hnone
    simp only [yields_bind, yields_modifyRegistry, yields_pure, exists_eq_left] at h
    obtain ⟨_, _, _, hdefine, rfl, rfl⟩ := h
    exact ⟨rfl, Option.eq_none_iff_forall_not_mem.mpr fun k hk => hnone k hk, hdefine.keeps⟩

theorem templateParam_name {t : TemplateDecl} {c c' : Compilation} {p : TemplateParam}
    (h : Yields (templateParam t) c p c') : p.name = t.name := by
  unfold templateParam at h
  split at h
  · rw [(yields_pure.mp h).1]
  · rw [yields_bind] at h
    obtain ⟨type, _, _, h⟩ := h
    split at h
    · rw [(yields_pure.mp h).1]
    · simp at h

theorem resolveTemplates_effect {p : PendingClass} {c c' : Compilation} {u : Unit}
    (h : Yields (resolveTemplates p) c u c') :
    ∃ ts : List TemplateParam, ts.map (·.name) = p.decl.templates.map (·.name) ∧
      c'.registry = c.registry.modifyClass p.hash fun k => { k with templates := ts } := by
  unfold resolveTemplates at h
  obtain ⟨c₀, c₁, hbody, hbefore, hafter⟩ := inModule_effect h
  simp only [yields_bind, yields_modifyClass] at hbody
  obtain ⟨ts, c₂, hts, _, rfl⟩ := hbody
  have hkept : c₂.registry = c₀.registry := hts.keeps
  exact ⟨ts, yields_mapM_map templateParam_name hts, by rw [hafter, ← hbefore, ← hkept]⟩

theorem resolveClass_isClass {t : TypeExpr} {c c' : Compilation} {type : Ty}
    (h : Yields (Lowering.resolveClass t) c type c') : type.isClass = true := by
  simp only [Lowering.resolveClass, yields_bind] at h
  obtain ⟨found, c₁, _, h⟩ := h
  split at h
  · rename_i hclass
    rw [(yields_pure.mp h).1]
    exact hclass
  · simp at h

theorem resolveBases_effect {p : PendingClass} {c c' : Compilation} {u : Unit}
    (h : Yields (resolveBases p) c u c') :
    ∃ bases, ((∀ t ∈ bases, Ty.isClass t = true) ∧ bases ≠ []) ∧
      c'.registry = c.registry.modifyClass p.hash fun k => { k with bases := bases } := by
  unfold resolveBases at h
  obtain ⟨c₀, c₁, hbody, hbefore, hafter⟩ := inModule_effect h
  simp only [yields_bind] at hbody
  obtain ⟨written, c₂, hwritten, hbody⟩ := hbody
  have hkept : c₂.registry = c₀.registry := hwritten.keeps
  have hclasses : ∀ t ∈ (if written.isEmpty then [Ty.classRef Class.rootHash] else written),
      Ty.isClass t = true := by
    split
    · exact List.forall_mem_singleton.mpr rfl
    · unfold Lowering.inClass at hwritten
      obtain ⟨_, _, hbody, _⟩ := yields_inScope hwritten
      obtain ⟨_, _, _, hmap⟩ := yields_bind.mp hbody
      exact yields_mapM_forall (fun _ _ _ _ _ hstep => resolveClass_isClass hstep) hmap
  have hsome : (if written.isEmpty then [Ty.classRef Class.rootHash] else written) ≠ [] := by
    split
    · exact List.cons_ne_nil _ _
    · rename_i hwritten
      simpa using hwritten
  generalize (if written.isEmpty then [Ty.classRef Class.rootHash] else written) = bases
    at hbody hclasses hsome
  split at hbody
  · simp at hbody
  · obtain ⟨_, rfl⟩ := yields_modifyClass.mp hbody
    exact ⟨bases, ⟨hclasses, hsome⟩, by rw [hafter, ← hbefore, ← hkept]⟩

theorem inheritArgs_effect {p : PendingClass} {c c' : Compilation} {u : Unit}
    (h : Yields (inheritArgs p) c u c') :
    ∃ k args, c.registry.class? p.hash = some k ∧
      inheritedArgs c.registry k.bases .empty = .ok args ∧
      c'.registry = c.registry.modifyClass p.hash fun k => { k with inherited := args } := by
  simp only [inheritArgs, yields_bind, yields_askRegistry, yields_modifyClass, and_assoc,
    exists_and_left, exists_eq_left] at h
  obtain ⟨k, hk, args, hargs, _, rfl⟩ := h
  exact ⟨k, args, Registry.getClass_eq_ok.mp hk, hargs, rfl⟩

theorem layOutClass_effect {plan : LayoutPlan} {c c' : Compilation} {u : Unit}
    (h : Yields (layOutClass plan) c u c') :
    ∃ k fields length, c.registry.class? plan.pending.hash = some k ∧
      Layout.layOut c.registry k plan.fields = .ok (fields, length) ∧
      c'.registry = c.registry.modifyClass plan.pending.hash
        fun k => { k with fields := fields, length := length } := by
  simp only [layOutClass, yields_bind, yields_modifyClass] at h
  obtain ⟨⟨fields, length⟩, c₁, hlayout, _, rfl⟩ := h
  have hkept : c₁.registry = c.registry := hlayout.keeps
  obtain ⟨c₀, _, hbody, hbefore, _⟩ := inModule_effect hlayout
  simp only [yields_askRegistry, except_bind_eq_ok, Registry.getClass_eq_ok] at hbody
  obtain ⟨⟨k, hk, hfields⟩, _⟩ := hbody
  rw [hbefore] at hk hfields
  exact ⟨k, fields, length, hk, hfields, by rw [hkept]⟩

/-- The signature of a declaration as it is registered. -/
def signatureOf (d : FunctionDecl) (owner : Owner) (params : List Ty) (result : Ty)
    (isAbstract : Bool) (id : Nat) : Signature where
  id := id
  name := d.name.name
  mangled := ""
  owner := owner
  params := params
  paramNames := d.params.map (·.name)
  result := result
  isAbstract := isAbstract
  isConst := d.isConst
  slot := none
  span := d.span

/-- The registry with one more function. -/
def pushFunction (r : Registry) (s : Signature) : Registry :=
  { r with functions := r.functions.push s }

theorem function?_pushFunction (r : Registry) (s : Signature) (id : Nat) :
    (pushFunction r s).function? id =
      if id = r.functions.size then some s else r.function? id :=
  Array.getElem?_push

/-- A function is the one that was added last, or was there before. -/
theorem new_or_old_of_pushFunction {r : Registry} {s t : Signature} {id : Nat}
    (h : (pushFunction r s).function? id = some t) :
    id = r.functions.size ∧ t = s ∨ id ≠ r.functions.size ∧ r.function? id = some t := by
  rw [function?_pushFunction] at h
  split at h
  · rename_i hnew
    injection h with h
    exact .inl ⟨hnew, h.symm⟩
  · rename_i hold
    exact .inr ⟨hold, h⟩

theorem yields_addSignature {d : FunctionDecl} {owner : Owner} {params : List Ty} {result : Ty}
    {isAbstract : Bool} {c c' : Compilation} {id : Nat} :
    Yields (addSignature d owner params result isAbstract) c id c' ↔
      id = c.registry.functions.size ∧ c' = { c with
        registry := pushFunction c.registry (signatureOf d owner params result isAbstract id) } := by
  simp only [addSignature, yields_updateRegistry, Registry.addFunction]
  constructor
  · rintro ⟨rfl, rfl⟩
    exact ⟨rfl, rfl⟩
  · rintro ⟨rfl, rfl⟩
    exact ⟨rfl, rfl⟩

theorem yields_queueBody {id : Nat} {body : PendingBody} {c c' : Compilation} {u : Unit} :
    Yields (queueBody id body) c u c' ↔ c' = { c with bodies := c.bodies.insert id body } :=
  yields_modify

/-- A function gets through only if its parameters differ from those of the others. -/
theorem checkOverload_spec {name : String} {params : List Ty} {span : Span} {ids : List Nat} :
    ∀ {c c' : Compilation} {u : Unit}, Yields (checkOverload name params span ids) c u c' →
      c' = c ∧ ∀ id ∈ ids, ∃ s, c.registry.function? id = some s ∧ s.params ≠ params := by
  induction ids with
  | nil =>
    intro c c' u h
    exact ⟨(yields_pure.mp h).2, List.forall_mem_nil _⟩
  | cons id ids ih =>
    intro c c' u h
    simp only [checkOverload, yields_bind, yields_askRegistry, Registry.getFunction_eq_ok] at h
    obtain ⟨s, _, ⟨hs, rfl⟩, h⟩ := h
    split at h
    · simp at h
    · rename_i hparams
      obtain ⟨rfl, hrest⟩ := ih h
      exact ⟨rfl, List.forall_mem_cons.mpr ⟨⟨s, hs, hparams⟩, hrest⟩⟩

end Registration

end ClassLang
