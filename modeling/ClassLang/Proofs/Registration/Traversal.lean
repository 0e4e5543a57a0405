import ClassLang.Proofs.Registration.Effects
import ClassLang.Proofs.Registration.Reports

/-!
# Properties of all steps of registration

As with lowering: a property of steps that sequences keep, and that the smallest steps of
registration have, holds for the registration of a program. Small are the changes to the lists that
registration fills, the changes to the scopes, and the probes of the types of globals; modules and
scopes have the property when what is done in them has it.
-/

-- The instances of long steps are large terms.
set_option synthInstance.maxSize 1000

namespace ClassLang

open CompileM Lowering

/-- The state without the lists that registration fills before it comes to globals. -/
def Compilation.desk (c : Compilation) : Compilation :=
  { c with
    registry := Registry.initial 0
    deferring := false
    deferred := [] }

/-- The meaning is not a native. -/
class Meaning.Ordinary (d : Meaning) : Prop where
  ne_native : ∀ n, d ≠ .native n

instance (b : Binding) : (Meaning.variable b).Ordinary := ⟨fun _ h => by cases h⟩

instance (ids : List Nat) : (Meaning.functions ids).Ordinary := ⟨fun _ h => by cases h⟩

instance (hash : TypeHash) : (Meaning.classOf hash).Ordinary := ⟨fun _ h => by cases h⟩

instance (t : Ty) : (Meaning.typeParam t).Ordinary := ⟨fun _ h => by cases h⟩

/-- A property of the smallest steps of registration. -/
class Enlists (P : (α : Type) → CompileM α → Prop) : Prop extends Reading P where
  files {α : Type} (g : Compilation → α × Compilation) : (∀ c, (g c).2.desk = c.desk) →
    P α (modifyGet g)
  define (name : String) (d : Meaning) [d.Ordinary] (span : Span) : P Unit (define name d span)
  defineGlobal (name : String) (d : Meaning) [d.Ordinary] (span : Span) :
    P Unit (updateScopes (·.defineGlobal name d span))
  allocGlobal (n : Nat) : P Address (updateFrame (·.allocGlobal n))
  attempt {α : Type} {m : CompileM α} : P α m → P (Except CompileError α) (attempt m)
  inScope {α : Type} {kind : ScopeKind} {body : CompileM α} : P α body → P α (inScope kind body)
  inModule {α : Type} {path : String} {body : CompileM α} : P α body → P α (inModule path body)

/-- A property that steps have which only read the state, whatever they report. -/
class Indifferent (P : (α : Type) → CompileM α → Prop) : Prop where
  reads {α : Type} (m : CompileM α) [Reads m] : P α m

instance (priority := low) has_of_reads {P : (α : Type) → CompileM α → Prop} [Indifferent P] {α : Type}
    (m : CompileM α) [Reads m] : Has P m := ⟨Indifferent.reads m⟩

/-- A property of the steps that require natives, too. -/
class EnlistsNatives (P : (α : Type) → CompileM α → Prop) : Prop extends Enlists P where
  defineNative (name : String) (n : Native) (span : Span) :
    P Unit (CompileM.define name (.native n) span)

/-- A property of the steps that queue bodies, too. -/
class EnlistsBodies (P : (α : Type) → CompileM α → Prop) : Prop extends Enlists P where
  queueBody (id : Nat) (body : PendingBody) : P Unit (Registration.queueBody id body)

/-- A property of the steps that register globals, too; their types may be those of expressions. -/
class EnlistsGlobals (P : (α : Type) → CompileM α → Prop) : Prop extends Enlists P where
  probeType (e : Expr) : P Ty (probeType e)
  pushGlobal (g : PendingGlobal) : P PUnit (modify fun s => { s with globals := s.globals ++ [g] })

section Enlists

variable {P : (α : Type) → CompileM α → Prop} [Enlists P] {α β : Type}

instance (g : Registry → Registry) : Has P (modifyRegistry g) :=
  ⟨Enlists.files (fun c => ((), { c with registry := g c.registry })) fun _ => rfl⟩

instance (g : Registry → α × Registry) : Has P (updateRegistry g) :=
  ⟨Enlists.files _ fun _ => rfl⟩

instance (hash : TypeHash) (f : Class → Class) : Has P (modifyClass hash f) := by
  unfold modifyClass
  infer_instance

instance (name : String) (d : Meaning) [d.Ordinary] (span : Span) : Has P (define name d span) :=
  ⟨Enlists.define name d span⟩

instance (name : String) (d : Meaning) [d.Ordinary] (span : Span) :
    Has P (updateScopes (·.defineGlobal name d span)) := ⟨Enlists.defineGlobal name d span⟩

instance (name : String) (d : Meaning) [d.Ordinary] (span : Span) :
    Has P (defineTopLevel name d span) := by
  unfold defineTopLevel
  infer_instance

instance (hash : TypeHash) : Has P (defineTemplates hash) := by
  unfold defineTemplates
  infer_instance

instance (n : Nat) : Has P (updateFrame (·.allocGlobal n)) := ⟨Enlists.allocGlobal n⟩

instance (m : CompileM α) [hm : Has P m] : Has P (attempt m) := ⟨Enlists.attempt hm.out⟩

instance (kind : ScopeKind) (body : CompileM α) [hbody : Has P body] : Has P (inScope kind body) :=
  ⟨Enlists.inScope hbody.out⟩

instance has_inModule (path : String) (body : CompileM α) [hbody : Has P body] :
    Has P (inModule path body) := ⟨Enlists.inModule hbody.out⟩

instance (hash : TypeHash) (body : CompileM α) [Has P body] : Has P (inClass hash body) := by
  unfold inClass
  infer_instance

instance has_mapM (g : α → CompileM β) (xs : List α) [∀ x, Has P (g x)] : Has P (xs.mapM g) := by
  induction xs with
  | nil =>
    rw [List.mapM_nil]
    infer_instance
  | cons x xs ih =>
    rw [List.mapM_cons]
    infer_instance

instance has_foldlM (g : β → α → CompileM β) (b : β) (xs : List α) [∀ b x, Has P (g b x)] :
    Has P (xs.foldlM g b) := by
  induction xs generalizing b with
  | nil => exact has_pure b
  | cons x xs ih =>
    rw [List.foldlM_cons]
    exact .bind ih

namespace Registration

/-! ## Headers -/

instance (path : String) (d : ClassDecl) : Has P (declareClass path d) := by
  unfold declareClass
  refine .bind fun c => ?_
  dsimp only
  split <;> infer_instance

instance (t : TemplateDecl) : Has P (templateParam t) := by
  unfold templateParam
  split
  · infer_instance
  · refine .bind fun type => ?_
    split <;> infer_instance

instance (p : PendingClass) : Has P (resolveTemplates p) := by
  unfold resolveTemplates
  infer_instance

instance (p : PendingClass) : Has P (resolveBases p) := by
  unfold resolveBases
  refine @has_inModule _ _ _ _ _ (.bind fun written => ?_)
  dsimp only
  split <;> infer_instance

instance [Indifferent P] (classes : List PendingClass) : Has P (resolveHeaders classes) := by
  have hdefer : ∀ b, Has P (modify fun s => { s with deferring := b } : CompileM PUnit) :=
    fun b => ⟨Enlists.files (fun c => (PUnit.unit, { c with deferring := b })) fun _ => rfl⟩
  unfold resolveHeaders
  infer_instance

instance has_linearizeFrom [Indifferent P] (bases : Linearization.Bases) :
    ∀ (ps : List PendingClass) (memo : Linearization.Memo), Has P (linearizeFrom bases ps memo)
  | [], memo => by
    unfold linearizeFrom
    infer_instance
  | p :: rest, memo => by
    have := has_linearizeFrom bases rest
    unfold linearizeFrom
    split <;> infer_instance

instance [Indifferent P] (classes : List PendingClass) : Has P (linearizeAll classes) := by
  unfold linearizeAll
  infer_instance

instance : Has P checkDeferred := by
  have hclear : Has P (modify fun s => { s with deferred := [] } : CompileM PUnit) :=
    ⟨Enlists.files (fun c => (PUnit.unit, { c with deferred := [] })) fun _ => rfl⟩
  unfold checkDeferred
  infer_instance

/-! ## Members -/

instance (p : PendingClass) : Has P (inheritArgs p) := by
  unfold inheritArgs
  infer_instance

instance (f : FieldDecl) : Has P (resolveField f) := by
  unfold resolveField
  infer_instance

instance (p : PendingClass) : Has P (layoutPlan p) := by
  unfold layoutPlan
  infer_instance

instance (plan : LayoutPlan) : Has P (layOutClass plan) := by
  unfold layOutClass
  infer_instance

instance has_layOutWithin [Indifferent P] (plans : Table TypeHash LayoutPlan) :
    ∀ (n : Nat) (visiting done : List TypeHash) (hash : TypeHash),
      Has P (layOutWithin plans n visiting done hash)
  | 0, _, _, _ => by
    unfold layOutWithin
    infer_instance
  | n + 1, visiting, done, hash => by
    have := has_layOutWithin plans n
    have hrest : ∀ plan : LayoutPlan, Has P (do
        let c ← askRegistry (·.getClass hash)
        let done ← (layoutDependencies c plan.fields).foldlM
          (layOutWithin plans n (hash :: visiting)) done
        layOutClass plan
        return hash :: done) := fun plan => inferInstance
    unfold layOutWithin
    dsimp only
    split
    · infer_instance
    · split
      · infer_instance
      · split <;> infer_instance

instance [Indifferent P] (classes : List PendingClass) : Has P (layOutAll classes) := by
  unfold layOutAll
  infer_instance

instance (p : Param) : Has P (resolveParam p) := by
  unfold resolveParam
  infer_instance

instance (d : FunctionDecl) : Has P (resolveSignature d) := by
  unfold resolveSignature
  refine .bind fun params => ?_
  dsimp only
  split
  · refine .bind fun result => ?_
    split <;> infer_instance
  · refine .bind fun result => ?_
    split <;> infer_instance

instance (d : FunctionDecl) (owner : Owner) (params : List Ty) (result : Ty) (isAbstract : Bool) :
    Has P (addSignature d owner params result isAbstract) := by
  unfold addSignature
  infer_instance

instance has_checkOverload (name : String) (params : List Ty) (span : Span) :
    ∀ ids : List Nat, Has P (checkOverload name params span ids)
  | [] => by
    unfold checkOverload
    infer_instance
  | id :: rest => by
    have := has_checkOverload name params span rest
    unfold checkOverload
    infer_instance

instance [Indifferent P] (p : PendingClass) (own : List OwnMethod) : Has P (buildMethodTable p own) := by
  unfold buildMethodTable
  infer_instance

instance [Indifferent P] (methods : List (TypeHash × OwnMethod)) (classes : List PendingClass) :
    Has P (buildMethodTables methods classes) := by
  unfold buildMethodTables
  infer_instance

instance : Has P assignLinkNames := by
  unfold assignLinkNames
  infer_instance

end Registration

end Enlists

section Natives

variable {P : (α : Type) → CompileM α → Prop} [EnlistsNatives P]

namespace Registration

instance (name : Ident) : Has P (requireNative name) := by
  have hdefine : ∀ n, Has P (define name.name (.native n) name.span) :=
    fun n => ⟨EnlistsNatives.defineNative ..⟩
  unfold requireNative
  split
  · infer_instance
  · refine .bind fun c => ?_
    infer_instance

instance has_declareItems (path : String) :
    ∀ items : List Item, Has P (declareItems path items)
  | [] => by
    unfold declareItems
    infer_instance
  | item :: rest => by
    have := has_declareItems path rest
    cases item <;> unfold declareItems <;> infer_instance

instance has_declareModules : ∀ ms : List Module, Has P (declareModules ms)
  | [] => by
    unfold declareModules
    infer_instance
  | m :: ms => by
    have := has_declareModules ms
    unfold declareModules
    infer_instance

end Registration

end Natives

section Bodies

variable {P : (α : Type) → CompileM α → Prop} [EnlistsBodies P]

namespace Registration

instance (id : Nat) (body : PendingBody) : Has P (queueBody id body) :=
  ⟨EnlistsBodies.queueBody id body⟩

instance (path : String) (d : FunctionDecl) : Has P (registerFunction path d) := by
  have hadd : ∀ params result, Has P (do
      if let some ⟨.functions ids, _⟩ := (← get).scopes.current.find? d.name.name then
        checkOverload d.name.name params d.span ids
      let id ← addSignature d (.module path) params result false
      queueBody id ⟨d, none, path⟩
      defineTopLevel d.name.name (.functions [id]) d.span : CompileM Unit) := by
    intro params result
    refine .bind fun c => ?_
    dsimp only
    split <;> infer_instance
  unfold registerFunction
  dsimp only
  infer_instance

instance (path : String) (owner : TypeHash) (d : FunctionDecl) :
    Has P (registerMethod path owner d) := by
  unfold registerMethod
  dsimp only
  infer_instance

instance (d : ClassDecl) : Has P (declaredClass d) := by
  unfold declaredClass
  refine .bind fun c => ?_
  split <;> infer_instance

instance (path : String) (item : Item) : Has P (registerItem path item) := by
  cases item <;> unfold registerItem <;> infer_instance

instance has_registerItems (path : String) :
    ∀ items : List Item, Has P (registerItems path items)
  | [] => by
    unfold registerItems
    infer_instance
  | item :: rest => by
    have := has_registerItems path rest
    unfold registerItems
    infer_instance

instance has_registerModules : ∀ ms : List Module, Has P (registerModules ms)
  | [] => by
    unfold registerModules
    infer_instance
  | m :: ms => by
    have := has_registerModules ms
    unfold registerModules
    infer_instance

end Registration

end Bodies

section Globals

variable {P : (α : Type) → CompileM α → Prop} [EnlistsGlobals P]

namespace Registration

instance (d : VarDecl) : Has P (declaredType d) :=
  has_declaredType d fun e _ => ⟨EnlistsGlobals.probeType e⟩

instance (path : String) (d : VarDecl) : Has P (registerGlobal path d) := by
  have hpush : ∀ g, Has P
      (modify fun s => { s with globals := s.globals ++ [g] } : CompileM PUnit) :=
    fun g => ⟨EnlistsGlobals.pushGlobal g⟩
  unfold registerGlobal
  dsimp only
  infer_instance

instance has_registerGlobals (path : String) :
    ∀ items : List Item, Has P (registerGlobals path items)
  | [] => by
    unfold registerGlobals
    infer_instance
  | item :: rest => by
    have := has_registerGlobals path rest
    cases item <;> unfold registerGlobals <;> infer_instance

instance has_registerAllGlobals : ∀ ms : List Module, Has P (registerAllGlobals ms)
  | [] => by
    unfold registerAllGlobals
    infer_instance
  | m :: ms => by
    have := has_registerAllGlobals ms
    unfold registerAllGlobals
    infer_instance

instance (p : Program) [EnlistsNatives P] [EnlistsBodies P] [Indifferent P] : Has P (run p) := by
  unfold run
  refine .bind fun _ => .bind fun _ => .bind fun _ => .bind fun _ => .bind fun _ => .bind fun _ => ?_
  dsimp only
  infer_instance

end Registration

end Globals

end ClassLang
