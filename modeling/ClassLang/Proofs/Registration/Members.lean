import ClassLang.Proofs.Registration.Hierarchy

/-!
# Layouts and signatures of an accepted program

Laying classes out fills in nothing but fields and lengths, and registering functions only adds
signatures, so the hierarchy stays as it is. Every method that comes out of it has a signature
with its name, types and kind, owned by its class; a template parameter may occur inside of its
types, but none of them is one.
-/

namespace ClassLang

open CompileM

/-- Whether a type is a template parameter itself. -/
def Ty.isParam : Ty → Bool
  | .param .. => true
  | _ => false

namespace Registration

/-! ## Layout -/

theorem layOutClass_changes {plan : LayoutPlan} {c c' : Compilation} {u : Unit}
    (h : Yields (layOutClass plan) c u c') :
    c.registry.Changes (fun _ => True) (fun k => { k with fields := [], length := 0 })
      c'.registry := by
  obtain ⟨_, fields, length, _, _, hset⟩ := layOutClass_effect h
  rw [hset]
  exact .modifyClass trivial fun _ => rfl

theorem foldlM_changes {α β : Type} {π : Class → β} {f : α → TypeHash → CompileM α}
    (hf : ∀ a x c b c', Yields (f a x) c b c' →
      c.registry.Changes (fun _ => True) π c'.registry) {xs : List TypeHash} :
    ∀ {a b : α} {c c' : Compilation}, Yields (xs.foldlM f a) c b c' →
      c.registry.Changes (fun _ => True) π c'.registry := by
  induction xs with
  | nil =>
    intro a b c c' h
    obtain ⟨_, rfl⟩ := yields_pure.mp h
    exact .refl ..
  | cons x xs ih =>
    intro a b c c' h
    rw [yields_foldlM_cons] at h
    obtain ⟨b₁, c₁, hx, hxs⟩ := h
    exact (hf a x c b₁ c₁ hx).trans (ih hxs)

theorem layOutWithin_changes {plans : Table TypeHash LayoutPlan} :
    ∀ (bound : Nat) (visiting done : List TypeHash) (hash : TypeHash) (c : Compilation)
      (done' : List TypeHash) (c' : Compilation),
      Yields (layOutWithin plans bound visiting done hash) c done' c' →
      c.registry.Changes (fun _ => True) (fun k => { k with fields := [], length := 0 })
        c'.registry
  | 0, visiting, done, hash, c, done', c', h => by
    simp only [layOutWithin, yields_pure] at h
    rw [h.2]
    exact .refl ..
  | bound + 1, visiting, done, hash, c, done', c', h => by
    unfold layOutWithin at h
    split at h
    · rw [(yields_pure.mp h).2]
      exact .refl ..
    · split at h
      · rw [(yields_pure.mp h).2]
        exact .refl ..
      · rename_i plan _
        dsimp only at h
        split at h
        · simp only [yields_bind] at h
          obtain ⟨_, _, hfail, _⟩ := h
          obtain ⟨_, _, hfail, _⟩ := inModule_effect hfail
          simp at hfail
        · simp only [yields_bind, yields_askRegistry, yields_pure] at h
          obtain ⟨k, c₁, ⟨_, rfl⟩, done₁, c₂, hdeps, _, c₃, hlayout, _, rfl⟩ := h
          exact (foldlM_changes (layOutWithin_changes bound (hash :: visiting)) hdeps).trans
            (layOutClass_changes hlayout)

theorem layOutAll_changes {ps : List PendingClass} {c c' : Compilation} {u : Unit}
    (h : Yields (layOutAll ps) c u c') :
    c.registry.Changes (fun _ => True) (fun k => { k with fields := [], length := 0 })
      c'.registry := by
  simp only [layOutAll, yields_bind, yields_pure] at h
  obtain ⟨plans, c₁, hplans, done, c₂, hrun, _, rfl⟩ := h
  have hkept : c₁.registry = c.registry := hplans.keeps
  rw [← hkept]
  exact foldlM_changes (layOutWithin_changes _ _) hrun

/-! ## Signatures -/

/-- Functions were added, and nothing else changed. -/
def AddsFunctions (r r' : Registry) : Prop :=
  ∃ more, r' = { r with functions := r.functions ++ more }

theorem AddsFunctions.refl (r : Registry) : AddsFunctions r r := ⟨#[], by simp⟩

theorem AddsFunctions.trans {r r₁ r₂ : Registry} (h₁ : AddsFunctions r r₁)
    (h₂ : AddsFunctions r₁ r₂) : AddsFunctions r r₂ := by
  obtain ⟨m₁, rfl⟩ := h₁
  obtain ⟨m₂, rfl⟩ := h₂
  exact ⟨m₁ ++ m₂, by simp⟩

theorem AddsFunctions.push {r r' : Registry} {s : Signature}
    (h : r' = { r with functions := r.functions.push s }) : AddsFunctions r r' :=
  ⟨#[s], by rw [h, Array.push_eq_append]⟩

theorem AddsFunctions.function? {r r' : Registry} (h : AddsFunctions r r') {id : Nat}
    {s : Signature} (hs : r.function? id = some s) : r'.function? id = some s := by
  obtain ⟨more, rfl⟩ := h
  unfold Registry.function? at hs ⊢
  obtain ⟨hlt, _⟩ := Array.getElem?_eq_some_iff.mp hs
  rw [Array.getElem?_append_left hlt]
  exact hs

/-- The signature of a method says what the method says. -/
structure Signature.Describes (s : Signature) (owner : TypeHash) (m : OwnMethod) : Prop where
  name : s.name = m.name
  owner_eq : s.owner = .classOf owner
  params : s.params = m.params
  result : s.result = m.result
  isAbstract : s.isAbstract = m.isAbstract
  isConst : s.isConst = m.isConst
  paramNames : s.paramNames.length = m.params.length

/-- A method has its signature in the registry, and none of its types is a template
parameter. -/
structure Signed (r : Registry) (owner : TypeHash) (m : OwnMethod) : Prop where
  signature : ∃ s, r.function? m.function = some s ∧ Signature.Describes s owner m
  params : ∀ t ∈ m.params, t.isParam = false
  result : m.result.isParam = false

theorem Signed.mono {r r' : Registry} (h : AddsFunctions r r') {owner : TypeHash}
    {m : OwnMethod} (hm : Signed r owner m) : Signed r' owner m := by
  obtain ⟨⟨s, hs, hdesc⟩, hparams, hresult⟩ := hm
  exact ⟨⟨s, h.function? hs, hdesc⟩, hparams, hresult⟩

theorem requireStorable_isParam {t : Ty} {name : String} {span : Span} {c c' : Compilation}
    {u : Unit} (h : Yields (requireStorable t name span) c u c') : t.isParam = false := by
  cases t with
  | param n b =>
    simp only [requireStorable, yields_fail] at h
  | _ => rfl

theorem resolveParams_isParam {ps : List Param} :
    ∀ {c c' : Compilation} {ts : List Ty}, Yields (ps.mapM resolveParam) c ts c' →
      ∀ t ∈ ts, t.isParam = false := by
  induction ps with
  | nil =>
    intro c c' ts h t ht
    rw [yields_mapM_nil] at h
    rw [h.1] at ht
    exact absurd ht List.not_mem_nil
  | cons p ps ih =>
    intro c c' ts h t ht
    rw [yields_mapM_cons] at h
    obtain ⟨t₁, c₁, rest, hp, hps, rfl⟩ := h
    rcases List.mem_cons.mp ht with rfl | ht
    · simp only [resolveParam, yields_bind, yields_pure] at hp
      obtain ⟨_, _, _, _, _, hstorable, rfl, _⟩ := hp
      exact requireStorable_isParam hstorable
    · exact ih hps t ht

/-- Parameters are resolved first, and the result is no template parameter. -/
theorem resolveSignature_spec {d : FunctionDecl} {c c' : Compilation} {params : List Ty}
    {result : Ty} (h : Yields (resolveSignature d) c (params, result) c') :
    (∃ c₁, Yields (d.params.mapM resolveParam) c params c₁) ∧ result.isParam = false := by
  simp only [resolveSignature, yields_bind] at h
  obtain ⟨ps, c₁, hps, h⟩ := h
  -- Whether the result was written or left out, it is checked before it is returned.
  have hresult : ∀ {t : Ty} {c₂ : Compilation}, Yields (do
      if let .param n _ := t then fail (.typing (.parameterReturned n)) d.span
      return (ps, t)) c₂ (params, result) c' → params = ps ∧ result.isParam = false := by
    intro t c₂ ht
    cases t with
    | param n b =>
      simp at ht
    | _ =>
      simp only [yields_pure, Prod.mk.injEq] at ht
      obtain ⟨⟨hparams, rfl⟩, _⟩ := ht
      exact ⟨hparams, rfl⟩
  split at h
  · simp only [yields_bind] at h
    obtain ⟨t, c₂, _, h⟩ := h
    obtain ⟨rfl, hr⟩ := hresult h
    exact ⟨⟨c₁, hps⟩, hr⟩
  · simp only [yields_bind] at h
    obtain ⟨t, c₂, _, h⟩ := h
    obtain ⟨rfl, hr⟩ := hresult h
    exact ⟨⟨c₁, hps⟩, hr⟩

theorem resolveSignature_types {d : FunctionDecl} {c c' : Compilation} {params : List Ty}
    {result : Ty} (h : Yields (resolveSignature d) c (params, result) c') :
    params.length = d.params.length ∧ (∀ t ∈ params, t.isParam = false) ∧
      result.isParam = false := by
  obtain ⟨⟨c₁, hps⟩, hr⟩ := resolveSignature_spec h
  exact ⟨yields_mapM_length hps, resolveParams_isParam hps, hr⟩

theorem resolveSignature_inClass {owner : TypeHash} {d : FunctionDecl} {c c' : Compilation}
    {params : List Ty} {result : Ty}
    (h : Yields (Lowering.inClass owner (resolveSignature d)) c (params, result) c') :
    params.length = d.params.length ∧ (∀ t ∈ params, t.isParam = false) ∧
      result.isParam = false := by
  unfold Lowering.inClass at h
  obtain ⟨c₁, _, hbody, _⟩ := yields_inScope h
  rw [yields_bind] at hbody
  obtain ⟨_, _, _, hsig⟩ := hbody
  exact resolveSignature_types hsig

/-- Registering a free function: its parameters differ from those of the other functions that the
name stands for, and its signature is added under the name. -/
theorem registerFunction_spec {path : String} {d : FunctionDecl} {c c' : Compilation} {u : Unit}
    (h : Yields (registerFunction path d) c u c') :
    ∃ c₁ params result, Yields (resolveSignature d) c (params, result) c₁ ∧
      (∀ ids span, c₁.scopes.current.find? d.name.name = some ⟨.functions ids, span⟩ →
        ∀ id ∈ ids, ∃ s, c₁.registry.function? id = some s ∧ s.params ≠ params) ∧
      Yields (defineTopLevel d.name.name (.functions [c₁.registry.functions.size]) d.span)
        { c₁ with
          registry := pushFunction c₁.registry
            (signatureOf d (.module path) params result false c₁.registry.functions.size)
          bodies := c₁.bodies.insert c₁.registry.functions.size ⟨d, none, path⟩ } u c' := by
  unfold registerFunction at h
  dsimp only at h
  split at h
  · simp at h
  split at h
  · simp at h
  simp only [yields_bind, yields_get, and_assoc, exists_and_left, exists_eq_left] at h
  obtain ⟨⟨params, result⟩, c₁, hsig, h⟩ := h
  refine ⟨c₁, params, result, hsig, ?_⟩
  -- Whether the name has overloads or not, the signature is added at the end.
  have hadd : Yields (do
      let id ← addSignature d (.module path) params result false
      queueBody id ⟨d, none, path⟩
      defineTopLevel d.name.name (.functions [id]) d.span) c₁ u c' →
      Yields (defineTopLevel d.name.name (.functions [c₁.registry.functions.size]) d.span)
        { c₁ with
          registry := pushFunction c₁.registry
            (signatureOf d (.module path) params result false c₁.registry.functions.size)
          bodies := c₁.bodies.insert c₁.registry.functions.size ⟨d, none, path⟩ } u c' := by
    intro hrest
    simp only [yields_bind, yields_addSignature, yields_queueBody] at hrest
    obtain ⟨_, _, ⟨rfl, rfl⟩, _, _, rfl, hdefine⟩ := hrest
    exact hdefine
  split at h
  · rename_i ids span hfind
    rw [yields_bind] at h
    obtain ⟨_, c₂, hover, h⟩ := h
    obtain ⟨rfl, hdiffer⟩ := checkOverload_spec hover
    refine ⟨fun ids' span' hfind' => ?_, hadd h⟩
    rw [hfind] at hfind'
    injection hfind' with hfind'
    injection hfind' with hids
    injection hids with hids
    exact hids ▸ hdiffer
  · rename_i hnone
    exact ⟨fun ids span hfind => absurd hfind (hnone ids span), hadd h⟩

/-- Registering a free function adds its signature. -/
theorem registerFunction_effect {path : String} {d : FunctionDecl} {c c' : Compilation} {u : Unit}
    (h : Yields (registerFunction path d) c u c') :
    ∃ c₁ params result, Yields (resolveSignature d) c (params, result) c₁ ∧
      c'.registry = pushFunction c.registry
        (signatureOf d (.module path) params result false c.registry.functions.size) := by
  obtain ⟨c₁, params, result, hsig, _, hdefine⟩ := registerFunction_spec h
  refine ⟨c₁, params, result, hsig, ?_⟩
  have h₁ : c₁.registry = c.registry := hsig.keeps
  rw [hdefine.keeps (f := Compilation.registry), h₁]

/-- Registering a method: it has a body unless it is abstract, and its signature is added. -/
theorem registerMethod_spec {path : String} {owner : TypeHash} {d : FunctionDecl}
    {c c' : Compilation} {m : OwnMethod} (h : Yields (registerMethod path owner d) c m c') :
    d.body.isSome = !d.isAbstract ∧ ∃ c₁ params result,
      Yields (Lowering.inClass owner (resolveSignature d)) c (params, result) c₁ ∧
      m = ⟨c₁.registry.functions.size, d.name.name, params, result, d.isConst, d.isAbstract, d.span⟩ ∧
      c' = { c₁ with
        registry := pushFunction c₁.registry
          (signatureOf d (.classOf owner) params result d.isAbstract c₁.registry.functions.size)
        bodies := if d.isAbstract then c₁.bodies
          else c₁.bodies.insert c₁.registry.functions.size ⟨d, some owner, path⟩ } := by
  unfold registerMethod at h
  dsimp only at h
  split at h
  · simp at h
  split at h
  · simp at h
  rename_i hone hother
  -- The two checks exclude a concrete method without a body and an abstract one with a body.
  have hbody : d.body.isSome = !d.isAbstract := by
    cases habstract : d.isAbstract <;> cases hsome : d.body <;> simp_all
  simp only [yields_bind, yields_addSignature] at h
  obtain ⟨⟨params, result⟩, c₁, hsig, _, _, ⟨rfl, rfl⟩, h⟩ := h
  refine ⟨hbody, c₁, params, result, hsig, ?_⟩
  rw [hbody] at h
  cases habstract : d.isAbstract with
  | true =>
    rw [habstract] at h
    obtain ⟨rfl, rfl⟩ := yields_pure.mp h
    exact ⟨rfl, rfl⟩
  | false =>
    rw [habstract] at h
    simp only [Bool.not_false, if_true, yields_bind, yields_queueBody, yields_pure] at h
    obtain ⟨_, _, rfl, rfl, rfl⟩ := h
    exact ⟨rfl, rfl⟩

/-- Registering a method adds its signature, which is that of the method. -/
theorem registerMethod_effect {path : String} {owner : TypeHash} {d : FunctionDecl}
    {c c' : Compilation} {m : OwnMethod} (h : Yields (registerMethod path owner d) c m c') :
    ∃ c₁, Yields (Lowering.inClass owner (resolveSignature d)) c (m.params, m.result) c₁ ∧
      m.function = c.registry.functions.size ∧ ∃ s : Signature,
        Signature.Describes s owner m ∧ c'.registry = pushFunction c.registry s := by
  obtain ⟨_, c₁, params, result, hsig, rfl, rfl⟩ := registerMethod_spec h
  have h₁ : c₁.registry = c.registry := hsig.keeps
  obtain ⟨hlen, _, _⟩ := resolveSignature_inClass hsig
  refine ⟨c₁, hsig, by rw [h₁], _, ⟨rfl, rfl, rfl, rfl, rfl, rfl, ?_⟩, by rw [h₁]⟩
  rw [signatureOf, List.length_map, hlen]

/-- Every method that is registered for a class has its signature. -/
def AllSigned (r : Registry) (methods : List (TypeHash × OwnMethod)) : Prop :=
  ∀ x ∈ methods, Signed r x.1 x.2

/-- Registering declarations adds signatures; `ms` are the methods among them. -/
structure Registers (r r' : Registry) (ms : List (TypeHash × OwnMethod)) : Prop where
  adds : AddsFunctions r r'
  signed : AllSigned r' ms
  listed : ∀ {id s h}, r'.function? id = some s → s.owner = .classOf h →
    r.function? id = some s ∨ ∃ m, (h, m) ∈ ms ∧ m.function = id

namespace Registers

variable {r r₁ r' : Registry} {ms ns : List (TypeHash × OwnMethod)}

theorem refl (r : Registry) : Registers r r [] where
  adds := .refl r
  signed _ hx := absurd hx List.not_mem_nil
  listed hs _ := .inl hs

theorem trans (h₁ : Registers r r₁ ms) (h₂ : Registers r₁ r' ns) : Registers r r' (ms ++ ns) where
  adds := h₁.adds.trans h₂.adds
  signed x hx := (List.mem_append.mp hx).elim (fun hx => (h₁.signed x hx).mono h₂.adds)
    (h₂.signed x)
  listed hs howner := by
    rcases h₂.listed hs howner with hs | ⟨m, hm, hid⟩
    · rcases h₁.listed hs howner with hs | ⟨m, hm, hid⟩
      · exact .inl hs
      · exact .inr ⟨m, List.mem_append_left _ hm, hid⟩
    · exact .inr ⟨m, List.mem_append_right _ hm, hid⟩

end Registers

theorem registerFunction_registers {path : String} {d : FunctionDecl} {c c' : Compilation}
    {u : Unit} (h : Yields (registerFunction path d) c u c') :
    Registers c.registry c'.registry [] := by
  obtain ⟨_, _, _, _, hpush⟩ := registerFunction_effect h
  refine ⟨.push hpush, fun _ hx => absurd hx List.not_mem_nil, fun {id s h} hs howner => ?_⟩
  rw [hpush] at hs
  obtain ⟨_, rfl⟩ | ⟨_, hs⟩ := new_or_old_of_pushFunction hs
  · cases howner
  · exact .inl hs

theorem registerMethod_registers {path : String} {owner : TypeHash} {d : FunctionDecl}
    {c c' : Compilation} {m : OwnMethod} (h : Yields (registerMethod path owner d) c m c') :
    Registers c.registry c'.registry [(owner, m)] := by
  obtain ⟨c₁, hsig, hid, s, hdesc, hpush⟩ := registerMethod_effect h
  obtain ⟨_, hp, hr⟩ := resolveSignature_inClass hsig
  refine ⟨.push hpush, List.forall_mem_singleton.mpr ⟨⟨s, ?_, hdesc⟩, hp, hr⟩, ?_⟩
  · rw [hpush, function?_pushFunction, if_pos hid]
  · intro id s' k hs howner
    rw [hpush] at hs
    obtain ⟨hnew, rfl⟩ | ⟨_, hs⟩ := new_or_old_of_pushFunction hs
    · rw [hdesc.owner_eq] at howner
      injection howner with howner
      exact .inr ⟨m, howner ▸ List.mem_singleton_self _, hid.trans hnew.symm⟩
    · exact .inl hs

theorem registerMethods_registers {path : String} {owner : TypeHash} {ds : List FunctionDecl} :
    ∀ {c c' : Compilation} {ms : List OwnMethod},
      Yields (ds.mapM (registerMethod path owner)) c ms c' →
      Registers c.registry c'.registry (ms.map fun m => (owner, m)) := by
  induction ds with
  | nil =>
    intro c c' ms h
    obtain ⟨rfl, rfl⟩ := yields_mapM_nil.mp h
    exact .refl _
  | cons d ds ih =>
    intro c c' ms h
    obtain ⟨m, c₁, rest, hm, hrest, rfl⟩ := yields_mapM_cons.mp h
    exact (registerMethod_registers hm).trans (ih hrest)

theorem registerItem_registers {path : String} {item : Item} {c c' : Compilation}
    {ms : List (TypeHash × OwnMethod)} {n : Nat}
    (h : Yields (registerItem path item) c (ms, n) c') : Registers c.registry c'.registry ms := by
  cases item with
  | function d =>
    simp only [registerItem, yields_bind, yields_pure, Prod.mk.injEq] at h
    obtain ⟨_, c₁, hd, ⟨rfl, _⟩, rfl⟩ := h
    exact registerFunction_registers hd
  | classDecl d =>
    simp only [registerItem, yields_bind, yields_pure, Prod.mk.injEq] at h
    obtain ⟨hash, c₁, hhash, methods, c₂, hmethods, ⟨rfl, _⟩, rfl⟩ := h
    have h₁ : c₁.registry = c.registry := hhash.keeps
    exact h₁ ▸ registerMethods_registers hmethods
  | _ =>
    simp only [registerItem, yields_pure, Prod.mk.injEq] at h
    obtain ⟨⟨rfl, _⟩, rfl⟩ := h
    exact .refl _

theorem registerItems_registers {path : String} {items : List Item} :
    ∀ {c c' : Compilation} {ms : List (TypeHash × OwnMethod)} {n : Nat},
      Yields (registerItems path items) c (ms, n) c' → Registers c.registry c'.registry ms := by
  induction items with
  | nil =>
    intro c c' ms n h
    simp only [registerItems, yields_pure, Prod.mk.injEq] at h
    obtain ⟨⟨rfl, _⟩, rfl⟩ := h
    exact .refl _
  | cons item items ih =>
    intro c c' ms n h
    simp only [registerItems, yields_bind, yields_pure, Prod.mk.injEq] at h
    obtain ⟨⟨ms₁, n₁⟩, c₁, hitem, ⟨ms₂, n₂⟩, c₂, hrest, ⟨rfl, _⟩, rfl⟩ := h
    exact (registerItem_registers hitem).trans (ih hrest)

theorem registerModules_registers {modules : List Module} :
    ∀ {c c' : Compilation} {ms : List (TypeHash × OwnMethod)} {n : Nat},
      Yields (registerModules modules) c (ms, n) c' → Registers c.registry c'.registry ms := by
  induction modules with
  | nil =>
    intro c c' ms n h
    simp only [registerModules, yields_pure, Prod.mk.injEq] at h
    obtain ⟨⟨rfl, _⟩, rfl⟩ := h
    exact .refl _
  | cons m modules ih =>
    intro c c' ms n h
    simp only [registerModules, yields_bind, yields_pure, Prod.mk.injEq] at h
    obtain ⟨⟨ms₁, n₁⟩, c₁, hmodule, ⟨ms₂, n₂⟩, c₂, hrest, ⟨rfl, _⟩, rfl⟩ := h
    obtain ⟨k, k₁, hbody, hbefore, hafter⟩ := inModule_effect hmodule
    have hitems := registerItems_registers hbody
    rw [hbefore, ← hafter] at hitems
    exact hitems.trans (ih hrest)

end Registration

end ClassLang
