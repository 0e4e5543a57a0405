import ClassLang.Proofs.Lowering.Scopes
import ClassLang.Proofs.Registration.Names

/-!
# Overloads

A free function is registered together with its name in the scope of its module, and only after its
parameters were compared with those of all functions that the name stands for there. So the free
functions of a module that share a name have different parameters. The types of a signature are
named where its class, if there is one, makes its template parameters visible. Every function that
is not abstract has a body that waits to be compiled.
-/

namespace ClassLang

open CompileM

/-- The template parameters that are visible in the signature of a function. -/
def Registry.visibleParams (r : Registry) : Owner → List TemplateParam
  | .module _ => []
  | .classOf h => ((r.class? h).map (·.templates)).getD []

namespace Scopes

variable {s s' : Scopes} {scope : Scope} {n : Nat}

/-- The scope that is left is the innermost one. -/
theorem eq_current_of_pop (hn : s.inner.length = n + 1)
    (h : (s.truncate (n + 2)).pop = .ok (scope, s')) : scope = s.current := by
  obtain ⟨global, inner⟩ := s
  cases inner with
  | nil => cases hn
  | cons first rest =>
    have hdrop : (first :: rest).length - (n + 2 - 1) = 0 := by
      dsimp only at hn
      omega
    unfold truncate at h
    dsimp only at h
    rw [hdrop] at h
    injection h with h
    injection h with hfirst
    exact hfirst.symm

/-- Names in the global scope leave the innermost one alone if that is another one. -/
theorem current_of_inner (hn : s.inner.length = n + 1) (x g : Scope) :
    ({ s.replace x with global := g } : Scopes).current = x ∧
      ({ s.replace x with global := g } : Scopes).inner.length = n + 1 := by
  obtain ⟨global, inner⟩ := s
  cases inner with
  | nil => cases hn
  | cons first rest => exact ⟨rfl, hn⟩

end Scopes

namespace Registration

/-- What is known about a function with its number when it is registered. -/
structure Registered (p : Program) (r : Registry) (id : Nat) (s : Signature) : Prop where
  id_eq : s.id = id
  name : s.name ∈ p.names
  owner : ∀ h, s.owner = .classOf h →
    ∃ d ∈ p.classes, ∃ k, r.class? h = some k ∧ k.name = d.name.name
  nodup : ((r.visibleParams s.owner).map (·.name)).Nodup
  named : ∀ t ∈ s.params, t.Named r (r.visibleParams s.owner)
  free : ∀ path, s.owner = .module path → s.isAbstract = false

/-- Every free function is listed under its name in the scope of its module, and those that are
listed together have different parameters. -/
structure Overloads (r : Registry) (modules : Table String Scope) : Prop where
  listed : ∀ {id s path}, r.function? id = some s → s.owner = .module path →
    ∃ x ids span, modules.find? path = some x ∧ x.find? s.name = some ⟨.functions ids, span⟩ ∧
      id ∈ ids
  different : ∀ {id id' s s' path}, r.function? id = some s → r.function? id' = some s' →
    s.owner = .module path → s'.owner = .module path → s.name = s'.name → s.params = s'.params →
    id = id'

/-- What holds while functions are registered; `modules` are the scopes of the modules as they would
be if the current one were left. -/
structure Functions (p : Program) (modules : Table String Scope) (c : Compilation) : Prop where
  outside : c.Outside (fun _ => False) false
  identified : c.registry.Identified
  unique : c.registry.NamesUnique
  registered : ∀ {id s}, c.registry.function? id = some s → Registered p c.registry id s
  queued : ∀ {id s}, c.registry.function? id = some s → s.isAbstract = false →
    ∃ body, c.bodies.find? id = some body
  overloads : Overloads c.registry modules

namespace Overloads

variable {r : Registry} {modules : Table String Scope} {s : Signature} {path : String}

/-- A method changes nothing. -/
theorem push_method (h : Overloads r modules) {owner : TypeHash} (hs : s.owner = .classOf owner) :
    Overloads (pushFunction r s) modules := by
  have hold : ∀ {id t path}, (pushFunction r s).function? id = some t → t.owner = .module path →
      r.function? id = some t := by
    intro id t path ht howner
    obtain ⟨_, rfl⟩ | ⟨_, ht⟩ := new_or_old_of_pushFunction ht
    · rw [hs] at howner
      cases howner
    · exact ht
  exact ⟨fun ht howner => h.listed (hold ht howner) howner, fun ht ht' howner howner' =>
    h.different (hold ht howner) (hold ht' howner') howner howner'⟩

/-- The meaning of a name where a new overload of it was defined includes the new function and those
that it stood for before. -/
theorem find?_define_overload {x x' : Scope} {name : String} {id : Nat} {span : Span}
    (h : x.define name (.functions [id]) span = .ok x') :
    ∃ ids first, x'.find? name = some ⟨.functions ids, first⟩ ∧ id ∈ ids ∧
      ∀ before first, x.find? name = some ⟨.functions before, first⟩ → before ⊆ ids := by
  obtain ⟨e, rfl, he⟩ := Scope.define_effect h
  have hfound : Scope.find? { x with entries := x.entries.insert name e } name = some e :=
    Table.find?_insert_self ..
  rw [hfound]
  rcases he with ⟨hnone, rfl⟩ | ⟨ids, more, first, hsome, hmore, rfl⟩
  · refine ⟨_, _, rfl, List.mem_singleton_self _, fun before first hbefore => ?_⟩
    rw [hnone] at hbefore
    cases hbefore
  · injection hmore with hmore
    subst hmore
    refine ⟨_, _, rfl, Scope.mem_mergeIds.mpr (.inr (List.mem_singleton_self _)),
      fun before first' hbefore k hk => Scope.mem_mergeIds.mpr (.inl ?_)⟩
    rw [hsome] at hbefore
    injection hbefore with hbefore
    injection hbefore with hbefore
    injection hbefore with hbefore
    exact hbefore ▸ hk

/-- No function of the module has the name and the parameters of one that differs from all that the
name stands for there. -/
theorem params_ne (h : Overloads r modules) {x : Scope} (hx : modules.find? path = some x)
    (hdiffer : ∀ ids first, x.find? s.name = some ⟨.functions ids, first⟩ →
      ∀ id ∈ ids, ∃ t, r.function? id = some t ∧ t.params ≠ s.params)
    {id : Nat} {t : Signature} (ht : r.function? id = some t) (howner : t.owner = .module path)
    (hname : t.name = s.name) : t.params ≠ s.params := by
  obtain ⟨y, ids, first, hy, hfind, hid⟩ := h.listed ht howner
  obtain rfl : x = y := Option.some.inj (hx.symm.trans hy)
  rw [hname] at hfind
  obtain ⟨t', ht', hparams⟩ := hdiffer ids first hfind id hid
  obtain rfl : t = t' := Option.some.inj (ht.symm.trans ht')
  exact hparams

/-- A free function becomes an overload of its name in its module. -/
theorem push_function (h : Overloads r modules) (hs : s.owner = .module path)
    {modules' : Table String Scope} {x x' : Scope} {span : Span} (hx : modules.find? path = some x)
    (hx' : modules'.find? path = some x')
    (hother : ∀ q, path ≠ q → modules'.find? q = modules.find? q)
    (hdefine : x.define s.name (.functions [r.functions.size]) span = .ok x')
    (hdiffer : ∀ ids first, x.find? s.name = some ⟨.functions ids, first⟩ →
      ∀ id ∈ ids, ∃ t, r.function? id = some t ∧ t.params ≠ s.params) :
    Overloads (pushFunction r s) modules' := by
  have hpath : ∀ {q}, s.owner = .module q → path = q := by
    intro q howner
    rw [hs] at howner
    injection howner
  -- Other names and other modules are as before.
  obtain ⟨new, span', hfound, hnew, hold⟩ := find?_define_overload hdefine
  constructor
  · intro id t q ht howner
    obtain ⟨rfl, rfl⟩ | ⟨_, ht⟩ := new_or_old_of_pushFunction ht
    · obtain rfl := hpath howner
      exact ⟨x', new, span', hx', hfound, hnew⟩
    · obtain ⟨y, ids, first, hy, hfind, hid⟩ := h.listed ht howner
      by_cases hq : path = q
      · subst hq
        obtain rfl : x = y := Option.some.inj (hx.symm.trans hy)
        by_cases hname : s.name = t.name
        · rw [← hname] at hfind ⊢
          exact ⟨x', new, span', hx', hfound, hold ids first hfind hid⟩
        · exact ⟨x', ids, first, hx', (Scope.find?_define_of_ne hdefine hname).trans hfind, hid⟩
      · exact ⟨y, ids, first, (hother q hq).trans hy, hfind, hid⟩
  · intro id id' t t' q ht ht' howner howner' hname hparams
    obtain ⟨rfl, rfl⟩ | ⟨_, hbefore⟩ := new_or_old_of_pushFunction ht <;>
      obtain ⟨rfl, rfl⟩ | ⟨_, hbefore'⟩ := new_or_old_of_pushFunction ht'
    · rfl
    · obtain rfl := hpath howner
      exact absurd hparams.symm (h.params_ne hx hdiffer hbefore' howner' hname.symm)
    · obtain rfl := hpath howner'
      exact absurd hparams (h.params_ne hx hdiffer hbefore howner hname)
    · exact h.different hbefore hbefore' howner howner' hname hparams

end Overloads

/-- What is known of a function depends on the headers of classes, and on what its signature says
apart from the slot and the linkable name. -/
theorem Registered.congr {p : Program} {r r' : Registry} {id : Nat} {s t : Signature}
    (h : Registered p r id s) (hr : SameHeaders r r')
    (ht : t = { s with slot := t.slot, mangled := t.mangled }) : Registered p r' id t := by
  have hvisible : r'.visibleParams t.owner = r.visibleParams s.owner := by
    rw [ht]
    show r'.visibleParams s.owner = r.visibleParams s.owner
    cases s.owner with
    | module path => rfl
    | classOf k =>
      have htemplates := congrArg (Option.map Class.templates) (hr k)
      rw [Option.map_map, Option.map_map] at htemplates
      exact congrArg (·.getD []) htemplates
  have hclass : ∀ {k d}, r.class? k = some d → ∃ d', r'.class? k = some d' ∧ d'.name = d.name := by
    intro k d hd
    obtain ⟨d', hd', heq⟩ := hr.exists_class hd
    have hname : d'.name = d.name := (congrArg Class.name heq :)
    exact ⟨d', hd', hname⟩
  obtain ⟨hid, hname, howner, hparams, habstract⟩ : t.id = s.id ∧ t.name = s.name ∧
      t.owner = s.owner ∧ t.params = s.params ∧ t.isAbstract = s.isAbstract := by
    rw [ht]
    exact ⟨rfl, rfl, rfl, rfl, rfl⟩
  refine ⟨hid ▸ h.id_eq, hname ▸ h.name, fun k hk => ?_, hvisible ▸ h.nodup, fun u hu => ?_, ?_⟩
  · obtain ⟨d, hd, k₀, hk₀, heq⟩ := h.owner k (howner ▸ hk)
    obtain ⟨k₁, hk₁, hsame⟩ := hclass hk₀
    exact ⟨d, hd, k₁, hk₁, hsame.trans heq⟩
  · rw [hvisible]
    refine (h.named u (hparams ▸ hu)).mono ?_
    rintro k ⟨d, hd, hcan⟩
    obtain ⟨d', hd', hsame⟩ := hclass hd
    exact ⟨d', hd', hsame ▸ hcan⟩
  · intro path hpath
    rw [habstract]
    exact h.free path (howner ▸ hpath)

/-- What holds of a step in a module, with `n` scopes around that of the module. -/
structure InModule (p : Program) (path : String) (n : Nat) (c : Compilation) : Prop where
  functions : Functions p (c.moduleScopes.insert path c.scopes.current) c
  depth : c.scopes.inner.length = n + 1

variable {p : Program} {path : String} {n : Nat} {c c' : Compilation}

/-! ## Entering and leaving modules -/

theorem Functions.of_context {modules : Table String Scope} (h : Functions p modules c)
    (hc : c'.context = c.context) : Functions p modules c' := by
  have hregistry : c'.registry = c.registry := (congrArg Compilation.registry hc :)
  have hbodies : c'.bodies = c.bodies := (congrArg Compilation.bodies hc :)
  obtain ⟨houtside, hidentified, hunique, hregistered, hqueued, hoverloads⟩ := h
  rw [← hregistry] at hidentified hunique hregistered hqueued hoverloads
  rw [← hbodies] at hqueued
  exact ⟨Contextual.congr hc houtside, hidentified, hunique, hregistered, hqueued, hoverloads⟩

theorem InModule.of_context (h : InModule p path n c) (hc : c'.context = c.context) :
    InModule p path n c' := by
  have hscopes : c'.scopes = c.scopes := (congrArg Compilation.scopes hc :)
  have hmodules : c'.moduleScopes = c.moduleScopes := (congrArg Compilation.moduleScopes hc :)
  refine ⟨?_, by rw [hscopes, h.depth]⟩
  rw [hscopes, hmodules]
  exact h.functions.of_context hc

theorem Functions.enter (h : Functions p c.moduleScopes c) (path : String) :
    InModule p path c.scopes.inner.length (c.entered path) := by
  refine ⟨⟨Modular.enter path h.outside, h.identified, h.unique, h.registered, h.queued, ?_, ?_⟩, rfl⟩
  · intro id s q hs howner
    obtain ⟨x, ids, span, hx, hfind, hid⟩ := h.overloads.listed hs howner
    refine ⟨x, ids, span, ?_, hfind, hid⟩
    by_cases hq : path = q
    · subst hq
      show (c.moduleScopes.insert path ((c.moduleScopes.find? path).getD _)).find? path = some x
      rw [Table.find?_insert_self, hx]
      rfl
    · exact (Table.find?_insert_of_ne _ hq _).trans hx
  · exact h.overloads.different

/-- The scope of the module is what is left. -/
theorem InModule.leave (h : InModule p path n c) {scope : Scope} {scopes : Scopes}
    (hpop : (c.scopes.truncate (n + 2)).pop = .ok (scope, scopes)) (before : String) :
    Functions p (c.moduleScopes.insert path scope) { c with
      scopes := scopes
      moduleScopes := c.moduleScopes.insert path scope
      path := before } := by
  have hcurrent := Scopes.eq_current_of_pop h.depth hpop
  obtain ⟨houtside, hidentified, hunique, hregistered, hqueued, hoverloads⟩ := h.functions
  refine ⟨Modular.leave path before hpop houtside, hidentified, hunique, hregistered, hqueued, ?_⟩
  rw [hcurrent]
  exact hoverloads

/-! ## Registering -/

/-- One more function, with a body unless it is abstract. -/
theorem Functions.push {modules modules' : Table String Scope} {s : Signature}
    (h : Functions p modules c) (hregistry : c'.registry = pushFunction c.registry s)
    (houtside : c'.Outside (fun _ => False) false)
    (hs : Registered p c.registry c.registry.functions.size s)
    (hbody : s.isAbstract = false → ∃ body, c'.bodies.find? c.registry.functions.size = some body)
    (hbodies : ∀ id ≠ c.registry.functions.size, c'.bodies.find? id = c.bodies.find? id)
    (hoverloads : Overloads (pushFunction c.registry s) modules') : Functions p modules' c' := by
  refine ⟨houtside, ?_, ?_, ?_, ?_, ?_⟩ <;> rw [hregistry]
  · exact h.identified
  · exact h.unique
  · intro id t ht
    obtain ⟨rfl, rfl⟩ | ⟨_, ht⟩ := new_or_old_of_pushFunction ht
    · exact hs.congr (fun _ => rfl) rfl
    · exact (h.registered ht).congr (fun _ => rfl) rfl
  · intro id t ht habstract
    obtain ⟨rfl, rfl⟩ | ⟨hid, ht⟩ := new_or_old_of_pushFunction ht
    · exact hbody habstract
    · rw [hbodies id hid]
      exact h.queued ht habstract
  · exact hoverloads

theorem InModule.registerFunction {d : FunctionDecl} {u : Unit} (h : InModule p path n c)
    (hd : d.name.name ∈ p.names) (hstep : Yields (registerFunction path d) c u c') :
    InModule p path n c' := by
  have houtside := hstep.preserves h.functions.outside
  obtain ⟨c₁, params, result, hsig, hdiffer, hdefine⟩ := registerFunction_spec hstep
  have hsees : SeesNamed c.registry [] c :=
    seesNamed_of_outer h.functions.outside.1 h.functions.identified (List.forall_mem_nil _)
      fun _ _ he => .inl ⟨he, List.forall_mem_nil _⟩
  have hregistry : c₁.registry = c.registry := hsig.keeps
  have hnamed := resolveSignature_named hsees hsig
  rw [← hregistry] at hnamed
  have h := h.of_context hsig.keeps
  simp only [defineTopLevel, yields_bind, yields_define, yields_updateScopes] at hdefine
  obtain ⟨_, _, ⟨s₁, hs₁, rfl⟩, s₂, hs₂, rfl⟩ := hdefine
  obtain ⟨x, hx, rfl⟩ := Scopes.define_effect hs₁
  simp only [Scopes.defineGlobal, except_bind_eq_ok, except_pure_eq_ok] at hs₂
  obtain ⟨g, _, rfl⟩ := hs₂
  obtain ⟨hcurrent, hlength⟩ := Scopes.current_of_inner h.depth x g
  refine ⟨?_, hlength⟩
  rw [hcurrent]
  refine h.functions.push rfl houtside ?_ ?_ ?_ ?_
  · exact ⟨rfl, hd, fun _ howner => (by cases howner), List.nodup_nil, hnamed, fun _ _ => rfl⟩
  · exact fun _ => ⟨_, Table.find?_insert_self ..⟩
  · exact fun id hid => Table.find?_insert_of_ne _ (Ne.symm hid) _
  · have hmodules : ∀ y, (c₁.moduleScopes.insert path y).find? path = some y :=
      fun y => Table.find?_insert_self ..
    refine h.functions.overloads.push_function rfl (hmodules _) (hmodules x) ?_ hx hdiffer
    intro q hq
    exact (Table.find?_insert_of_ne _ hq _).trans (Table.find?_insert_of_ne _ hq _).symm

theorem InModule.registerMethod {d : ClassDecl} {e : FunctionDecl} {owner : TypeHash} {m : OwnMethod}
    (h : InModule p path n c) (hd : d ∈ p.classes) (he : e.name.name ∈ p.names)
    (howner : ∃ k, c.registry.class? owner = some k ∧ k.name = d.name.name)
    (hstep : Yields (registerMethod path owner e) c m c') : InModule p path n c' := by
  have houtside := hstep.preserves h.functions.outside
  obtain ⟨_, c₁, params, result, hsig, _, rfl⟩ := registerMethod_spec hstep
  obtain ⟨hcontext, k, c₀, _, hk, hnodup, hbody, _, _, _, _, hfound⟩ := inClass_spec hsig
  have hsees := seesNamed_of_outer h.functions.outside.1 h.functions.identified
    (h.functions.identified hk).2 hfound
  have hnamed := resolveSignature_named hsees hbody
  -- The signature was resolved where the parameters of the class are visible.
  have hvisible : c.registry.visibleParams (.classOf owner) = k.templates := by
    rw [Registry.visibleParams, hk]
    rfl
  rw [← hvisible] at hnamed hnodup
  have hregistry : c₁.registry = c.registry := (congrArg Compilation.registry hcontext :)
  rw [← hregistry] at hnamed hnodup howner
  have h := h.of_context hcontext
  refine ⟨?_, h.depth⟩
  refine h.functions.push rfl houtside ?_ ?_ ?_ (h.functions.overloads.push_method rfl)
  · refine ⟨rfl, he, fun k howner' => ?_, hnodup, hnamed, fun _ howner' => (by cases howner')⟩
    injection howner' with howner'
    exact ⟨d, hd, howner' ▸ howner⟩
  · intro habstract
    have habstract : e.isAbstract = false := habstract
    rw [habstract]
    exact ⟨_, Table.find?_insert_self ..⟩
  · intro id hid
    dsimp only
    split
    · rfl
    · exact Table.find?_insert_of_ne _ (Ne.symm hid) _

/-- The class of a declaration is registered under the name in the declaration. -/
theorem declaredClass_spec {d : ClassDecl} {owner : TypeHash}
    (h : Yields (declaredClass d) c owner c') (hc : c.Outside (fun _ => False) false) :
    c' = c ∧ ∃ k, c.registry.class? owner = some k ∧ k.name = d.name.name := by
  simp only [declaredClass, yields_bind, yields_get, and_assoc, exists_and_left,
    exists_eq_left] at h
  split at h
  · rename_i hash span hfind
    obtain ⟨rfl, rfl⟩ := yields_pure.mp h
    have hcurrent : c'.scopes.current ∈ c'.scopes.chain := by
      rw [c'.scopes.chain_eq]
      exact List.mem_cons_self
    exact ⟨rfl, hc.1.scopes _ hcurrent _ _ hfind⟩
  · simp at h

theorem InModule.registerMethods {d : ClassDecl} {owner : TypeHash} {es : List FunctionDecl}
    {ms : List OwnMethod} (h : InModule p path n c) (hd : d ∈ p.classes)
    (hes : ∀ e ∈ es, e.name.name ∈ p.names)
    (howner : ∃ k, c.registry.class? owner = some k ∧ k.name = d.name.name)
    (hstep : Yields (es.mapM (Registration.registerMethod path owner)) c ms c') :
    InModule p path n c' := by
  refine (mapM_induction (Q := fun _ => True) (fun c₁ => InModule p path n c₁ ∧
    ∃ k, c₁.registry.class? owner = some k ∧ k.name = d.name.name)
    (fun e he c₁ m c₂ ⟨h, howner⟩ hm => ⟨⟨?_, ?_⟩, trivial⟩) ⟨h, howner⟩ hstep).1.1
  · exact h.registerMethod hd (hes e he) howner hm
  · obtain ⟨_, _, _, s, _, hpush⟩ := registerMethod_effect hm
    rw [hpush]
    exact howner

theorem InModule.registerItem {m : Module} (hm : m ∈ p.modules) {item : Item} (hitem : item ∈ m.items)
    {x : List (TypeHash × OwnMethod) × Nat} (h : InModule p path n c)
    (hstep : Yields (registerItem path item) c x c') : InModule p path n c' := by
  cases item with
  | function d =>
    simp only [Registration.registerItem, yields_bind, yields_pure] at hstep
    obtain ⟨_, c₁, hd, _, rfl⟩ := hstep
    exact h.registerFunction (Program.mem_names hm hitem (List.mem_singleton_self _)) hd
  | classDecl d =>
    simp only [Registration.registerItem, yields_bind, yields_pure] at hstep
    obtain ⟨owner, c₁, howner, methods, c₂, hmethods, _, rfl⟩ := hstep
    obtain ⟨rfl, hclass⟩ := declaredClass_spec howner h.functions.outside
    refine h.registerMethods (Program.mem_classes.mpr ⟨m, hm, hitem⟩) ?_ hclass hmethods
    intro e he
    exact Program.mem_names hm hitem
      (List.mem_cons_of_mem _ (List.mem_append_right _ (List.mem_map_of_mem he)))
  | _ => exact (yields_pure.mp hstep).2 ▸ h

theorem InModule.registerItems {m : Module} (hm : m ∈ p.modules) {items : List Item} :
    ∀ {c c' : Compilation} {x : List (TypeHash × OwnMethod) × Nat}, (∀ item ∈ items, item ∈ m.items) →
      InModule p path n c → Yields (registerItems path items) c x c' → InModule p path n c' := by
  induction items with
  | nil =>
    intro c c' x _ h hstep
    rw [Registration.registerItems, yields_pure] at hstep
    exact hstep.2 ▸ h
  | cons item items ih =>
    intro c c' x hitems h hstep
    obtain ⟨hitem, hitems⟩ := List.forall_mem_cons.mp hitems
    simp only [Registration.registerItems, yields_bind, yields_pure] at hstep
    obtain ⟨_, c₁, hfirst, _, c₂, hrest, _, rfl⟩ := hstep
    exact ih hitems (h.registerItem hm hitem hfirst) hrest

/-- What holds of functions when none is registered holds of them when all are. -/
theorem Functions.registerModules {ms : List Module} :
    ∀ {c c' : Compilation} {x : List (TypeHash × OwnMethod) × Nat}, (∀ m ∈ ms, m ∈ p.modules) →
      Functions p c.moduleScopes c → Yields (registerModules ms) c x c' →
      Functions p c'.moduleScopes c' := by
  induction ms with
  | nil =>
    intro c c' x _ h hstep
    rw [Registration.registerModules, yields_pure] at hstep
    exact hstep.2 ▸ h
  | cons m ms ih =>
    intro c c' x hms h hstep
    obtain ⟨hm, hms⟩ := List.forall_mem_cons.mp hms
    simp only [Registration.registerModules, yields_bind, yields_pure] at hstep
    obtain ⟨_, c₁, hmodule, _, c₂, hrest, _, rfl⟩ := hstep
    refine ih hms ?_ hrest
    obtain ⟨c₃, scope, scopes, hitems, hpop, rfl⟩ := inModule_spec hmodule
    have hend := (h.enter m.path).registerItems hm (fun _ hitem => hitem) hitems
    exact hend.leave hpop c.path

end Registration

end ClassLang
