import ClassLang.Proofs.Dispatch.Tables
import ClassLang.Proofs.Registration.Listing
import ClassLang.Proofs.Registration.Scopes

/-!
# What is left to do is that of the program

The body of a function is queued when the function is registered, with the path of its module, and a
global variable is put on the list when it is registered. No other step of registration queues
anything.
-/

-- The instances of long steps are large terms.
set_option synthInstance.maxSize 1000

namespace ClassLang

open CompileM

/-- The functions that an item declares: itself, or the methods of the class. -/
def Item.functions : Item → List FunctionDecl
  | .function d => [d]
  | .classDecl d => d.methods
  | _ => []

/-- A module with this path declares the function, or a class with this method. -/
def Program.Defines (p : Program) (path : String) (d : FunctionDecl) : Prop :=
  ∃ m ∈ p.modules, m.path = path ∧ ∃ item ∈ m.items, d ∈ item.functions

/-- A module with this path declares a global variable with this initializer. -/
def Program.Initializes (p : Program) (path : String) (init : Option Expr) : Prop :=
  ∃ m ∈ p.modules, m.path = path ∧ ∃ d, .global d ∈ m.items ∧ d.init = init

/-- Whatever more is queued belongs to the program. -/
def Queues (p : Program) (c c' : Compilation) : Prop :=
  ∀ id b, c'.bodies.find? id = some b → c.bodies.find? id = some b ∨ p.Defines b.path b.decl

namespace Queues

variable {p : Program} {c c₁ c' : Compilation}

theorem of_same (h : c'.bodies = c.bodies) : Queues p c c' := fun _ _ hb => .inl (h ▸ hb)

theorem trans (h₁ : Queues p c c₁) (h₂ : Queues p c₁ c') : Queues p c c' := by
  intro id b hb
  rcases h₂ id b hb with hb | hb
  · exact h₁ id b hb
  · exact .inr hb

theorem insert {id : Nat} {b : PendingBody} (hb : p.Defines b.path b.decl)
    (h : c'.bodies = c.bodies.insert id b) : Queues p c c' := by
  intro id' b' hb'
  rw [h] at hb'
  by_cases hid : id = id'
  · rw [hid, Table.find?_insert_self] at hb'
    injection hb' with hb'
    exact .inr (hb' ▸ hb)
  · exact .inl ((Table.find?_insert_of_ne _ hid _).symm.trans hb')

end Queues

/-- Nothing has been compiled or registered at the start. -/
theorem Compilation.start_empty {o : Options} {c : Compilation} (h : start o = .ok c) :
    c.frame = Frame.initial o.registerCount ∧ c.literals = .empty ∧ c.bodies = .empty ∧
      c.globals = [] := by
  unfold start at h
  simp only [except_bind_eq_ok, except_pure_eq_ok] at h
  obtain ⟨_, _, _, _, rfl⟩ := h
  exact ⟨rfl, rfl, rfl, rfl⟩

namespace Registration

variable {p : Program} {c c' : Compilation} {path : String}

theorem queues_registerFunction {d : FunctionDecl} {u : Unit} (hd : p.Defines path d)
    (h : Yields (registerFunction path d) c u c') : Queues p c c' := by
  obtain ⟨c₁, params, result, hsig, _, hdefine⟩ := registerFunction_spec h
  have hbefore : c₁.bodies = c.bodies := hsig.keeps
  have hafter := hdefine.keeps (f := Compilation.bodies)
  exact .insert (b := ⟨d, none, path⟩) hd (by rw [hafter, ← hbefore])

theorem queues_registerMethod {owner : TypeHash} {d : FunctionDecl} {m : OwnMethod}
    (hd : p.Defines path d) (h : Yields (registerMethod path owner d) c m c') : Queues p c c' := by
  obtain ⟨_, c₁, params, result, hsig, _, rfl⟩ := registerMethod_spec h
  have hbefore : c₁.bodies = c.bodies := hsig.keeps
  cases d.isAbstract with
  | true => exact .of_same hbefore
  | false =>
    have hqueued : c₁.bodies.insert c₁.registry.functions.size ⟨d, some owner, path⟩ =
        c.bodies.insert c₁.registry.functions.size ⟨d, some owner, path⟩ := by rw [hbefore]
    exact .insert (b := ⟨d, some owner, path⟩) hd hqueued

theorem queues_registerItem {item : Item} {x : List (TypeHash × OwnMethod) × Nat}
    (hd : ∀ d ∈ item.functions, p.Defines path d) (h : Yields (registerItem path item) c x c') :
    Queues p c c' := by
  cases item with
  | function d =>
    simp only [registerItem, yields_bind, yields_pure] at h
    obtain ⟨_, _, hfunction, _, rfl⟩ := h
    exact queues_registerFunction (hd d (List.mem_singleton_self d)) hfunction
  | classDecl d =>
    simp only [registerItem, yields_bind, yields_pure] at h
    obtain ⟨hash, c₁, hclass, ms, c₂, hmethods, _, rfl⟩ := h
    have hbefore : Queues p c c₁ := .of_same hclass.keeps
    refine (mapM_induction (Q := fun _ => True) (Queues p c)
      (fun m hm c₁ _ c₂ hqueues hstep => ⟨?_, trivial⟩) hbefore hmethods).1
    exact hqueues.trans (queues_registerMethod (hd m hm) hstep)
  | require name | global d =>
    rw [registerItem] at h
    · exact .of_same (by rw [(yields_pure.mp h).2])
    all_goals simp

theorem queues_registerItems : ∀ {items : List Item} {c c' : Compilation}
    {x : List (TypeHash × OwnMethod) × Nat}, (∀ item ∈ items, ∀ d ∈ item.functions, p.Defines path d) →
      Yields (registerItems path items) c x c' → Queues p c c'
  | [], c, c', x, _, h => .of_same (by rw [(yields_pure.mp h).2])
  | item :: rest, c, c', x, hd, h => by
    obtain ⟨hitem, hrest⟩ := List.forall_mem_cons.mp hd
    simp only [registerItems, yields_bind, yields_pure] at h
    obtain ⟨_, c₁, hfirst, _, c₂, hmore, _, rfl⟩ := h
    exact (queues_registerItem hitem hfirst).trans (queues_registerItems hrest hmore)

theorem queues_registerModules : ∀ {ms : List Module} {c c' : Compilation}
    {x : List (TypeHash × OwnMethod) × Nat}, (∀ m ∈ ms, m ∈ p.modules) →
      Yields (registerModules ms) c x c' → Queues p c c'
  | [], c, c', x, _, h => .of_same (by rw [(yields_pure.mp h).2])
  | m :: ms, c, c', x, hms, h => by
    obtain ⟨hm, hms⟩ := List.forall_mem_cons.mp hms
    simp only [registerModules, yields_bind, yields_pure] at h
    obtain ⟨_, c₁, hmodule, _, c₂, hmore, _, rfl⟩ := h
    obtain ⟨c₀, scope, scopes, hbody, _, rfl⟩ := inModule_spec hmodule
    have hitems : Queues p (c.entered m.path) c₀ := queues_registerItems
      (fun item hitem d hd => ⟨m, hm, rfl, item, hitem, hd⟩) hbody
    have hfirst : Queues p c { c₀ with
        scopes := scopes
        moduleScopes := c₀.moduleScopes.insert m.path scope
        path := c.path } := hitems
    exact hfirst.trans (queues_registerModules hms hmore)

/-! ## Globals -/

/-- Whatever is listed belongs to the program. -/
def Lists (p : Program) (c : Compilation) : Prop := ∀ g ∈ c.globals, p.Initializes g.path g.init

theorem lists_registerGlobal {d : VarDecl} {u : Unit} (hc : Lists p c)
    (hd : p.Initializes path d.init) (h : Yields (registerGlobal path d) c u c') : Lists p c' := by
  obtain ⟨t, c₁, c₂, htype, hdefine, rfl⟩ := registerGlobal_spec h
  have hkept : c₁.globals = c.globals := htype.keeps
  have hlisted := hdefine.keeps (f := Compilation.globals)
  intro g hg
  rcases List.mem_append.mp hg with hg | hg
  · exact hc g (hkept ▸ hlisted ▸ hg)
  · rw [List.mem_singleton.mp hg]
    exact hd

theorem lists_registerGlobals : ∀ {items : List Item} {c c' : Compilation} {n : Nat}, Lists p c →
    (∀ d, .global d ∈ items → p.Initializes path d.init) →
      Yields (registerGlobals path items) c n c' → Lists p c'
  | [], c, c', n, hc, _, h => (yields_pure.mp h).2 ▸ hc
  | item :: rest, c, c', n, hc, hd, h => by
    have hrest : ∀ d, .global d ∈ rest → p.Initializes path d.init :=
      fun d hmem => hd d (List.mem_cons_of_mem _ hmem)
    cases item with
    | global d =>
      simp only [registerGlobals, yields_bind, yields_pure] at h
      obtain ⟨_, c₁, hfirst, _, c₂, hmore, _, rfl⟩ := h
      exact lists_registerGlobals (lists_registerGlobal hc (hd d List.mem_cons_self) hfirst) hrest hmore
    | require name | function d | classDecl d =>
      rw [registerGlobals] at h
      · exact lists_registerGlobals hc hrest h
      all_goals simp

theorem lists_registerAllGlobals : ∀ {ms : List Module} {c c' : Compilation} {n : Nat}, Lists p c →
    (∀ m ∈ ms, m ∈ p.modules) → Yields (registerAllGlobals ms) c n c' → Lists p c'
  | [], c, c', n, hc, _, h => (yields_pure.mp h).2 ▸ hc
  | m :: ms, c, c', n, hc, hms, h => by
    obtain ⟨hm, hms⟩ := List.forall_mem_cons.mp hms
    simp only [registerAllGlobals, yields_bind, yields_pure] at h
    obtain ⟨_, c₁, hmodule, _, c₂, hmore, _, rfl⟩ := h
    obtain ⟨c₀, scope, scopes, hbody, _, rfl⟩ := inModule_spec hmodule
    have hfirst : Lists p c₀ := lists_registerGlobals (c := c.entered m.path) hc
      (fun d hd => ⟨m, hm, rfl, d, hd, rfl⟩) hbody
    exact lists_registerAllGlobals (c := { c₀ with
        scopes := scopes
        moduleScopes := c₀.moduleScopes.insert m.path scope
        path := c.path }) hfirst hms hmore

/-! ## Programs -/

instance (p : Program) {P : (α : Type) → CompileM α → Prop} [EnlistsNatives P] [Indifferent P] :
    Lowering.Has P (Dispatch.runHeaders p) := by
  unfold Dispatch.runHeaders
  infer_instance

theorem globals_of_steps {ps ordered : List PendingClass} {methods : List (TypeHash × OwnMethod)}
    {c₁ c₂ c₃ c₄ c₅ : Compilation}
    (h : Dispatch.TableSteps p ps ordered methods c c₁ c₂ c₃ c₄ c₅) : c₅.globals = c.globals := by
  obtain ⟨_, hregister⟩ := h.signatures
  calc c₅.globals
    _ = c₄.globals := KeepsGlobals.after h.names
    _ = c₃.globals := KeepsGlobals.after h.tables
    _ = c₂.globals := KeepsGlobals.after hregister
    _ = c₁.globals := KeepsGlobals.after h.layout
    _ = c.globals := KeepsGlobals.after h.headers

/-- No body is queued before functions are registered. -/
theorem bodies_before {ps ordered : List PendingClass} {methods : List (TypeHash × OwnMethod)}
    {c₁ c₂ c₃ : Compilation} (h : Dispatch.MemberSteps p ps ordered methods c c₁ c₂ c₃) :
    c₂.bodies = c.bodies := by
  obtain ⟨b₁, b₂, b₃, b₄, hheaders⟩ := Dispatch.yields_runHeaders h.headers
  calc c₂.bodies
    _ = c₁.bodies := KeepsBodies.after h.layout
    _ = b₄.bodies := KeepsBodies.after hheaders.inherited
    _ = b₃.bodies := KeepsBodies.after hheaders.checked
    _ = b₂.bodies := KeepsBodies.after hheaders.linearized
    _ = b₁.bodies := KeepsBodies.after hheaders.resolved
    _ = c.bodies := KeepsBodies.after hheaders.declared

/-- No body is queued after functions are registered. -/
theorem bodies_after {ps ordered : List PendingClass} {methods : List (TypeHash × OwnMethod)}
    {c₁ c₂ c₃ c₄ c₅ : Compilation} (h : Dispatch.Steps p ps ordered methods c c₁ c₂ c₃ c₄ c₅ c') :
    c'.bodies = c₃.bodies := by
  obtain ⟨_, hglobals⟩ := h.globals
  calc c'.bodies
    _ = c₅.bodies := KeepsBodies.after hglobals
    _ = c₄.bodies := KeepsBodies.after h.names
    _ = c₃.bodies := KeepsBodies.after h.tables

/-- All bodies that wait when a program is registered are those of its functions, each with the path
of a module that declares it. -/
theorem defines_of_run {o : Options} {n : Counts} (hstart : Compilation.start o = .ok c)
    (h : Yields (run p) c n c') {id : Nat} {b : PendingBody} (hb : c'.bodies.find? id = some b) :
    p.Defines b.path b.decl := by
  obtain ⟨ps, ordered, methods, c₁, c₂, c₃, c₄, c₅, hsteps⟩ := Dispatch.yields_run h
  obtain ⟨_, hregister⟩ := hsteps.signatures
  rw [bodies_after hsteps] at hb
  rcases queues_registerModules (fun _ hm => hm) hregister id b hb with hb | hb
  · rw [bodies_before hsteps.toTableSteps.toMemberSteps, (Compilation.start_empty hstart).2.2.1] at hb
    cases hb
  · exact hb

/-- All globals that are listed when a program is registered are those of its modules. -/
theorem lists_of_run {o : Options} {n : Counts} (hstart : Compilation.start o = .ok c)
    (h : Yields (run p) c n c') : Lists p c' := by
  obtain ⟨ps, ordered, methods, c₁, c₂, c₃, c₄, c₅, hsteps⟩ := Dispatch.yields_run h
  obtain ⟨_, hglobals⟩ := hsteps.globals
  have hnone : Lists p c₅ := by
    unfold Lists
    rw [globals_of_steps hsteps.toTableSteps, (Compilation.start_empty hstart).2.2.2]
    exact List.forall_mem_nil _
  exact lists_registerAllGlobals hnone (fun _ hm => hm) hglobals

end Registration

end ClassLang
