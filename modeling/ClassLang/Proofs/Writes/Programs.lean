import ClassLang.Proofs.Safety.Sections
import ClassLang.Proofs.Writes.Bodies

/-!
# All code of a program is guarded

Global variables get storage one after the other, so they do not share it. Registration emits
nothing until it comes to them, and then only what is needed to find out the types of initializers.
Functions and initializers are compiled with these variables in scope, and then the program is
started. So what a program emits heeds a guard from beginning to end.
-/

-- The instances of long steps are large terms.
set_option synthInstance.maxSize 1000

namespace ClassLang

open CompileM Lowering Bodies

/-! ## Targets of assignments in a program -/

/-- The targets of the assignments in a function. -/
def FunctionDecl.targets (d : FunctionDecl) : List Expr := Stmt.allTargets (d.body.getD [])

/-- The targets of the assignments in an item. -/
def Item.targets : Item → List Expr
  | .global d => Expr.optionTargets d.init
  | item => item.functions.flatMap (·.targets)

/-- No assignment in the program loses track of constants. -/
def Program.KeepsTrack (p : Program) : Prop :=
  ∀ m ∈ p.modules, ∀ item ∈ m.items, ∀ t ∈ item.targets, t.keepsTrack = true

instance (p : Program) : Decidable p.KeepsTrack :=
  inferInstanceAs (Decidable (∀ m ∈ p.modules, ∀ item ∈ m.items, ∀ t ∈ item.targets, _))

namespace Program.KeepsTrack

variable {p : Program}

theorem function (h : p.KeepsTrack) {path : String} {d : FunctionDecl} (hd : p.Defines path d) :
    ∀ t ∈ d.targets, t.keepsTrack = true := by
  obtain ⟨m, hm, _, item, hitem, hd⟩ := hd
  intro t ht
  refine h m hm item hitem t ?_
  cases item with
  | function _ | classDecl _ => exact List.mem_flatMap.mpr ⟨d, hd, ht⟩
  | require _ | global _ => exact absurd hd List.not_mem_nil

theorem initializer (h : p.KeepsTrack) {path : String} {init : Option Expr}
    (hd : p.Initializes path init) : ∀ t ∈ Expr.optionTargets init, t.keepsTrack = true := by
  obtain ⟨m, hm, _, d, hitem, rfl⟩ := hd
  exact h m hm _ hitem

end Program.KeepsTrack

/-! ## Registration -/

/-- The step emits nothing. -/
def Silent (α : Type) (m : CompileM α) : Prop := Mute m

theorem mute_updateScopes (f : Scopes → Except CompileError Scopes) : Mute (updateScopes f) :=
  .bind (fun _ => rfl) fun _ => .bind (mute_conclude _) fun _ => mute_modify _

instance : Indifferent Silent where
  reads m hm c := by
    obtain ⟨o, ho⟩ := hm.run c
    show (m.run c).2 = []
    rw [ho]

instance : EnlistsNatives Silent where
  reads m _ := Indifferent.reads m
  bind := Mute.bind
  defer _ := mute_modify _
  files _ _ _ := rfl
  define _ _ _ _ := mute_updateScopes _
  defineNative _ _ _ := mute_updateScopes _
  defineGlobal _ _ _ _ := mute_updateScopes _
  allocGlobal _ _ := rfl
  attempt {_ m} hm c := (emissions_attempt m c).trans (hm c)
  inScope {_ kind body} hbody c := (emissions_inScope kind body c).trans (hbody _)
  inModule {_ path body} hbody c := (emissions_inModule path body c).trans (hbody _)

instance : EnlistsBodies Silent where
  queueBody _ _ := mute_modify _

instance (p : Program) : Has Silent (Dispatch.runTables p) := by
  unfold Dispatch.runTables
  infer_instance

/-! ## Global variables -/

/-- The state between functions, when `L` are the global variables: they do not share storage, and
those that are to be initialized are among them. -/
structure Parcelled (r : Registry) (L : List Binding) (c : Compilation) : Prop where
  atRest : AtRest r c
  outer : c.Outer (· ∈ L)
  stored : ∀ b ∈ L, ∃ k, b.address = .global k ∧ k + r.length b.type ≤ c.frame.globalLength
  apart : ∀ b ∈ L, ∀ b' ∈ L, b = b' ∨ (r.storageOf b).Apart (r.storageOf b')
  globals : ∀ g ∈ c.globals, ∃ b ∈ L, r.storageOf b = g.storage r

/-- A guard of a sound registry. -/
def Registry.Sound.guard {r : Registry} (hr : r.Sound) (tracked : Prop)
    (Initializes : Access → Prop) : Guard := ⟨r, hr.field_fits, tracked, Initializes⟩

namespace Parcelled

variable {r : Registry} {L : List Binding} {c c₁ c' : Compilation} {α : Type}

theorem mem_of_binds (h : Parcelled r L c) {b : Binding} (hb : c.scopes.Binds b) : b ∈ L := by
  obtain ⟨x, hx, name, e, he, hmeaning⟩ := hb
  have houter := h.outer.scopes x hx name e he
  rw [hmeaning] at houter
  exact houter

theorem rests (h : Parcelled r L c) {G : Guard} (hG : G.registry = r) : G.Rests c where
  registry := h.atRest.registry.trans hG.symm
  outside := h.atRest.topmost.function?_eq_none
  free x hx name e he := by
    rw [hG, ← h.atRest.registry]
    exact (h.outer.scopes x hx name e he).free
  isGlobal b hb := (h.stored b (h.mem_of_binds hb)).imp fun _ h => h.1
  apart b b' hb hb' := hG ▸ h.apart b (h.mem_of_binds hb) b' (h.mem_of_binds hb')

theorem entered (h : Parcelled r L c) (path : String) : Parcelled r L (c.entered path) :=
  ⟨h.atRest.entered path, h.outer.entered path, h.stored, h.apart, h.globals⟩

theorem exited {path : String} {a : α} (h : Parcelled r L c₁)
    (hdepth : c₁.scopes.depth = c.scopes.depth + 1) :
    Parcelled r L (CompileM.exited path (.ok a) c c₁) where
  atRest := h.atRest.exited hdepth
  outer := by
    have hleft := h.outer.left path c.path (pop_entered hdepth)
    exact ⟨hleft.scopes, hleft.modules⟩
  stored := h.stored
  apart := h.apart
  globals := h.globals

/-- The frame, but for the globals in it, and the listing do not matter. -/
theorem of_context (h : Parcelled r L c) (hrest : AtRest r c')
    (hglobal : c.frame.globalLength ≤ c'.frame.globalLength) (hcontext : c'.context = c.context) :
    Parcelled r L c' where
  atRest := hrest
  outer := h.outer.of_context hcontext
  stored b hb := by
    obtain ⟨k, hk, hend⟩ := h.stored b hb
    exact ⟨k, hk, Nat.le_trans hend hglobal⟩
  apart := h.apart
  globals g hg := h.globals g ((congrArg Compilation.globals hcontext :) ▸ hg)

theorem with_listing (h : Parcelled r L c) (listing : Listing) :
    Parcelled r L { c with listing := listing } :=
  ⟨h.atRest.with_listing listing, h.outer.mono (fun _ hb => hb) rfl rfl (.refl _), h.stored, h.apart,
    h.globals⟩

/-- One more global variable gets its storage behind all others. -/
theorem registerGlobal {path : String} {d : VarDecl} {u : Unit} (h : Parcelled r L c)
    (hy : Yields (Registration.registerGlobal path d) c u c') : ∃ b, Parcelled r (b :: L) c' := by
  have hrest := ((safe_registerGlobal h.atRest).yields hy).2
  obtain ⟨t, c₁, c₂, htype, hdefine, rfl⟩ := Registration.registerGlobal_spec hy
  obtain ⟨hx, -⟩ := (safe_declaredType h.atRest.ready).yields htype
  have h₁ := h.of_context (h.atRest.of_extends hx) hx.extent.globalLength hx.context
  have hframe : c₂.frame = (c₁.frame.allocGlobal (c₁.registry.length t)).2 := hdefine.keeps
  have hlength : c₂.frame.globalLength = c₁.frame.globalLength + r.length t := by
    rw [hframe, ← h₁.atRest.registry]
    rfl
  have hglobals : c₂.globals = c₁.globals := hdefine.keeps (f := Compilation.globals)
  refine ⟨⟨t, .global c₁.frame.globalLength, d.isConst, d.span⟩, hrest, ?_, ?_, ?_, ?_⟩
  · have hbefore : Compilation.Outer (· ∈
        (⟨t, .global c₁.frame.globalLength, d.isConst, d.span⟩ :: L))
        { c₁ with frame := (c₁.frame.allocGlobal (c₁.registry.length t)).2 } :=
      h₁.outer.mono (fun _ => List.mem_cons_of_mem _) rfl rfl (.refl _)
    have houter := (outside_defineTopLevel (b := c₁.deferring) ⟨hbefore, rfl⟩
      (d := .variable ⟨t, .global c₁.frame.globalLength, d.isConst, d.span⟩)
      List.mem_cons_self hdefine).1
    exact houter.mono (fun _ hb => hb) rfl rfl (.refl _)
  · refine List.forall_mem_cons.mpr ⟨⟨_, rfl, Nat.le_of_eq hlength.symm⟩, fun b hb => ?_⟩
    obtain ⟨k, hk, hend⟩ := h₁.stored b hb
    refine ⟨k, hk, Nat.le_trans hend ?_⟩
    show c₁.frame.globalLength ≤ c₂.frame.globalLength
    omega
  -- The new storage begins where that of all others has ended.
  · have hnew : ∀ b ∈ L, (r.storageOf b).Apart (.global c₁.frame.globalLength, r.length t) := by
      intro b hb
      obtain ⟨k, hk, hend⟩ := h₁.stored b hb
      unfold Registry.storageOf
      rw [hk]
      exact .inl hend
    intro b hb b' hb'
    rcases List.mem_cons.mp hb with rfl | hb <;> rcases List.mem_cons.mp hb' with rfl | hb'
    · exact .inl rfl
    · exact .inr (hnew b' hb').symm
    · exact .inr (hnew b hb)
    · exact h.apart b hb b' hb'
  · intro g hg
    rw [hglobals] at hg
    rcases List.mem_append.mp hg with hg | hg
    · obtain ⟨b, hb, hstorage⟩ := h₁.globals g hg
      exact ⟨b, List.mem_cons_of_mem _ hb, hstorage⟩
    · rw [List.mem_singleton.mp hg]
      exact ⟨_, List.mem_cons_self, rfl⟩

end Parcelled

section Programs

variable {p : Program} {r : Registry} {L : List Binding} {c c' : Compilation} {path : String}
  {G : Guard}

/-! ## Registering globals -/

/-- To find out the type of a global variable its initializer is compiled, and thrown away. -/
theorem heeds_registerGlobal {d : VarDecl} (hc : G.Rests c)
    (ht : G.Admits (Expr.optionTargets d.init)) :
    ∀ e ∈ emissions (Registration.registerGlobal path d) c, e.Heeds G := by
  have hrest : ∀ t, Mute (do
      let length ← lengthOf t
      let address ← updateFrame (·.allocGlobal length)
      defineTopLevel d.name.name (.variable ⟨t, address, d.isConst, d.span⟩) d.span
      modify fun s => { s with globals := s.globals ++ [⟨address, t, d.init, path⟩] }) :=
    fun t => .bind (fun _ => rfl) fun _ => .bind (fun _ => rfl) fun _ =>
      .bind (.bind (mute_updateScopes _) fun _ => mute_updateScopes _) fun _ => mute_modify _
  have htype := (Guarded.of_confined hc.watches (.declaredType (ht.permits hc.watches))).emissions
  intro e he
  unfold Registration.registerGlobal at he
  split at he
  · exact absurd he List.not_mem_nil
  · rcases mem_emissions_bind he with he | ⟨t, c₁, -, he⟩
    · exact htype e he
    · exact absurd (hrest t c₁ ▸ he) List.not_mem_nil

theorem heeds_registerGlobals (hG : G.registry = r) : ∀ {items : List Item} {L : List Binding}
    {c c' : Compilation} {n : Nat}, Parcelled r L c →
      (∀ d, .global d ∈ items → G.Admits (Expr.optionTargets d.init)) →
      Yields (Registration.registerGlobals path items) c n c' → ∃ L', Parcelled r L' c' ∧
        ∀ e ∈ emissions (Registration.registerGlobals path items) c, e.Heeds G
  | [], L, c, c', n, hc, _, h => by
    obtain ⟨_, rfl⟩ := yields_pure.mp h
    exact ⟨L, hc, List.forall_mem_nil _⟩
  | .global d :: rest, L, c, c', n, hc, ht, h => by
    simp only [Registration.registerGlobals, yields_bind, yields_pure] at h
    obtain ⟨_, c₁, hfirst, m, c₂, hmore, _, rfl⟩ := h
    obtain ⟨b, hc₁⟩ := hc.registerGlobal hfirst
    obtain ⟨L', hc', hheeds⟩ := heeds_registerGlobals hG hc₁
      (fun d hd => ht d (List.mem_cons_of_mem _ hd)) hmore
    refine ⟨L', hc', fun e he => ?_⟩
    rw [Registration.registerGlobals, emissions_of_yields hfirst, emissions_of_yields hmore] at he
    rcases List.mem_append.mp he with he | he
    · exact heeds_registerGlobal (hc.rests hG) (ht d List.mem_cons_self) e he
    · rcases List.mem_append.mp he with he | he
      · exact hheeds e he
      · exact absurd he List.not_mem_nil
  | .require _ :: rest, L, c, c', n, hc, ht, h | .function _ :: rest, L, c, c', n, hc, ht, h
  | .classDecl _ :: rest, L, c, c', n, hc, ht, h => by
    have hrest : ∃ L', Parcelled r L' c' ∧
        ∀ e ∈ emissions (Registration.registerGlobals path rest) c, e.Heeds G :=
      heeds_registerGlobals hG hc (fun d hd => ht d (List.mem_cons_of_mem _ hd)) h
    exact hrest

theorem heeds_registerAllGlobals (hG : G.registry = r) : ∀ {ms : List Module} {L : List Binding}
    {c c' : Compilation} {n : Nat}, Parcelled r L c →
      (∀ m ∈ ms, ∀ d, .global d ∈ m.items → G.Admits (Expr.optionTargets d.init)) →
      Yields (Registration.registerAllGlobals ms) c n c' → ∃ L', Parcelled r L' c' ∧
        ∀ e ∈ emissions (Registration.registerAllGlobals ms) c, e.Heeds G
  | [], L, c, c', n, hc, _, h => by
    obtain ⟨_, rfl⟩ := yields_pure.mp h
    exact ⟨L, hc, List.forall_mem_nil _⟩
  | m :: ms, L, c, c', n, hc, ht, h => by
    obtain ⟨hm, hms⟩ := List.forall_mem_cons.mp ht
    simp only [Registration.registerAllGlobals, yields_bind, yields_pure] at h
    obtain ⟨_, c₁, hmodule, k, c₂, hmore, _, rfl⟩ := h
    have hentered := hc.entered m.path
    have hsafe : Safe Drafts (Registration.registerGlobals m.path m.items) (c.entered m.path)
        fun _ c' => AtRest r c' := safe_registerGlobals hentered.atRest
    obtain ⟨c₀, hbody, rfl⟩ := inModule_exited hmodule fun _ h => (hsafe.yields h).1.toSameDepth
    obtain ⟨L₁, hc₁, hfirst⟩ := heeds_registerGlobals hG hentered hm hbody
    obtain ⟨L', hc', hrest⟩ := heeds_registerAllGlobals hG
      (hc₁.exited (hsafe.yields hbody).1.scopes) hms hmore
    refine ⟨L', hc', fun e he => ?_⟩
    rw [Registration.registerAllGlobals, emissions_of_yields hmodule, emissions_inModule,
      emissions_of_yields hmore] at he
    rcases List.mem_append.mp he with he | he
    · exact hfirst e he
    · rcases List.mem_append.mp he with he | he
      · exact hrest e he
      · exact absurd he List.not_mem_nil

/-! ## Functions -/

/-- Compiling a function adds a section, and what is emitted heeds the guard. -/
theorem heeds_compileBody (hG : G.registry = r) {id : Nat} {body : PendingBody} {u : Unit}
    (hc : Parcelled r L c) (hbody : c.bodies.find? id = some body)
    (ht : G.Admits body.decl.targets) (h : Yields (compileBody id body) c u c') :
    (Parcelled r L c' ∧ c'.plan = c.plan) ∧ ∀ e ∈ emissions (compileBody id body) c, e.Heeds G := by
  obtain ⟨s, block, code, c₁, -, hblock, hemissions, hsafe, hcode, rfl⟩ :=
    compileBody_spec hc.atRest hbody h
  obtain ⟨hdrafts, hrest, hcontext⟩ := hsafe.yields hcode
  have hentered := hc.entered body.path
  have hleft : Parcelled r L (exited body.path (.ok code) c c₁) :=
    (hentered.of_context hrest hdrafts.globals hcontext).exited hdrafts.scopes
  refine ⟨⟨hleft.with_listing _, (congrArg Compilation.plan hcontext :)⟩, ?_⟩
  have ht : G.Admits (Stmt.allTargets block) := by
    unfold FunctionDecl.targets at ht
    rwa [hblock] at ht
  rw [hemissions]
  exact heeds_functionCode (hentered.rests hG) ht

theorem emissions_compileBodies (id : Nat) (rest : List Nat) (c : Compilation) :
    emissions (compileBodies (id :: rest)) c = emissions (match c.bodies.find? id with
      | none => compileBodies rest
      | some body => do
        compileBody id body
        return 1 + (← compileBodies rest)) c := by
  rw [compileBodies, emissions_of_yields (yields_get.mpr ⟨rfl, rfl⟩)]
  rfl

theorem heeds_compileBodies (hG : G.registry = r) : ∀ {ids : List Nat} {c c' : Compilation} {n : Nat},
    Parcelled r L c → (∀ id body, c.bodies.find? id = some body → G.Admits body.decl.targets) →
      Yields (compileBodies ids) c n c' → (Parcelled r L c' ∧ c'.plan = c.plan) ∧
        ∀ e ∈ emissions (compileBodies ids) c, e.Heeds G
  | [], c, c', n, hc, _, h => by
    obtain ⟨_, rfl⟩ := yields_pure.mp h
    exact ⟨⟨hc, rfl⟩, List.forall_mem_nil _⟩
  | id :: rest, c, c', n, hc, ht, h => by
    simp only [compileBodies, yields_bind, yields_get] at h
    obtain ⟨_, c, ⟨rfl, rfl⟩, h⟩ := h
    rw [emissions_compileBodies]
    cases hbody : c.bodies.find? id with
    | none =>
      rw [hbody] at h
      exact heeds_compileBodies hG hc ht h
    | some body =>
      rw [hbody] at h
      simp only [yields_bind, yields_pure] at h
      obtain ⟨_, c₁, hfirst, m, c₂, hmore, _, rfl⟩ := h
      obtain ⟨⟨hc₁, hplan⟩, hheeds⟩ := heeds_compileBody hG hc hbody (ht id body hbody) hfirst
      -- Compiling a body does not change what waits, so the rest is admitted as before.
      have hbodies : c₁.bodies = c.bodies := congrArg (·.2.1) hplan
      obtain ⟨⟨hc', hplan'⟩, hrest⟩ := heeds_compileBodies hG hc₁ (hbodies ▸ ht) hmore
      refine ⟨⟨hc', hplan'.trans hplan⟩, fun e he => ?_⟩
      dsimp only at he
      rw [emissions_of_yields hfirst, emissions_of_yields hmore] at he
      rcases List.mem_append.mp he with he | he
      · exact hheeds e he
      · rcases List.mem_append.mp he with he | he
        · exact hrest e he
        · exact absurd he List.not_mem_nil

/-! ## The entry section -/

/-- The initializer of a global variable may write the storage of that variable. -/
theorem heeds_initGlobal (hG : G.registry = r) {g : PendingGlobal} {u : Unit}
    (hinit : ∀ x, G.Initializes x ↔ x = g.storage r) (hc : Parcelled r L c) (hg : g ∈ c.globals)
    (ht : G.Admits (Expr.optionTargets g.init)) (h : Yields (initGlobal g) c u c') :
    (Parcelled r L c' ∧ c'.plan = c.plan) ∧ ∀ e ∈ emissions (initGlobal g) c, e.Heeds G := by
  obtain ⟨c₁, -, hx, rfl⟩ := initGlobal_spec hc.atRest (hc.atRest.globals g hg) h
  have hentered := hc.entered g.path
  have hleft : Parcelled r L (exited g.path (.ok u) c c₁) :=
    (hentered.of_context (hentered.atRest.of_extends hx) hx.extent.globalLength hx.context).exited
      (Steady.depth hx).scopes
  refine ⟨⟨hleft, (congrArg Compilation.plan hx.context :)⟩, ?_⟩
  have hemissions : emissions (initGlobal g) c = emissions (initializer g) (c.entered g.path) :=
    emissions_inModule ..
  obtain ⟨own, hown, hstorage⟩ := hc.globals g hg
  rw [hemissions]
  subst hG
  refine heeds_initializer (hentered.rests rfl) hinit (fun b hb => ?_) ht
  rw [← hstorage]
  exact (hc.apart own hown b (hentered.mem_of_binds hb)).imp_left fun heq : own = b => heq ▸ rfl

/-- What the initializer of a global variable emits heeds the guard, which lets it write the storage
of the variable. -/
structure PendingGlobal.Heeds (guard : PendingGlobal → Guard) (g : PendingGlobal)
    (es : List Emission) : Prop where
  emitted : ∃ c c', Yields (initGlobal g) c () c' ∧ es = emissions (initGlobal g) c
  heeds : ∀ e ∈ es, e.Heeds (guard g)

theorem heeds_globals {guard : PendingGlobal → Guard} (hG : ∀ g, (guard g).registry = r)
    (hinit : ∀ g x, (guard g).Initializes x ↔ x = g.storage r) : ∀ {gs : List PendingGlobal}
    {c c' : Compilation} {u : Unit}, Parcelled r L c → (∀ g ∈ gs, g ∈ c.globals) →
      (∀ g ∈ gs, (guard g).Admits (Expr.optionTargets g.init)) →
      Yields (gs.forM initGlobal) c u c' → (Parcelled r L c' ∧ c'.plan = c.plan) ∧
        ∃ inits, List.Forall₂ (PendingGlobal.Heeds guard) gs inits ∧
          emissions (gs.forM initGlobal) c = inits.flatten
  | [], c, c', u, hc, _, _, h => by
    rw [yields_forM_nil.mp h]
    exact ⟨⟨hc, rfl⟩, [], .nil, rfl⟩
  | g :: gs, c, c', u, hc, hgs, ht, h => by
    obtain ⟨hg, hgs⟩ := List.forall_mem_cons.mp hgs
    obtain ⟨hfirst, ht⟩ := List.forall_mem_cons.mp ht
    obtain ⟨_, c₁, hy, hmore⟩ := yields_forM_cons.mp h
    obtain ⟨⟨hc₁, hplan⟩, hheeds⟩ := heeds_initGlobal (hG g) (hinit g) hc hg hfirst hy
    have hglobals : c₁.globals = c.globals := congrArg (·.2.2) hplan
    obtain ⟨⟨hc', hplan'⟩, inits, hinits, hemissions⟩ :=
      heeds_globals hG hinit hc₁ (hglobals ▸ hgs) ht hmore
    refine ⟨⟨hc', hplan'.trans hplan⟩, _ :: inits, .cons ⟨⟨c, c₁, hy, rfl⟩, hheeds⟩ hinits, ?_⟩
    show emissions (initGlobal g >>= fun _ => gs.forM initGlobal) c = _
    rw [emissions_of_yields hy, hemissions, List.flatten_cons]

/-- Find the entry point and start the program with it. -/
def runEntry : CompileM Unit := do
  let s ← entryPoint
  let base := (← get).frame.topAddress
  let _ ← allocFor s.result
  startProgram s base

theorem compileEntry_eq : compileEntry = (do
    modifyFrame (·.beginFunction)
    (← get).globals.forM initGlobal
    runEntry
    let code ← updateFrame (·.takeCode)
    modify fun st => { st with listing := { st.listing with entry := code } }) := by
  unfold compileEntry runEntry startProgram
  simp only [bind_assoc]
  refine bind_congr fun _ => bind_congr fun c => bind_congr fun _ => bind_congr fun s =>
    bind_congr fun c₁ => bind_congr fun _ => ?_
  split <;> simp only [bind_assoc]

theorem guarded_runEntry (hc : G.Watches c) : Guarded G runEntry c := by
  refine Guarded.bind (Reading.reads (P := Guards G) entryPoint c hc) fun s c₁ _ h₁ => ?_
  exact .bind (.of_mute (fun _ => rfl) fun hy => by
    obtain ⟨rfl, rfl⟩ := yields_get.mp hy
    exact ⟨h₁, .of_same (Nat.le_refl _) rfl⟩) fun a c₂ ha h₂ => by
    obtain ⟨rfl, rfl⟩ := yields_get.mp ha
    exact guarded_start h₂

/-- The entry section initializes the global variables in order, and then the program is started. -/
theorem heeds_compileEntry (guard : PendingGlobal → Guard) {u : Unit} (hG : G.registry = r)
    (hguard : ∀ g, (guard g).registry = r) (hinit : ∀ g x, (guard g).Initializes x ↔ x = g.storage r)
    (hc : Parcelled r L c) (ht : ∀ g ∈ c.globals, (guard g).Admits (Expr.optionTargets g.init))
    (h : Yields compileEntry c u c') : c'.plan = c.plan ∧
      ∃ inits start, emissions compileEntry c = inits.flatten ++ start ∧
        List.Forall₂ (PendingGlobal.Heeds guard) c.globals inits ∧ ∀ e ∈ start, e.Heeds G := by
  have hbegin : Parcelled r L { c with frame := c.frame.beginFunction } :=
    hc.of_context ((safe_beginFunction hc.atRest).yields (a := ()) (yields_modifyFrame.mpr rfl)).2.1
      (Nat.le_refl _) rfl
  obtain ⟨c₁, s, a, c₂, c₃, hglobals, -, hresult, hstart, rfl⟩ := compileEntry_spec h
  obtain ⟨⟨hc₁, hplan₁⟩, inits, hinits, hemissions⟩ :=
    heeds_globals hguard hinit hbegin (fun _ hg => hg) ht hglobals
  have hentry := guarded_runEntry (hc₁.rests hG).watches
  refine ⟨?_, inits, emissions runEntry c₁, ?_, hinits, hentry.emissions⟩
  · obtain ⟨rfl, rfl⟩ := yields_allocFor.mp hresult
    exact (lawful_startProgram (r := r) hstart).1.1.trans hplan₁
  · rw [compileEntry_eq, emissions_of_yields (a := ()) (yields_modifyFrame.mpr rfl),
      emissions_of_yields (yields_get.mpr ⟨rfl, rfl⟩), emissions_of_yields hglobals, hemissions]
    refine congrArg (inits.flatten ++ ·) ?_
    rw [emissions_bind]
    cases runEntry.run.run c₁ with
    | mk o c₄ =>
      cases o with
      | ok _ => exact List.append_nil _
      | error _ => exact List.append_nil _

/-! ## Programs -/

/-- What a program emits: first all that concerns its functions, then the initializers of its global
variables, then the start. It heeds the guard from beginning to end. -/
structure Heedful (G : Guard) (guard : PendingGlobal → Guard) (globals : List PendingGlobal)
    (es : List Emission) : Prop where
  parts : ∃ bodies inits start, es = bodies ++ inits.flatten ++ start ∧
    (∀ e ∈ bodies, e.Heeds G) ∧ List.Forall₂ (PendingGlobal.Heeds guard) globals inits ∧
    ∀ e ∈ start, e.Heeds G

/-- Registration emits only what finds out the types of global variables, and leaves these variables
parcelled. -/
theorem heeds_run {o : Options} {n : Registration.Counts} (hstart : Compilation.start o = .ok c)
    (hG : G.registry = c'.registry)
    (ht : ∀ m ∈ p.modules, ∀ d, .global d ∈ m.items → G.Admits (Expr.optionTargets d.init))
    (h : Yields (Registration.run p) c n c') :
    (∃ L, Parcelled c'.registry L c') ∧ ∀ e ∈ emissions (Registration.run p) c, e.Heeds G := by
  rw [Dispatch.run_eq_runTables] at h ⊢
  simp only [yields_bind, yields_pure] at h
  obtain ⟨x, c₁, htables, k, c', hglobals, -, rfl⟩ := h
  obtain ⟨hrest, houter, hnone⟩ := ((safe_runTables hstart).yields htables).2
  have hfirst : Parcelled c₁.registry [] c₁ := by
    refine ⟨hrest, houter.mono (fun _ => False.elim) rfl rfl (.refl _), List.forall_mem_nil _,
      List.forall_mem_nil _, ?_⟩
    rw [hnone]
    exact List.forall_mem_nil _
  have hregistry : c'.registry = c₁.registry :=
    ((safe_registerAllGlobals hrest).yields hglobals).2.registry
  obtain ⟨L, hparcelled, hheeds⟩ :=
    heeds_registerAllGlobals (hG.trans hregistry) hfirst ht hglobals
  refine ⟨⟨L, hregistry ▸ hparcelled⟩, fun e he => ?_⟩
  have hsilent : emissions (Dispatch.runTables p) c = [] :=
    (Has.out : Silent _ (Dispatch.runTables p)) c
  rw [emissions_of_yields htables, emissions_of_yields hglobals, hsilent] at he
  rcases List.mem_append.mp he with he | he
  · exact absurd he List.not_mem_nil
  · rcases List.mem_append.mp he with he | he
    · exact hheeds e he
    · exact absurd he List.not_mem_nil

theorem emissions_compileProgram {c₁ c₂ : Compilation} {n : Registration.Counts} {k : Nat} {u : Unit}
    (hregister : Yields (Registration.run p) c n c₁)
    (hbodies : Yields (compileBodies (c₁.registry.functions.toList.map (·.id))) c₁ k c₂)
    (hentry : Yields compileEntry c₂ u c') :
    emissions (compileProgram p) c = emissions (Registration.run p) c ++
      emissions (compileBodies (c₁.registry.functions.toList.map (·.id))) c₁ ++
      emissions compileEntry c₂ := by
  have hbody : Yields Bodies.run c₁ k c' := by
    simp only [Bodies.run, yields_bind, yields_get, yields_pure]
    exact ⟨_, c₁, ⟨rfl, rfl⟩, k, c₂, hbodies, u, c', hentry, rfl, rfl⟩
  have hrun : emissions Bodies.run c₁ =
      emissions (compileBodies (c₁.registry.functions.toList.map (·.id))) c₁ ++
        emissions compileEntry c₂ := by
    rw [Bodies.run, emissions_of_yields (yields_get.mpr ⟨rfl, rfl⟩), emissions_of_yields hbodies,
      emissions_of_yields hentry, show emissions (pure k) c' = [] from rfl, List.append_nil]
    rfl
  rw [compileProgram, emissions_of_yields hregister, emissions_of_yields hbody, hrun,
    show emissions (pure ()) c' = [] from rfl, List.append_nil, List.append_assoc]

/-- Whatever a program that compiles emits heeds a guard. Its assignments need to keep track of
constants only if the guard relies on that. -/
theorem heedful_of_compileProgram {o : Options} {tracked : Prop} (hstart : Compilation.start o = .ok c)
    (h : Yields (compileProgram p) c () c') (ht : tracked → p.KeepsTrack) :
    ∃ hr : c'.registry.Sound, Heedful (hr.guard tracked fun _ => False)
      (fun g => hr.guard tracked (· = g.storage c'.registry)) c'.globals
      (emissions (compileProgram p) c) := by
  simp only [compileProgram, Bodies.run, yields_bind, yields_get, yields_pure] at h
  obtain ⟨n, c₁, hregister, _, c₂, ⟨_, c₁, ⟨rfl, rfl⟩, k, c₃, hbodies, _, c₄, hentry, _, rfl⟩, _,
    rfl⟩ := h
  have hr : c₁.registry.Sound := ((safe_run hstart).yields hregister).2.sound
  -- Only the initializer of a constant may write it; everywhere else no constant is exempt.
  let G := hr.guard tracked fun _ => False
  have hinitializers : ∀ m ∈ p.modules, ∀ d, .global d ∈ m.items →
      G.Admits (Expr.optionTargets d.init) := fun m hm d hd htracked => ht htracked m hm _ hd
  obtain ⟨⟨L, hc₁⟩, hfirst⟩ := heeds_run (G := G) hstart rfl hinitializers hregister
  have htargets : ∀ id body, c₁.bodies.find? id = some body → G.Admits body.decl.targets :=
    fun id body hbody htracked =>
      (ht htracked).function (Registration.defines_of_run hstart hregister hbody)
  obtain ⟨⟨hc₃, hplan₃⟩, hsecond⟩ := heeds_compileBodies (G := G) rfl hc₁ htargets hbodies
  have hglobals : c₃.globals = c₁.globals := congrArg (·.2.2) hplan₃
  obtain ⟨hplan, inits, start, hemissions, hinits, hthird⟩ :=
    heeds_compileEntry (G := G) (fun g => hr.guard tracked (· = g.storage c₁.registry))
      rfl (fun _ => rfl) (fun _ _ => .rfl) hc₃
      (fun g hg htracked => (ht htracked).initializer
        (Registration.lists_of_run hstart hregister g (hglobals ▸ hg))) hentry
  have hregistry : c'.registry = c₁.registry := congrArg (·.1) (hplan.trans hplan₃)
  have hlisted : c'.globals = c₃.globals := congrArg (·.2.2) hplan
  rw [hlisted, hregistry]
  let ids := c₁.registry.functions.toList.map (·.id)
  have hbodies : Yields (compileBodies ids) c₁ k c₃ := hbodies
  refine ⟨hr, ⟨emissions (Registration.run p) c ++ emissions (compileBodies ids) c₁, inits, start, ?_,
    fun e he => ?_, hinits, hthird⟩⟩
  · rw [emissions_compileProgram hregister hbodies hentry, hemissions, ← List.append_assoc]
  · rcases List.mem_append.mp he with he | he
    · exact hfirst e he
    · exact hsecond e he

end Programs

end ClassLang
