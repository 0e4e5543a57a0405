import ClassLang.Proofs.Lowering.Brackets
import ClassLang.Proofs.Registration.Visible
import ClassLang.Proofs.Safety.Names
import ClassLang.Proofs.Safety.Statements

/-!
# Steps in modules are safe

What is done in a module runs in the scope of that module, and that scope is taken off again in any
case. A program is registered and compiled by steps in modules; from one to the next the registry
and the scopes change, but registers are given back, and globals and literals are only added.
-/

namespace ClassLang

open CompileM Lowering

/-! ## Between functions -/

/-- The kind of the scopes of functions and methods. -/
def ScopeKind.isFunction : ScopeKind → Bool
  | function .. | method .. => true
  | _ => false

/-- No function is being compiled, and none was when a module was left. -/
structure Compilation.Topmost (c : Compilation) : Prop where
  scopes : ∀ x ∈ c.scopes.chain, x.kind.isFunction = false
  modules : ∀ path x, c.moduleScopes.find? path = some x → x.kind.isFunction = false

namespace Compilation.Topmost

variable {c c' : Compilation}

theorem function?_eq_none (h : c.Topmost) : c.scopes.function? = none := by
  refine List.findSome?_eq_none_iff.mpr fun x hx => ?_
  have hkind := h.scopes x hx
  cases hk : x.kind <;> rw [hk] at hkind <;> first | rfl | cases hkind

theorem of_same (h : c.Topmost) (hkinds : c'.scopes.kinds = c.scopes.kinds)
    (hmodules : c'.moduleScopes = c.moduleScopes) : c'.Topmost where
  scopes x hx := by
    have hmem : x.kind ∈ c.scopes.kinds := hkinds ▸ List.mem_map_of_mem hx
    obtain ⟨y, hy, heq⟩ := List.mem_map.mp hmem
    exact heq ▸ h.scopes y hy
  modules path x hx := h.modules path x (hmodules ▸ hx)

theorem entered (h : c.Topmost) (path : String) : (c.entered path).Topmost where
  scopes x hx := by
    rcases List.mem_cons.mp (show x ∈ _ :: c.scopes.chain from hx) with rfl | hx
    · cases hfind : c.moduleScopes.find? path with
      | none => rfl
      | some scope => exact h.modules path scope hfind
    · exact h.scopes x hx
  modules := h.modules

end Compilation.Topmost


/-- The function has a body, and its class is registered. -/
structure PendingBody.Compilable (r : Registry) (b : PendingBody) : Prop where
  body : b.decl.body.isSome = true
  owner : ∀ h, b.owner = some h → r.Has h

/-- Whatever waits can be compiled. -/
def Compilation.Waiting (c : Compilation) : Prop :=
  ∀ id b, c.bodies.find? id = some b → b.Compilable c.registry

namespace CompileM

variable {α β : Type} {c c₁ : Compilation} {path : String} {body : CompileM α}

/-! ## Entering and leaving -/

/-- What is left after a module is left, with the module noted if the step failed. -/
def exited (path : String) (o : Except CompileError α) (c c₁ : Compilation) : Compilation :=
  { c₁ with
    scopes := { c₁.scopes with inner := c₁.scopes.inner.tail }
    moduleScopes := c₁.moduleScopes.insert path c₁.scopes.current
    path := c.path
    failedPath := match o with
      | .ok _ => c₁.failedPath
      | .error _ => c₁.failedPath.or (some path) }

/-- The scope of a module is on top of the others, if as many are open as before. -/
theorem pop_entered (hdepth : c₁.scopes.depth = c.scopes.depth + 1) :
    (c₁.scopes.truncate (c.scopes.depth + 1)).pop =
      .ok (c₁.scopes.current, { c₁.scopes with inner := c₁.scopes.inner.tail }) := by
  generalize c₁.scopes = scopes at hdepth
  obtain ⟨global, inner⟩ := scopes
  have hlength : inner.length = c.scopes.inner.length + 1 := Nat.succ.inj hdepth
  cases inner with
  | nil => cases hlength
  | cons first rest =>
    have hnone : (first :: rest).length - (c.scopes.depth + 1 - 1) = 0 := by
      rw [hlength]
      exact Nat.sub_self _
    unfold Scopes.truncate
    rw [hnone]
    rfl

/-- A step in a module whose body closes what it opens. -/
theorem inModule_exited {a : α} {c' : Compilation} (h : Yields (inModule path body) c a c')
    (hdepth : ∀ c₁, Yields body (c.entered path) a c₁ → SameDepth (c.entered path) c₁) :
    ∃ c₁, Yields body (c.entered path) a c₁ ∧ c' = exited path (.ok a) c c₁ := by
  obtain ⟨c₁, scope, scopes, hbody, hpop, rfl⟩ := inModule_spec h
  rw [pop_entered (hdepth c₁ hbody).scopes] at hpop
  cases hpop
  exact ⟨c₁, hbody, rfl⟩

theorem topmost_exited {o : Except CompileError α} (h : c₁.Topmost) : (exited path o c c₁).Topmost where
  scopes x hx := by
    refine h.scopes x ?_
    rcases List.mem_append.mp hx with hx | hx
    · exact List.mem_append_left _ (List.mem_of_mem_tail hx)
    · exact List.mem_append_right _ hx
  modules p x hx := by
    have hx : (c₁.moduleScopes.insert path c₁.scopes.current).find? p = some x := hx
    by_cases hp : path = p
    · rw [hp, Table.find?_insert_self] at hx
      injection hx with hx
      refine hx ▸ h.scopes _ ?_
      rw [Scopes.chain_eq]
      exact List.mem_cons_self
    · rw [Table.find?_insert_of_ne _ hp] at hx
      exact h.modules p x hx

theorem run_inModule {o : Except CompileError α} (hrun : body.run.run (c.entered path) = (o, c₁))
    (hdepth : c₁.scopes.depth = c.scopes.depth + 1) :
    (inModule path body).run.run c = (o, exited path o c c₁) := by
  have hpop : ∀ failed : Option String,
      Yields (conclude (c₁.scopes.truncate (c.scopes.depth + 1)).pop)
        { c₁ with scopes := c₁.scopes.truncate (c.scopes.depth + 1), failedPath := failed }
        (c₁.scopes.current, { c₁.scopes with inner := c₁.scopes.inner.tail })
        { c₁ with scopes := c₁.scopes.truncate (c.scopes.depth + 1), failedPath := failed } :=
    fun _ => yields_conclude.mpr ⟨pop_entered hdepth, rfl⟩
  have henter : Yields (set (c.entered path)) c ⟨⟩ (c.entered path) := yields_set.mpr rfl
  unfold inModule
  rw [run_of_yields (yields_get.mpr ⟨rfl, rfl⟩)]
  refine (run_of_yields henter).trans ?_
  rw [run_of_yields (yields_attempt.mpr hrun)]
  cases o with
  | ok a =>
    dsimp only
    rw [run_of_yields (a := ()) (yields_modifyScopes.mpr rfl),
      run_of_yields (yields_get.mpr ⟨rfl, rfl⟩), run_of_yields (hpop c₁.failedPath)]
    rfl
  | error e =>
    dsimp only
    rw [run_of_yields (a := ()) (m := noteFailure path) (yields_modify.mpr rfl),
      run_of_yields (a := ()) (yields_modifyScopes.mpr rfl),
      run_of_yields (yields_get.mpr ⟨rfl, rfl⟩), run_of_yields (hpop _)]
    rfl

theorem mute_leave (path before : String) (n : Nat) (o : Except CompileError α) : Mute (do
    modifyScopes (·.truncate n)
    let (scope, scopes) ← conclude (← get).scopes.pop
    modify fun s => { s with
      scopes := scopes
      moduleScopes := s.moduleScopes.insert path scope
      path := before }
    conclude o) :=
  (mute_modify _).bind fun _ => .bind (fun _ => rfl) fun _ =>
    (mute_conclude _).bind fun _ => (mute_modify _).bind fun _ => mute_conclude o

/-- A module is left without a trace, whatever came of the step. -/
theorem mute_finish (path before : String) (n : Nat) (o : Except CompileError α) : Mute (do
    if let .error _ := o then noteFailure path
    modifyScopes (·.truncate n)
    let (scope, scopes) ← conclude (← get).scopes.pop
    modify fun s => { s with
      scopes := scopes
      moduleScopes := s.moduleScopes.insert path scope
      path := before }
    conclude o) := by
  cases o with
  | ok a => exact mute_leave _ _ _ _
  | error e => exact (mute_modify _).bind fun _ => mute_leave _ _ _ _

theorem emissions_inModule (path : String) (body : CompileM α) (c : Compilation) :
    emissions (inModule path body) c = emissions body (c.entered path) := by
  have henter : Yields (set (c.entered path)) c ⟨⟩ (c.entered path) := yields_set.mpr rfl
  unfold inModule
  refine (emissions_of_yields (yields_get.mpr ⟨rfl, rfl⟩)).trans ?_
  refine (congrArg (_ ++ ·) (emissions_of_yields henter)).trans ?_
  rw [emissions_of_yields (yields_attempt.mpr rfl), emissions_attempt]
  exact (congrArg (emissions body (c.entered path) ++ ·) (mute_finish _ _ _ _ _)).trans
    (List.append_nil _)

/-! ## How a program changes the state -/

/-- As many scopes and blocks are open, no register is lost, globals, literals and classes stay, and
what waits to be compiled can be. -/
structure Drafts (c c' : Compilation) : Prop extends SameDepth c c' where
  registers : c'.frame.freeRegisters = c.frame.freeRegisters
  globals : c.frame.globalLength ≤ c'.frame.globalLength
  literals : c.literals.Inside → c'.literals.Inside
  classes : ∀ h, c.registry.Has h → c'.registry.Has h
  waiting : c.Waiting → c'.Waiting
  topmost : c.Topmost → c'.Topmost

instance : Steady Drafts where
  refl _ := ⟨⟨rfl, rfl⟩, rfl, Nat.le_refl _, id, fun _ => id, id, id⟩
  trans h₁ h₂ := ⟨Steady.trans h₁.toSameDepth h₂.toSameDepth, h₂.registers.trans h₁.registers,
    Nat.le_trans h₁.globals h₂.globals, fun h => h₂.literals (h₁.literals h),
    fun h hh => h₂.classes h (h₁.classes h hh), fun h => h₂.waiting (h₁.waiting h),
    fun h => h₂.topmost (h₁.topmost h)⟩
  depth h := h.toSameDepth

/-- A change that leaves scopes, frame, literals and bodies alone. -/
theorem Drafts.of_same {c' : Compilation} (hscopes : c'.scopes = c.scopes)
    (hmodules : c'.moduleScopes = c.moduleScopes) (hframe : c'.frame = c.frame)
    (hliterals : c'.literals = c.literals)
    (hbodies : c'.bodies = c.bodies) (hclasses : ∀ h, c.registry.Has h → c'.registry.Has h) :
    Drafts c c' where
  blocks := by rw [hframe]
  scopes := by rw [hscopes]
  registers := by rw [hframe]
  globals := Nat.le_of_eq (by rw [hframe])
  literals := by
    rw [hliterals]
    exact id
  classes := hclasses
  waiting hc id b hb := by
    rw [hbodies] at hb
    exact ⟨(hc id b hb).body, fun h hh => hclasses h ((hc id b hb).owner h hh)⟩
  topmost hc := hc.of_same (by rw [hscopes]) hmodules

theorem Extends.drafts {c' : Compilation} (h : Extends c c') : Drafts c c' where
  toSameDepth := Steady.depth h
  registers := h.registers
  globals := h.extent.globalLength
  literals := h.literals
  classes _ hh := h.registry ▸ hh
  waiting hc := by
    have hbodies : c'.bodies = c.bodies := (congrArg Compilation.bodies h.context :)
    unfold Compilation.Waiting
    rw [hbodies, h.registry]
    exact hc
  topmost hc := hc.of_same (by rw [h.scopes]) (congrArg Compilation.moduleScopes h.context :)

theorem Defers.drafts {c' : Compilation} (h : Defers c c') : Drafts c c' := h.extends.drafts

/-- A step in a module. -/
theorem safe_inModule {P Q : α → Compilation → Prop}
    (hbody : Safe Drafts body (c.entered path) P)
    (hleft : ∀ a c₁, Drafts (c.entered path) c₁ → P a c₁ → Q a (exited path (.ok a) c c₁)) :
    Safe Drafts (inModule path body) c Q := by
  have hdepth : ∀ (o : Except CompileError α) c₁, SameDepth (c.entered path) c₁ →
      SameDepth c (exited path o c c₁) := by
    intro o c₁ h
    refine ⟨h.blocks, ?_⟩
    have hlength : c₁.scopes.inner.length + 1 = c.scopes.inner.length + 1 + 1 := h.scopes
    show c₁.scopes.inner.tail.length + 1 = c.scopes.inner.length + 1
    rw [List.length_tail]
    omega
  refine .bracket (fun o c₁ => exited path o c c₁) hbody (fun _ h => h.toSameDepth)
    (emissions_inModule path body c) ?_ ?_ ?_
  · exact fun o c₁ hrun hsame => run_inModule hrun hsame.scopes
  · exact fun a c₁ h hQ =>
      ⟨⟨hdepth (.ok a) c₁ h.toSameDepth, h.registers, h.globals, h.literals, h.classes, h.waiting,
        fun hc => topmost_exited (h.topmost (hc.entered path))⟩, hleft a c₁ h hQ⟩
  · exact fun e c₁ h => hdepth (.error e) c₁ h

/-! ## Rules for steps that are known to have succeeded -/

namespace Safe

variable {R : Compilation → Compilation → Prop} {m : CompileM α} {Q : α → Compilation → Prop}

/-- What follows a step may use that the step was taken. -/
theorem traced (h : Safe R m c Q) : Safe R m c fun a c' => Yields m c a c' ∧ Q a c' where
  emissions := h.emissions
  yields hm := ⟨(h.yields hm).1, hm, (h.yields hm).2⟩
  fails := h.fails

variable [Steady R]

/-- A step for each member of a list, whose results are as promised one by one. -/
theorem mapM {γ : Type} {xs : List γ} {g : γ → CompileM β} {I : Compilation → Prop} {P : β → Prop}
    (hg : ∀ x ∈ xs, ∀ c₁, R c c₁ → I c₁ → Safe R (g x) c₁ fun b c' => I c' ∧ P b) (hI : I c) :
    Safe R (xs.mapM g) c fun bs c' => I c' ∧ ∀ b ∈ bs, P b := by
  induction xs generalizing c with
  | nil =>
    rw [List.mapM_nil]
    exact .pure ⟨hI, List.forall_mem_nil _⟩
  | cons x xs ih =>
    rw [List.mapM_cons]
    refine (hg x List.mem_cons_self c (Steady.refl c) hI).bind fun b c₁ hR ⟨hI₁, hb⟩ => ?_
    refine (ih (fun y hy c₂ hR' => hg y (List.mem_cons_of_mem _ hy) c₂ (Steady.trans hR hR'))
      hI₁).bind fun bs c₂ _ ⟨hI₂, hbs⟩ => ?_
    exact .pure ⟨hI₂, List.forall_mem_cons.mpr ⟨hb, hbs⟩⟩

/-- A step for each member of a list, each of which starts with what the one before came to. -/
theorem foldlM {γ : Type} {xs : List γ} {g : β → γ → CompileM β} {b : β}
    {I : β → Compilation → Prop}
    (hg : ∀ x ∈ xs, ∀ b c₁, R c c₁ → I b c₁ → Safe R (g b x) c₁ I) (hI : I b c) :
    Safe R (xs.foldlM g b) c I := by
  induction xs generalizing b c with
  | nil => exact .pure hI
  | cons x xs ih =>
    rw [List.foldlM_cons]
    refine (hg x List.mem_cons_self b c (Steady.refl c) hI).bind fun b₁ c₁ hR hI₁ => ?_
    exact ih (fun y hy b₂ c₂ hR' => hg y (List.mem_cons_of_mem _ hy) b₂ c₂ (Steady.trans hR hR')) hI₁

end Safe

theorem safe_modifyRegistry {f : Registry → Registry} {Q : Unit → Compilation → Prop}
    (hclasses : ∀ h, c.registry.Has h → (f c.registry).Has h)
    (h : Q () { c with registry := f c.registry }) : Safe Drafts (modifyRegistry f) c Q :=
  safe_modify (.of_same rfl rfl rfl rfl rfl hclasses) h

end CompileM

end ClassLang
