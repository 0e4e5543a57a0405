import ClassLang.Proofs.Lowering.Restored
import ClassLang.Proofs.Registration.Names
import ClassLang.Proofs.Registration.Traversal
import ClassLang.Proofs.Safety.Modules

/-!
# Scopes that are put back

Registration goes through the modules again and again, and each time it enters the scope that a
module had when it was left. Whatever else is done, scopes are put back, so a scope only changes by
the names that are defined in it. In particular a name that was defined for a class stays defined,
because a class cannot be redefined. So when the methods of a class are registered, the class that
its declaration introduced is found in the scope of the module.
-/

-- The instances of long steps are large terms.
set_option synthInstance.maxSize 1000

namespace ClassLang

open CompileM Lowering

/-- The names of classes in a scope are in another one too. -/
def Scope.ClassesIn (s s' : Scope) : Prop :=
  ∀ n e h, s.find? n = some e → e.meaning = .classOf h → s'.find? n = some e

theorem Scope.ClassesIn.refl (s : Scope) : s.ClassesIn s := fun _ _ _ he _ => he

theorem Scope.ClassesIn.trans {s s₁ s₂ : Scope} (h₁ : s.ClassesIn s₁) (h₂ : s₁.ClassesIn s₂) :
    s.ClassesIn s₂ := fun n e h he hm => h₂ n e h (h₁ n e h he hm) hm

theorem Scope.ClassesIn.define {s s' : Scope} {name : String} {d : Meaning} {span : Span}
    (h : s.define name d span = .ok s') : s.ClassesIn s' :=
  fun _ _ _ he hm => Scope.find?_define_of_class he hm h

/-- A way in which scopes change when names are defined that do not stand for natives. -/
class Scope.Lasting (R : Scope → Scope → Prop) : Prop where
  refl : ∀ s, R s s
  trans : ∀ {s s₁ s₂}, R s s₁ → R s₁ s₂ → R s s₂
  define : ∀ {s s' : Scope} {name : String} {d : Meaning} {span : Span} [d.Ordinary],
    s.define name d span = .ok s' → R s s'

instance : Scope.Lasting Scope.ClassesIn := ⟨.refl, .trans, .define⟩

/-- As many scopes and blocks are open, and these scopes and those of the modules changed in this
way at most. -/
structure Retained (R : Scope → Scope → Prop) (c c' : Compilation) : Prop where
  blocks : c'.frame.depth = c.frame.depth
  scopes : List.Forall₂ R c.scopes.chain c'.scopes.chain
  modules : ∀ path, R (c.moduleScope path) (c'.moduleScope path)

namespace Retained

variable {R : Scope → Scope → Prop} [hR : Scope.Lasting R] {c c₁ c₂ : Compilation}

theorem of_same (hscopes : c₁.scopes = c.scopes) (hmodules : c₁.moduleScopes = c.moduleScopes)
    (hblocks : c₁.frame.depth = c.frame.depth) : Retained R c c₁ where
  blocks := hblocks
  scopes := hscopes ▸ List.forall₂_same.mpr fun x _ => hR.refl x
  modules path := by
    unfold Compilation.moduleScope
    rw [hmodules]
    exact hR.refl _

theorem refl (c : Compilation) : Retained R c c := .of_same rfl rfl rfl

theorem trans (h₁ : Retained R c c₁) (h₂ : Retained R c₁ c₂) : Retained R c c₂ where
  blocks := h₂.blocks.trans h₁.blocks
  scopes := by
    have htrans : ∀ {as bs cs : List Scope}, List.Forall₂ R as bs → List.Forall₂ R bs cs →
        List.Forall₂ R as cs := by
      intro as bs cs h h'
      induction h generalizing cs with
      | nil =>
        cases h'
        exact .nil
      | cons hab _ ih =>
        cases h' with
        | cons hbc hrest => exact .cons (hR.trans hab hbc) (ih hrest)
    exact htrans h₁.scopes h₂.scopes
  modules path := hR.trans (h₁.modules path) (h₂.modules path)

omit hR

theorem depth (h : Retained R c c₁) : c₁.scopes.depth = c.scopes.depth := by
  have hlength := h.scopes.length_eq
  simpa [Scopes.chain, Scopes.depth] using hlength.symm

/-- The innermost scope changed in this way. -/
theorem current (h : Retained R c c₁) : R c.scopes.current c₁.scopes.current := by
  have hchain := h.scopes
  rw [c.scopes.chain_eq, c₁.scopes.chain_eq] at hchain
  cases hchain with
  | cons hfirst _ => exact hfirst

end Retained

/-- What is left after the innermost scope is taken off. -/
theorem Scopes.forall₂_pop {R : Scope → Scope → Prop} {s t : Scopes} {scope : Scope}
    (h : List.Forall₂ R (s.push scope).chain t.chain) :
    R scope t.current ∧ List.Forall₂ R s.chain
      ({ t with inner := t.inner.tail } : Scopes).chain := by
  obtain ⟨global, _ | ⟨first, rest⟩⟩ := t
  · have hlength : (s.inner ++ [s.global]).length + 1 = 1 := h.length_eq
    rw [List.length_append] at hlength
    simp at hlength
  · have h : List.Forall₂ R (scope :: s.chain) (first :: (rest ++ [global])) := h
    cases h with
    | cons hfirst hrest => exact ⟨hfirst, hrest⟩

theorem Scopes.truncate_pop {s t : Scopes} (h : t.depth = s.depth + 1) :
    t.truncate s.depth = { t with inner := t.inner.tail } := by
  have hone : t.inner.length - (s.inner.length + 1 - 1) = 1 := by
    have h : t.inner.length + 1 = s.inner.length + 1 + 1 := h
    omega
  unfold Scopes.truncate Scopes.depth
  rw [hone, List.drop_one]

/-! ## Every step of registration -/

/-- The step changes scopes in this way at most, whether it succeeds or fails. -/
def Retains (R : Scope → Scope → Prop) (α : Type) (m : CompileM α) : Prop :=
  ∀ c, Retained R c (m.run.run c).2

section Retains

variable {R : Scope → Scope → Prop} {α : Type} {c : Compilation}

theorem Retains.after {m : CompileM α} [hm : Has (Retains R) m] {c' : Compilation} {a : α}
    (h : Yields m c a c') : Retained R c c' := by
  have hret := hm.out c
  rw [show m.run.run c = (.ok a, c') from h] at hret
  exact hret

theorem retains_inScope {kind : ScopeKind} {body : CompileM α} (hbody : Retains R α body) :
    Retains R α (inScope kind body) := by
  intro c
  have h := hbody (inside kind c)
  rw [run_inScope rfl h.blocks]
  have hscopes : (body.run.run (inside kind c)).2.scopes.truncate c.scopes.depth = _ :=
    Scopes.truncate_pop (s := c.scopes) h.depth
  refine ⟨depth_closed h.blocks, ?_, h.modules⟩
  show List.Forall₂ R c.scopes.chain
    ((body.run.run (inside kind c)).2.scopes.truncate c.scopes.depth).chain
  rw [hscopes]
  exact (Scopes.forall₂_pop h.scopes).2

/-- The scope of a module is put back with what its steps made of it. -/
theorem Retained.inModule {path : String} {body : CompileM α}
    (h : Retained R (c.entered path) (body.run.run (c.entered path)).2) :
    Retained R c ((inModule path body).run.run c).2 := by
  rw [run_inModule rfl h.depth]
  obtain ⟨hcurrent, hchain⟩ := Scopes.forall₂_pop h.scopes
  refine ⟨h.blocks, hchain, fun p => ?_⟩
  by_cases hp : path = p
  · subst hp
    unfold Compilation.moduleScope
    rw [show (exited _ _ c _).moduleScopes.find? path = some _ from Table.find?_insert_self ..]
    exact hcurrent
  · have hkept := h.modules p
    unfold Compilation.moduleScope at hkept ⊢
    rwa [show (exited _ _ c _).moduleScopes.find? p = _ from Table.find?_insert_of_ne _ hp _]

theorem retains_inModule {path : String} {body : CompileM α} (hbody : Retains R α body) :
    Retains R α (inModule path body) := fun c => .inModule (hbody (c.entered path))

variable [hR : Scope.Lasting R]

theorem Retained.updateScopes {g : Scopes → Except CompileError Scopes}
    (hg : ∀ s, g c.scopes = .ok s → List.Forall₂ R c.scopes.chain s.chain) :
    Retained R c ((CompileM.updateScopes g).run.run c).2 := by
  unfold CompileM.updateScopes
  rw [run_of_yields (yields_get.mpr ⟨rfl, rfl⟩)]
  cases hs : g c.scopes with
  | error e => exact .refl c
  | ok s => exact ⟨rfl, hg _ hs, (Retained.refl c).modules⟩

/-- A name is defined in the innermost scope. -/
theorem Retained.define {name : String} {d : Meaning} {span : Span}
    (hd : ∀ {x}, c.scopes.current.define name d span = .ok x → R c.scopes.current x) :
    Retained R c ((CompileM.define name d span).run.run c).2 :=
  .updateScopes fun s h => by
    obtain ⟨scope, hscope, rfl⟩ := Scopes.define_effect h
    have hchain : List.Forall₂ R (c.scopes.current :: c.scopes.chain.tail)
        (scope :: c.scopes.chain.tail) :=
      .cons (hd hscope) (List.forall₂_same.mpr fun x _ => hR.refl x)
    rw [Scopes.chain_replace]
    rwa [← c.scopes.chain_eq] at hchain

/-- The second step starts where the first one succeeded. -/
theorem Retained.bind {β : Type} {m : CompileM α} {g : α → CompileM β}
    (hm : Retained R c (m.run.run c).2)
    (hg : ∀ a c₁, Yields m c a c₁ → Retained R c c₁ → Retained R c₁ ((g a).run.run c₁).2) :
    Retained R c ((m >>= g).run.run c).2 := by
  rw [run_bind]
  rcases hrun : m.run.run c with ⟨e | a, c₁⟩ <;> rw [hrun] at hm
  · exact hm
  · exact hm.trans (hg a c₁ hrun hm)

instance : Indifferent (Retains R) where
  reads m hm c := by
    rw [show (m.run.run c).2 = c from hm.same c]
    exact .refl c

instance : Enlists (Retains R) where
  reads m _ := Indifferent.reads m
  bind hm hg c := .bind (hm c) fun a c₁ _ _ => hg a c₁
  defer _ c := .of_same rfl rfl rfl
  files g hg c := by
    have hscopes : (g c).2.desk.scopes = c.desk.scopes := by rw [hg c]
    have hmodules : (g c).2.desk.moduleScopes = c.desk.moduleScopes := by rw [hg c]
    have hframe : (g c).2.desk.frame = c.desk.frame := by rw [hg c]
    exact .of_same hscopes hmodules (congrArg Frame.depth hframe)
  define name d _ span _ := .define hR.define
  defineGlobal name d _ span _ := .updateScopes fun s h => by
    unfold Scopes.defineGlobal at h
    obtain ⟨global, hglobal, h⟩ := except_bind_eq_ok.mp h
    cases h
    exact List.rel_append (List.forall₂_same.mpr fun x _ => hR.refl x)
      (.cons (hR.define hglobal) .nil)
  allocGlobal _ _ := .of_same rfl rfl rfl
  attempt hm c := hm c
  inScope hbody := retains_inScope hbody
  inModule hbody := retains_inModule hbody

instance : EnlistsBodies (Retains R) where
  queueBody _ _ _ := .of_same rfl rfl rfl

instance : EnlistsGlobals (Retains R) where
  probeType e c := by
    have hcontext : Keeps Compilation.context (probeType e) := inferInstance
    have h := hcontext.eq c
    exact .of_same (congrArg (·.scopes) h) (congrArg (·.moduleScopes) h)
      ((inferInstance : Has Tidies (probeType e)).out c).depth
  pushGlobal _ _ := .of_same rfl rfl rfl

end Retains

/-- Natives do not hide the names of classes either. -/
instance : EnlistsNatives (Retains Scope.ClassesIn) where
  defineNative _ _ _ _ := .define .define

/-! ## Classes of modules -/

/-- The classes of some modules are in the scopes of these modules. -/
def Compilation.Declares (c : Compilation) (ms : List Module) : Prop :=
  ∀ m ∈ ms, ∀ d, .classDecl d ∈ m.items → ∃ e h,
    (c.moduleScope m.path).find? d.name.name = some e ∧ e.meaning = .classOf h

theorem Compilation.Declares.mono {c c' : Compilation} {ms : List Module} (h : c.Declares ms)
    (hc : Retained Scope.ClassesIn c c') : c'.Declares ms := by
  intro m hm d hd
  obtain ⟨e, k, he, hk⟩ := h m hm d hd
  exact ⟨e, k, hc.modules _ _ e k he hk, hk⟩

namespace Registration

theorem declareClass_current {path : String} {d : ClassDecl} {c c' : Compilation}
    {p : PendingClass} (h : Yields (declareClass path d) c p c') :
    ∃ e, c'.scopes.current.find? d.name.name = some e ∧ e.meaning = .classOf p.hash := by
  unfold declareClass at h
  simp only [yields_bind, yields_get, and_assoc, exists_and_left, exists_eq_left] at h
  split at h
  · simp at h
  · simp only [yields_bind, yields_modifyRegistry, yields_pure, defineTopLevel, yields_define,
      exists_eq_left] at h
    obtain ⟨_, _, _, ⟨_, _, ⟨s, hs, rfl⟩, hglobal⟩, rfl, rfl⟩ := h
    obtain ⟨scope, hscope, rfl⟩ := Scopes.define_effect hs
    have hdefined := Scope.find?_define_class hscope
    have hkept := (Retains.after (R := Scope.ClassesIn) hglobal).current
    rw [Scopes.current_replace] at hkept
    exact ⟨_, hkept _ _ _ hdefined rfl, rfl⟩

/-- The classes among some items are in the innermost scope afterwards. -/
theorem declareItems_current {path : String} :
    ∀ {items : List Item} {c c' : Compilation} {ps : List PendingClass},
      Yields (declareItems path items) c ps c' → ∀ d, .classDecl d ∈ items →
        ∃ e h, c'.scopes.current.find? d.name.name = some e ∧ e.meaning = .classOf h
  | [], _, _, _, _, _, hd => absurd hd List.not_mem_nil
  | item :: rest, c, c', ps, h, d, hd => by
    cases item with
    | require name =>
      simp only [declareItems, yields_bind] at h
      obtain ⟨_, c₁, _, hrest⟩ := h
      rcases List.mem_cons.mp hd with hd | hd
      · cases hd
      · exact declareItems_current hrest d hd
    | classDecl k =>
      simp only [declareItems, yields_bind, yields_pure] at h
      obtain ⟨p, c₁, hfirst, qs, c₂, hrest, _, rfl⟩ := h
      rcases List.mem_cons.mp hd with hd | hd
      · cases hd
        obtain ⟨e, he, hmeaning⟩ := declareClass_current hfirst
        exact ⟨e, _, (Retains.after (R := Scope.ClassesIn) hrest).current _ _ _ he hmeaning, hmeaning⟩
      · exact declareItems_current hrest d hd
    | function k | global k =>
      rw [declareItems] at h
      · rcases List.mem_cons.mp hd with hd | hd
        · cases hd
        · exact declareItems_current h d hd
      all_goals simp

/-- Once all names are declared, the classes of each module are in its scope. -/
theorem declareModules_declares :
    ∀ {ms : List Module} {c c' : Compilation} {ps : List PendingClass},
      Yields (declareModules ms) c ps c' → c'.Declares ms
  | [], _, _, _, _ => List.forall_mem_nil _
  | m :: ms, c, c', ps, h => by
    simp only [declareModules, yields_bind, yields_pure] at h
    obtain ⟨qs, c₁, hfirst, rs, c₂, hrest, _, rfl⟩ := h
    refine List.forall_mem_cons.mpr ⟨fun d hd => ?_, declareModules_declares hrest⟩
    obtain ⟨c₀, scope, scopes, hbody, hpop, rfl⟩ := inModule_spec hfirst
    rw [pop_entered (Retains.after (R := Scope.ClassesIn) hbody).depth] at hpop
    cases hpop
    obtain ⟨e, k, he, hk⟩ := declareItems_current hbody d hd
    refine ⟨e, k, (Retains.after (R := Scope.ClassesIn) hrest).modules m.path _ e k ?_ hk, hk⟩
    unfold Compilation.moduleScope
    rw [Table.find?_insert_self]
    exact he

end Registration

end ClassLang
