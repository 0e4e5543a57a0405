import ClassLang.Proofs.Dispatch.Tables
import ClassLang.Proofs.Lowering.Recorded
import ClassLang.Proofs.Registration.Listing
import ClassLang.Proofs.Registration.Retained

/-!
# Natives are visible where they are required

A native gets its name where a module requires it, in the scope of that module; no other step of
registration defines a name for a native. Since scopes are put back when modules are left, each
module still has the natives that it requires, and no others, when all is registered.
-/

-- The instances of long steps are large terms.
set_option synthInstance.maxSize 1000

namespace ClassLang

open CompileM Lowering

/-- A module with this path requires the native. -/
def Program.Requires (p : Program) (path : String) (n : Native) : Prop :=
  ∃ m ∈ p.modules, m.path = path ∧ ∃ name, .require name ∈ m.items ∧
    Native.ofName? name.name = some n

/-- The native has a name in the scope. -/
def Scope.Defines (x : Scope) (n : Native) : Prop :=
  ∃ name e, x.find? name = some e ∧ e.meaning = .native n

theorem Scope.all_admits_iff {A : Native → Prop} {x : Scope} :
    x.All (·.Admits A) ↔ ∀ n, x.Defines n → A n := by
  constructor
  · rintro h n ⟨name, e, he, hmeaning⟩
    have hadmits := h name e he
    rw [hmeaning] at hadmits
    exact hadmits
  · intro h name e he
    cases hmeaning : e.meaning with
    | native n => exact h n ⟨name, e, he, hmeaning⟩
    | _ => trivial

/-- A scope that gets no natives but these, for what opened it. -/
structure Scope.Gains (N : ScopeKind → Native → Prop) (x x' : Scope) : Prop where
  kind : x'.kind = x.kind
  natives : ∀ n, x'.Defines n → x.Defines n ∨ N x.kind n

namespace Scope.Gains

variable {N : ScopeKind → Native → Prop} {x x' : Scope} {name : String} {d : Meaning} {span : Span}

theorem refl (x : Scope) : x.Gains N x := ⟨rfl, fun _ hn => .inl hn⟩

theorem trans {x₁ : Scope} (h₁ : x.Gains N x₁) (h₂ : x₁.Gains N x') : x.Gains N x' where
  kind := h₂.kind.trans h₁.kind
  natives n hn := by
    rcases h₂.natives n hn with hn | hn
    · exact h₁.natives n hn
    · exact .inr (h₁.kind ▸ hn)

theorem define (hd : ∀ n, d = .native n → N x.kind n) (h : x.define name d span = .ok x') :
    x.Gains N x' where
  kind := kind_define h
  natives := by
    rintro n ⟨other, e, he, hmeaning⟩
    by_cases hname : name = other
    · subst hname
      obtain ⟨new, rfl, hnew⟩ := define_effect h
      have he : (x.entries.insert name new).find? name = some e := he
      rw [Table.find?_insert_self] at he
      injection he with he
      subst he
      rcases hnew with ⟨_, rfl⟩ | ⟨ids, more, first, _, _, rfl⟩
      · exact .inr (hd n hmeaning)
      · cases hmeaning
    · exact .inl ⟨other, e, (find?_define_of_ne h hname) ▸ he, hmeaning⟩

end Scope.Gains

instance (N : ScopeKind → Native → Prop) : Scope.Lasting (Scope.Gains N) where
  refl := .refl
  trans := .trans
  define h := .define (fun n hn => absurd hn (Meaning.Ordinary.ne_native n)) h

namespace Registration

variable {N : ScopeKind → Native → Prop} {c c' : Compilation}

/-! ## Requirements -/

/-- A native gets its name in the current scope. -/
theorem gains_requireNative {name : Ident}
    (hname : ∀ n, Native.ofName? name.name = some n → N c.scopes.current.kind n) :
    Retained (Scope.Gains N) c ((requireNative name).run.run c).2 := by
  unfold requireNative
  split
  · exact .refl c
  · rename_i n hn
    rw [run_of_yields (yields_get.mpr ⟨rfl, rfl⟩)]
    dsimp only
    split
    · refine .define fun hdefine => .define (fun m hm => ?_) hdefine
      injection hm with hm
      exact hm ▸ hname n hn
    · exact .refl c

/-- The natives that some items require may be defined in a scope of this kind. -/
def Allowed (N : ScopeKind → Native → Prop) (kind : ScopeKind) (items : List Item) : Prop :=
  ∀ name, .require name ∈ items → ∀ n, Native.ofName? name.name = some n → N kind n

theorem gains_declareItems {path : String} : ∀ {items : List Item} {c : Compilation},
    Allowed N c.scopes.current.kind items →
      Retained (Scope.Gains N) c ((declareItems path items).run.run c).2
  | [], c, _ => .refl c
  | item :: rest, c, hN => by
    have hrest : Allowed N c.scopes.current.kind rest :=
      fun name hmem => hN name (List.mem_cons_of_mem _ hmem)
    have hnext : ∀ {c₁}, Retained (Scope.Gains N) c c₁ → Allowed N c₁.scopes.current.kind rest :=
      fun h => by
        rw [h.current.kind]
        exact hrest
    cases item with
    | require name =>
      unfold declareItems
      refine .bind (gains_requireNative (hN name List.mem_cons_self)) fun _ c₁ _ h₁ => ?_
      exact gains_declareItems (hnext h₁)
    | classDecl d =>
      unfold declareItems
      refine .bind ((inferInstance : Has (Retains (Scope.Gains N)) (declareClass path d)).out c)
        fun _ c₁ _ h₁ => .bind (gains_declareItems (hnext h₁)) fun _ c₂ _ _ => .refl c₂
    | function d | global d =>
      rw [declareItems]
      · exact gains_declareItems hrest
      all_goals simp

/-- The scope of every module was opened for it. -/
def ForModules (c : Compilation) : Prop := ∀ path, (c.moduleScope path).kind = .module path

theorem ForModules.after (hc : ForModules c) (h : Retained (Scope.Gains N) c c') : ForModules c' :=
  fun path => (h.modules path).kind.trans (hc path)

theorem gains_declareModules : ∀ {ms : List Module} {c : Compilation}, ForModules c →
    (∀ m ∈ ms, Allowed N (.module m.path) m.items) →
      Retained (Scope.Gains N) c ((declareModules ms).run.run c).2
  | [], c, _, _ => .refl c
  | m :: ms, c, hc, hN => by
    obtain ⟨hm, hms⟩ := List.forall_mem_cons.mp hN
    unfold declareModules
    have hentered : Allowed N (c.entered m.path).scopes.current.kind m.items := by
      rw [show (c.entered m.path).scopes.current.kind = .module m.path from hc m.path]
      exact hm
    refine .bind (.inModule (gains_declareItems hentered)) fun _ c₁ _ h₁ => ?_
    exact .bind (gains_declareModules (hc.after h₁) hms) fun _ c₂ _ _ => .refl c₂

/-! ## The whole registration -/

/-- A module may define the natives that the program says it requires. -/
def moduleNatives (p : Program) (kind : ScopeKind) (n : Native) : Prop :=
  ∃ path, kind = .module path ∧ p.Requires path n

theorem gains_run {p : Program} {n : Counts} (hc : ForModules c) (h : Yields (run p) c n c') :
    Retained (Scope.Gains (moduleNatives p)) c c' := by
  obtain ⟨ps, ordered, methods, c₁, c₂, c₃, c₄, c₅, hsteps⟩ := Dispatch.yields_run h
  obtain ⟨b₁, b₂, b₃, b₄, hheaders⟩ := Dispatch.yields_runHeaders hsteps.headers
  obtain ⟨_, hregister⟩ := hsteps.signatures
  obtain ⟨_, hglobals⟩ := hsteps.globals
  have hdeclare : Retained (Scope.Gains (moduleNatives p)) c
      ((declareModules p.modules).run.run c).2 := gains_declareModules hc
    fun m hm name hname k hk => ⟨m.path, rfl, m, hm, rfl, name, hname, hk⟩
  rw [show (declareModules p.modules).run.run c = _ from hheaders.declared] at hdeclare
  have hlater : Retained (Scope.Gains (moduleNatives p)) b₁ c₁ :=
    ((Retains.after hheaders.resolved).trans (Retains.after hheaders.linearized)).trans
      ((Retains.after hheaders.checked).trans (Retains.after hheaders.inherited))
  have hmembers : Retained (Scope.Gains (moduleNatives p)) c₁ c₄ :=
    ((Retains.after hsteps.layout).trans (Retains.after hregister)).trans
      (Retains.after hsteps.tables)
  exact ((hdeclare.trans hlater).trans hmembers).trans
    ((Retains.after hsteps.names).trans (Retains.after hglobals))

end Registration

/-- No native is visible outside of modules, and in a module only those that it requires. -/
structure Compilation.Guarded (p : Program) (c : Compilation) : Prop where
  scopes : c.scopes.Admits fun _ => False
  modules : ∀ path, (c.moduleScope path).All (·.Admits (p.Requires path))

namespace Compilation.Guarded

variable {p : Program} {c c₁ c' : Compilation} {path : String}

/-- In a module there are the natives that it requires. -/
theorem entered (h : c.Guarded p) (path : String) :
    (c.entered path).scopes.Admits (p.Requires path) :=
  (h.scopes.imp fun _ => False.elim).push (h.modules path)

theorem of_same (h : c.Guarded p) (hscopes : c'.scopes = c.scopes)
    (hmodules : c'.moduleScopes = c.moduleScopes) : c'.Guarded p where
  scopes := hscopes ▸ h.scopes
  modules path := by
    unfold moduleScope
    rw [hmodules]
    exact h.modules path

/-- A module is left, in whose scope there are still no other natives. -/
theorem exited {α : Type} {o : Except CompileError α} {scope : Scope} (h : c.Guarded p)
    (hscopes : c₁.scopes = (c.entered path).scopes.replace scope)
    (hmodules : c₁.moduleScopes = c.moduleScopes) (hc₁ : c₁.scopes.Admits (p.Requires path)) :
    (exited path o c c₁).Guarded p where
  scopes := by
    show Scopes.Admits _ { c₁.scopes with inner := c₁.scopes.inner.tail }
    rw [hscopes]
    exact h.scopes
  modules other := by
    unfold moduleScope
    by_cases hother : path = other
    · subst hother
      rw [show (CompileM.exited _ _ c _).moduleScopes.find? path = some c₁.scopes.current from
        Table.find?_insert_self ..]
      refine hc₁ _ ?_
      rw [Scopes.chain_eq]
      exact List.mem_cons_self
    · have hkept := h.modules other
      unfold moduleScope at hkept
      rwa [show (CompileM.exited _ _ c _).moduleScopes.find? other = c.moduleScopes.find? other from
        (Table.find?_insert_of_ne _ hother _).trans (by rw [hmodules])]

end Compilation.Guarded

/-- At the start no natives are visible. -/
theorem Compilation.start_admits {o : Options} {c : Compilation} (h : Compilation.start o = .ok c) :
    (c.scopes.Admits fun _ => False) ∧ c.moduleScopes = .empty ∧
      ∀ x ∈ c.scopes.chain, x.kind = .global := by
  unfold Compilation.start at h
  simp only [except_bind_eq_ok, except_pure_eq_ok] at h
  obtain ⟨_, _, scopes, hscopes, rfl⟩ := h
  have hall : ∀ d ∈ Compilation.predefined, d.2.Admits fun _ => False := by
    refine List.forall_mem_cons.mpr ⟨trivial, fun d hd => ?_⟩
    obtain ⟨i, _, rfl⟩ := List.mem_map.mp hd
    trivial
  have hkinds : scopes.kinds = Scopes.initial.kinds :=
    except_foldlM_induction (fun s => s.kinds = Scopes.initial.kinds)
      (fun d _ s s' hs h => (Scopes.kinds_define h).trans hs) rfl hscopes
  refine ⟨except_foldlM_induction (fun s => s.Admits fun _ => False)
    (fun d hd s s' hs h => hs.define (hall d hd) h) (fun x hx => ?_) hscopes, rfl, fun x hx => ?_⟩
  · rw [List.mem_singleton.mp hx]
    exact Scope.all_opened _
  · have hkind : x.kind ∈ scopes.kinds := List.mem_map_of_mem hx
    rw [hkinds] at hkind
    exact List.mem_singleton.mp hkind

/-- When a program is registered, its modules have the natives that they require, and no others. -/
theorem Registration.guarded_of_run {o : Options} {p : Program} {c c' : Compilation} {n : Counts}
    (hstart : Compilation.start o = .ok c) (h : Yields (run p) c n c') : c'.Guarded p := by
  obtain ⟨hnone, hmodules, hglobal⟩ := Compilation.start_admits hstart
  have hscope : ∀ path, c.moduleScope path = .opened (.module path) := by
    intro path
    unfold Compilation.moduleScope
    rw [hmodules]
    rfl
  have hgains := gains_run (fun path => by rw [hscope]; rfl) h
  refine ⟨fun x' hx' => ?_, fun path => Scope.all_admits_iff.mpr fun k hk => ?_⟩
  · obtain ⟨x, hx, hgain⟩ := exists_right_of_forall₂ hgains.scopes.flip hx'
    refine Scope.all_admits_iff.mpr fun k hk => ?_
    rcases hgain.natives k hk with hold | ⟨path, hkind, _⟩
    · exact Scope.all_admits_iff.mp (hnone x hx) k hold
    · rw [hglobal x hx] at hkind
      cases hkind
  · have hgain := hgains.modules path
    rw [hscope] at hgain
    rcases hgain.natives k hk with ⟨_, _, hfind, _⟩ | ⟨path', hkind, hrequires⟩
    · cases hfind
    · injection hkind with hpath
      exact hpath ▸ hrequires

end ClassLang
