import ClassLang.Proofs.Registration.Complete
import ClassLang.Proofs.Registration.Listing
import ClassLang.Proofs.Registration.Queue
import ClassLang.Proofs.Registration.Retained
import ClassLang.Proofs.Safety.Bodies
import ClassLang.Proofs.Safety.Members
import ClassLang.Proofs.Safety.Sound

/-!
# Every compilation is safe

With valid options a compilation starts, and nothing that it does is an internal fault. Registration
first fills in the headers of classes, then their layouts, signatures and method tables; each of
these steps relies on the registry being closed, and keeps it so. When linkable names are given, the
registry is sound, and no body has been compiled. From there on the state is at rest between any two
functions.
-/

-- The instances of long steps are large terms.
set_option synthInstance.maxSize 1000

namespace ClassLang

open CompileM Lowering Registration

/-- All that the registry mentions is registered. -/
def Compilation.Closed (c : Compilation) : Prop := c.registry.Closed

namespace Compilation.Closed

instance : Contextual Compilation.Closed where
  congr {c c'} hsame hc := by
    have hregistry : c'.registry = c.registry := (congrArg Compilation.registry hsame :)
    unfold Closed
    rw [hregistry]
    exact hc

instance : Modular Compilation.Closed where
  enter _ hc := hc
  leave _ _ _ hc := hc

instance (name : Ident) : Preserves Compilation.Closed (requireNative name) where
  keeps {c c' _} hc h := by
    have hregistry : c'.registry = c.registry := h.keeps
    unfold Closed
    rw [hregistry]
    exact hc

instance (path : String) (d : ClassDecl) : Preserves Compilation.Closed (declareClass path d) where
  keeps {c c' _} hc h := by
    obtain ⟨_, _, hregistry⟩ := declareClass_effect h
    unfold Closed
    rw [hregistry]
    exact Registry.Closed.addClass hc (.declared ..)

end Compilation.Closed

/-! ## The start -/

namespace Compilation

variable {o : Options} {c : Compilation}

/-- With valid options a compilation starts. -/
theorem exists_start (ho : o.validate = .ok ()) : ∃ c, start o = .ok c := by
  obtain ⟨scopes, hscopes⟩ : ∃ scopes, initialScopes = .ok scopes := ⟨_, rfl⟩
  exact ⟨_, except_bind_eq_ok.mpr ⟨(), ho, except_bind_eq_ok.mpr ⟨scopes, hscopes, rfl⟩⟩⟩

theorem topmost_start (h : start o = .ok c) : c.Topmost := by
  unfold start at h
  simp only [except_bind_eq_ok, except_pure_eq_ok] at h
  obtain ⟨_, _, scopes, hscopes, rfl⟩ := h
  have hkinds : scopes.kinds = Scopes.initial.kinds :=
    except_foldlM_induction (fun s => s.kinds = Scopes.initial.kinds)
      (fun d _ s s' hs h => (Scopes.kinds_define h).trans hs) rfl hscopes
  refine ⟨fun x hx => ?_, fun path x hx => ?_⟩
  · have hkind : x.kind ∈ scopes.kinds := List.mem_map_of_mem hx
    rw [hkinds] at hkind
    rw [List.mem_singleton.mp hkind]
    rfl
  · cases hx

end Compilation

namespace CompileM

variable {p : Program} {o : Options} {c c₁ c₂ c₃ c₄ c₅ c' : Compilation} {V : Binding → Prop}
  {ps ordered : List PendingClass} {methods : List (TypeHash × OwnMethod)}

/-! ## Registration -/

theorem registering_declared {ms : List Module} (hd : Declared c.registry []) (hc : c.Outer V)
    (hclosed : c.registry.Closed) (h : Yields (declareModules ms) c ps c₁) :
    Registering V ps c₁ := by
  have houtside : c₁.Outside V c.deferring := h.preserves ⟨hc, rfl⟩
  refine ⟨houtside.1, h.preserves (I := Compilation.Closed) hclosed, fun q hq => ?_⟩
  have hdeclared := declareModules_declared hd h
  obtain ⟨k, hk, _⟩ := hdeclared.registered q (List.mem_append_right _ hq)
  exact ⟨k, hk⟩

theorem safe_runHeaders (hd : Declared c.registry []) (hc : c.Outer V)
    (hclosed : c.registry.Closed) :
    Safe Drafts (Dispatch.runHeaders p) c fun x c' => Registering V x.1 c' := by
  unfold Dispatch.runHeaders
  refine safe_declareModules.traced.bind fun classes c₁ _ ⟨hdeclare, _⟩ => ?_
  have h₁ := registering_declared hd hc hclosed hdeclare
  refine (safe_resolveHeaders h₁).bind fun _ c₂ _ h₂ => ?_
  refine (safe_linearizeAll h₂).bind fun _ c₃ _ h₃ => ?_
  refine (safe_checkDeferred h₃).bind fun _ c₄ _ h₄ => .fromRegistry_bind ?_
  have hmem : ∀ q ∈ byAncestry c₄.registry classes, q ∈ classes := fun q hq =>
    (byAncestry_perm c₄.registry classes).mem_iff.mp hq
  refine (Safe.forM (I := Registering V classes) (fun q hq c₅ _ h₅ => ?_) h₄).bind
    fun _ _ _ h₅ => .pure h₅
  exact safe_inheritArgs (hmem q hq) h₅

theorem declares_of_runHeaders (h : Yields (Dispatch.runHeaders p) c (ps, ordered) c') :
    c'.Declares p.modules := by
  obtain ⟨c₁, c₂, c₃, c₄, hsteps⟩ := Dispatch.yields_runHeaders h
  have hkept : Retained Scope.ClassesIn c₁ c' :=
    ((Retains.after hsteps.resolved).trans (Retains.after hsteps.linearized)).trans
      ((Retains.after hsteps.checked).trans (Retains.after hsteps.inherited))
  exact (declareModules_declares hsteps.declared).mono hkept

/-- After registration the state is at rest: no block is open, no register is in use, and what is
registered is sound. -/
theorem atRest_of_steps (hstart : Compilation.start o = .ok c)
    (h : Dispatch.TableSteps p ps ordered methods c c₁ c₂ c₃ c₄ c₅) (hdrafts : Drafts c c₅)
    (hclosed : c₃.registry.Closed) (houter : c₅.Outer fun _ => False) :
    AtRest c₅.registry c₅ := by
  obtain ⟨hframe, hliterals, hbodies, hglobals⟩ := Compilation.start_empty hstart
  have hidle := idle_start hstart
  have hfree := Options.registers_of_valid hidle.valid
  have hwaiting : c.Waiting := by
    intro id b hb
    rw [hbodies] at hb
    cases hb
  exact
    { registry := rfl
      sound := h.sound hstart hclosed
      closed := h.closed (Dispatch.declared_start hstart) hclosed
      blocks := by rw [hdrafts.blocks, hframe]; rfl
      registers := by rw [hdrafts.registers, hidle.free]; omega
      literals := hdrafts.literals (hliterals ▸ LiteralPool.inside_empty)
      outer := houter.mono (fun _ => False.elim) rfl rfl (.refl _)
      topmost := hdrafts.topmost (Compilation.topmost_start hstart)
      globals := by
        rw [globals_of_steps h, hglobals]
        exact List.forall_mem_nil _
      waiting := hdrafts.waiting hwaiting }

theorem safe_runTables (hstart : Compilation.start o = .ok c) :
    Safe Drafts (Dispatch.runTables p) c fun _ c' => AtRest c'.registry c' ∧
      c'.Outer (fun _ => False) ∧ c'.globals = [] := by
  have hd := Dispatch.declared_start hstart
  have hclosed : c.registry.Closed := by
    rw [Dispatch.start_registry hstart]
    exact .initial _
  unfold Dispatch.runTables
  -- Each step is safe where those before it have run, so their runs are kept as facts.
  refine (safe_runHeaders (V := fun _ => False) hd (outer_start hstart) hclosed).traced.bind ?_
  rintro ⟨ps, ordered⟩ c₁ hdrafts₁ ⟨hheaders, h₁⟩
  have hheaded := Dispatch.runHeaders_headed hd hheaders
  refine (safe_layOutAll ⟨h₁, hheaded.hierarchy⟩).traced.bind fun _ c₂ hdrafts₂ ⟨hlayout, h₂⟩ => ?_
  have hdeclares := (declares_of_runHeaders hheaders).mono (Retains.after hlayout)
  refine (safe_registerModules h₂ hdeclares).traced.bind ?_
  rintro ⟨methods, count⟩ c₃ hdrafts₃ ⟨hregister, h₃⟩
  have hmembers : Dispatch.MemberSteps p ps ordered methods c c₁ c₂ c₃ :=
    ⟨hheaders, hlayout, ⟨count, hregister⟩⟩
  have hordered : ∀ q ∈ ordered, c₃.registry.Has q.hash := fun q hq =>
    h₃.pending q (hheaded.perm.mem_iff.mp hq)
  refine (Safe.outer h₃.outer (safe_buildMethodTables h₃.hierarchy h₃.closed hordered
    (hmembers.progress hd) (hmembers.inOrder hd))).traced.bind ?_
  rintro _ c₄ hdrafts₄ ⟨htables, houter₄, _⟩
  have hkeeps := Dispatch.buildMethodTables_keeps htables
  have hclosed₄ := h₃.closed.tabled hkeeps.1 hkeeps.2 (hmembers.tables hd htables)
  refine (Safe.outer houter₄ (safe_assignLinkNames hclosed₄)).traced.bind ?_
  rintro _ c₅ hdrafts₅ ⟨hnames, houter₅, _⟩
  have hsteps : Dispatch.TableSteps p ps ordered methods c c₁ c₂ c₃ c₄ c₅ :=
    ⟨hmembers, htables, hnames⟩
  have hdrafts : Drafts c c₅ := Steady.trans hdrafts₁ (Steady.trans hdrafts₂
    (Steady.trans hdrafts₃ (Steady.trans hdrafts₄ hdrafts₅)))
  refine .pure ⟨atRest_of_steps hstart hsteps hdrafts h₃.closed houter₅, houter₅, ?_⟩
  rw [globals_of_steps hsteps, (Compilation.start_empty hstart).2.2.2]

theorem safe_run (hstart : Compilation.start o = .ok c) :
    Safe Drafts (Registration.run p) c fun _ c' => AtRest c'.registry c' := by
  rw [Dispatch.run_eq_runTables]
  refine (safe_runTables hstart).bind fun _ c₁ _ ⟨h₁, _⟩ => ?_
  exact (safe_registerAllGlobals h₁).bind fun _ c' _ h' => .pure (h'.registry ▸ h')

/-! ## Bodies -/

theorem safe_bodies {r : Registry} (h : AtRest r c) :
    Safe Drafts Bodies.run c fun _ _ => True := by
  have hids : ∀ id ∈ c.registry.functions.toList.map (·.id), id < r.functions.size := by
    intro id hid
    obtain ⟨s, hs, rfl⟩ := List.mem_map.mp hid
    obtain ⟨n, hn⟩ := List.mem_iff_getElem?.mp hs
    have hs : c.registry.function? n = some s := by
      rw [← hn]
      exact Array.getElem?_toList.symm
    rw [h.registry] at hs
    rw [h.closed.numbered hs]
    exact (Array.getElem?_eq_some_iff.mp hs).1
  unfold Bodies.run
  refine .get_bind ((safe_compileBodies h hids).bind fun count c₁ _ h₁ => ?_)
  exact (safe_compileEntry h₁).bind fun _ _ _ _ => .pure trivial

theorem safe_compileProgram (hstart : Compilation.start o = .ok c) :
    Safe Drafts (compileProgram p) c fun _ _ => True := by
  unfold compileProgram
  refine (safe_run hstart).bind fun _ c₁ _ h₁ => ?_
  exact (safe_bodies h₁).bind fun _ _ _ _ => .pure trivial

end CompileM

/-! ## Programs -/

variable {o : Options} {p : Program}

/-- The program compiles with the default options, and what is left satisfies the check. -/
def Program.compilesTo (p : Program) (check : Compilation → Bool) : Bool :=
  match Compilation.start {} with
  | .ok c => match (compileProgram p).run.run c with
    | (.ok (), c') => check c'
    | _ => false
  | .error _ => false

theorem Program.exists_of_compilesTo {check : Compilation → Bool} (h : p.compilesTo check = true) :
    ∃ c c', Compilation.start {} = .ok c ∧ CompileM.Yields (compileProgram p) c () c' ∧
      check c' = true := by
  unfold Program.compilesTo at h
  cases hstart : Compilation.start {} with
  | error e =>
    rw [hstart] at h
    cases h
  | ok c =>
    rw [hstart] at h
    dsimp only at h
    rcases hrun : (compileProgram p).run.run c with ⟨e | u, c'⟩
    · rw [hrun] at h
      cases h
    · rw [hrun] at h
      exact ⟨c, c', rfl, hrun, h⟩

/-- With valid options, a program is compiled or refused at a position: nothing that the compiler
does is an internal fault. -/
theorem compile_ok_or_located (ho : o.validate = .ok ()) :
    (∃ result, compile o p = .ok result) ∨
      ∃ path cause span, compile o p = .error ⟨path, .located cause span⟩ := by
  obtain ⟨c, hstart⟩ := Compilation.exists_start ho
  have hsafe := safe_compileProgram (p := p) hstart
  unfold compile
  rw [hstart]
  dsimp only
  rcases hrun : (compileProgram p).run.run c with ⟨e | u, c'⟩
  · have hlocated := (hsafe.fails hrun).1
    cases e with
    | located cause span => exact .inr ⟨_, cause, span, rfl⟩
    | internal fault => cases hlocated
  · exact .inl ⟨_, rfl⟩

theorem diamond_ok_or_located : ({} : Options).validate = .ok () ∧
    ((∃ result, compile {} Dispatch.diamond = .ok result) ∨
      ∃ path cause span, compile {} Dispatch.diamond = .error ⟨path, .located cause span⟩) :=
  ⟨rfl, compile_ok_or_located rfl⟩

end ClassLang
