import ClassLang.Proofs.Registration.Traversal
import ClassLang.Proofs.Safety.Modules

/-!
# Who reports faults in how classes are built

Two walks look at how classes are built from each other. Linearizing them meets a class that
inherits from itself, or whose bases have no common order; laying them out meets a class that
contains itself by value. No other step of registration reports such a fault, so a program that is
refused for one was refused by one of the two walks.
-/

-- The instances of long steps are large terms.
set_option synthInstance.maxSize 1000

namespace ClassLang

open CompileM Lowering

variable {α β : Type} {c c' : Compilation} {e : CompileError}

namespace CompileM

/-! ## Failures -/

theorem Fails.unique {m : CompileM α} {e' : CompileError} {c₁ : Compilation} (h : Fails m c e c')
    (h' : Fails m c e' c₁) : e = e' ∧ c' = c₁ := by
  obtain ⟨he, hc⟩ := Prod.mk.inj (h.symm.trans h')
  injection he with he
  exact ⟨he, hc⟩

/-- The outcomes of a sequence. -/
theorem run_bind_eq {m : CompileM α} {f : α → CompileM β} {o : Except CompileError β} :
    (m >>= f).run.run c = (o, c') ↔ (∃ e, Fails m c e c' ∧ o = .error e) ∨
      ∃ a c₁, Yields m c a c₁ ∧ (f a).run.run c₁ = (o, c') := by
  cases o with
  | error e =>
    refine (fails_bind).trans (or_congr_left ?_)
    simp only [Except.error.injEq]
    exact ⟨fun h => ⟨e, h, rfl⟩, fun ⟨_, h, he⟩ => he ▸ h⟩
  | ok b =>
    simp only [reduceCtorEq, and_false, exists_false, false_or]
    exact yields_bind

@[simp]
theorem not_fails_modifyGet {f : Compilation → α × Compilation} :
    ¬Fails (modifyGet f : CompileM α) c e c' := fun h => nomatch h

@[simp]
theorem not_fails_attempt {m : CompileM α} : ¬Fails (attempt m) c e c' := by
  intro h
  injection h with h _
  cases h

@[simp]
theorem fails_askRegistry {f : Registry → Except CompileError α} :
    Fails (askRegistry f) c e c' ↔ f c.registry = .error e ∧ c' = c := by
  simp [askRegistry, fails_bind, and_assoc]

/-- A step that fails in a module changes nothing in the registry, and the module is noted unless
one was noted before. -/
theorem fails_inModule_fail {path : String} {cause : Cause} {span : Span}
    (h : Fails (inModule path (fail cause span) : CompileM Unit) c e c') :
    e = .located cause span ∧ c'.registry = c.registry ∧ c'.failedPath = c.failedPath.or (some path) := by
  have hbody : (fail cause span : CompileM Unit).run.run (c.entered path) =
      (.error (.located cause span), c.entered path) := rfl
  obtain ⟨he, hc⟩ := Prod.mk.inj (h.symm.trans (run_inModule hbody rfl))
  injection he with he
  exact ⟨he, hc ▸ rfl, hc ▸ rfl⟩

end CompileM

/-! ## Outcomes -/

theorem Registry.getClass_eq_error {r : Registry} {h : TypeHash} {e : CompileError} :
    r.getClass h = .error e ↔ r.class? h = none ∧ e = .internal (.unregisteredClass h) := by
  unfold getClass
  cases r.class? h with
  | some c => simp
  | none => simp [eq_comm]

instance (r : Except InternalFault α) : Harmless (r.mapError .internal) := by
  cases r with
  | ok a => exact inferInstanceAs (Harmless (.ok a))
  | error fault => exact inferInstanceAs (Harmless (.error (.internal fault)))

instance (s : Scopes) : Harmless s.pop := by
  rw [Scopes.pop_eq]
  split <;> infer_instance

instance (s : Scope) (name : String) (d : Meaning) (span : Span) : Harmless (s.define name d span) := by
  unfold Scope.define
  split <;> infer_instance

instance (s : Scopes) (name : String) (d : Meaning) (span : Span) :
    Harmless (s.defineGlobal name d span) := by
  unfold Scopes.defineGlobal
  infer_instance

instance (s : Scopes) (name : String) (d : Meaning) (span : Span) : Harmless (s.define name d span) := by
  unfold Scopes.define
  split <;> infer_instance

/-! ## Steps that report no such fault -/

/-- Whatever goes wrong in the step, it is no fault in how classes are built. -/
def Blameless (α : Type) (m : CompileM α) : Prop := ∀ c e c', Fails m c e c' → e.isStructural = false

theorem Blameless.fails {m : CompileM α} [hm : Has Blameless m] (h : Fails m c e c') :
    e.isStructural = false :=
  hm.out c e c' h

instance (f : Compilation → α × Compilation) : Has Blameless (modifyGet f : CompileM α) :=
  ⟨fun _ _ _ h => (not_fails_modifyGet h).elim⟩

instance (f : Compilation → Compilation) : Has Blameless (modify f : CompileM PUnit) :=
  ⟨fun _ _ _ h => nomatch h⟩

instance (s : Compilation) : Has Blameless (set s : CompileM PUnit) := ⟨fun _ _ _ h => nomatch h⟩

instance : Reading Blameless where
  reads _ hm _ _ _ h := hm.error h
  bind hm hg c e c' h := by
    rcases fails_bind.mp h with h | ⟨a, c₁, _, h⟩
    · exact hm c e c' h
    · exact hg a c₁ e c' h
  defer _ := Has.out

/-- An error of an attempt may be reported later. -/
theorem blameless_attempt_bind {m : CompileM α} {f : Except CompileError α → CompileM β}
    [hm : Has Blameless m]
    (hf : ∀ r, Harmless r → Has Blameless (f r)) : Has Blameless (attempt m >>= f) := by
  refine ⟨fun c e c' h => ?_⟩
  rcases fails_bind.mp h with h | ⟨r, c₁, hrun, h⟩
  · exact (not_fails_attempt h).elim
  · have hr : Harmless r := by
      refine ⟨fun {e'} he => hm.out c e' c₁ ?_⟩
      rw [he] at hrun
      exact yields_attempt.mp hrun
    exact (hf r hr).out c₁ e c' h

instance : Has Blameless pushBlock := by
  unfold pushBlock updateFrame
  infer_instance

instance (k : Checkpoint) : Has Blameless (restore k) := by
  unfold restore ofInternal modifyFrame
  infer_instance

theorem blameless_withTemps (body : CompileM α) [Has Blameless body] :
    Has Blameless (withTemps body) := by
  unfold withTemps
  exact .bind fun _ => blameless_attempt_bind fun _ _ => inferInstance

theorem blameless_probe (body : CompileM α) [Has Blameless body] : Has Blameless (probe body) := by
  unfold probe modifyFrame
  exact .bind fun _ => .bind fun _ => .bind fun _ => blameless_attempt_bind fun _ _ => inferInstance

theorem blameless_inScope (kind : ScopeKind) (body : CompileM α) [Has Blameless body] :
    Has Blameless (inScope kind body) := by
  unfold inScope modifyScopes
  exact .bind fun _ => .bind fun _ => .bind fun _ => blameless_attempt_bind fun _ _ => inferInstance

theorem blameless_inModule (path : String) (body : CompileM α) [Has Blameless body] :
    Has Blameless (inModule path body) := by
  unfold inModule modifyScopes noteFailure
  refine .bind fun _ => .bind fun _ => blameless_attempt_bind fun r _ => ?_
  dsimp only
  split <;> infer_instance

theorem blameless_withRegister (body : Register → CompileM α) [∀ reg, Has Blameless (body reg)] :
    Has Blameless (withRegister body) := by
  unfold withRegister ofInternal modifyFrame
  infer_instance

instance : Basic Blameless where
  emit _ _ _ _ _ _ _ h := nomatch h
  link _ _ _ _ _ _ h := nomatch h
  alloc _ _ _ _ h := nomatch h
  intern _ _ _ _ h := nomatch h
  warn _ _ _ _ _ h := nomatch h
  withRegister {_ body} _ hbody :=
    have := fun reg => Has.mk (hbody reg)
    (blameless_withRegister body).out
  withTemps {_ body} hbody :=
    have : Has Blameless body := ⟨hbody⟩
    (blameless_withTemps body).out
  probe {_ body} hbody :=
    have : Has Blameless body := ⟨hbody⟩
    (blameless_probe body).out

instance : Jumps Blameless where
  freshLabel _ _ _ _ h := nomatch h
  jump _ _ _ _ _ h := nomatch h

theorem blameless_updateScopes {f : Scopes → Except CompileError Scopes} (hf : ∀ s, Harmless (f s)) :
    Blameless Unit (updateScopes f) := by
  have : Has Blameless (updateScopes f) := by
    unfold updateScopes modifyScopes
    infer_instance
  exact Has.out

instance : EnlistsNatives Blameless where
  files _ _ := Has.out
  define _ _ _ _ := blameless_updateScopes fun _ => inferInstance
  defineGlobal _ _ _ _ := blameless_updateScopes fun _ => inferInstance
  defineNative _ _ _ := blameless_updateScopes fun _ => inferInstance
  allocGlobal _ _ _ _ h := nomatch h
  attempt _ _ _ _ h := (not_fails_attempt h).elim
  inScope {_ kind body} hbody :=
    have : Has Blameless body := ⟨hbody⟩
    (blameless_inScope kind body).out
  inModule {_ path body} hbody :=
    have : Has Blameless body := ⟨hbody⟩
    (blameless_inModule path body).out

instance : EnlistsBodies Blameless where
  queueBody _ _ _ _ _ h := nomatch h

instance : EnlistsGlobals Blameless where
  probeType _ := Has.out
  pushGlobal _ := Has.out

/-! ## The steps of registration -/

namespace Registration

/-- Errors in headers are held back until checks are no longer put off. -/
instance (ps : List PendingClass) : Has Blameless (resolveHeaders ps) := by
  unfold resolveHeaders
  exact .bind fun _ => blameless_attempt_bind fun _ _ => inferInstance

instance (p : PendingClass) (own : List OwnMethod) : Has Blameless (buildMethodTable p own) := by
  have htable : ∀ k, Has Blameless (do
      conclude (← updateRegistry fun r => Dispatch.methodTable r k own) : CompileM MethodTable) := by
    refine fun k => ⟨fun c e c' h => ?_⟩
    rcases fails_bind.mp h with h | ⟨o, c₁, hupdate, h⟩
    · exact (not_fails_modifyGet h).elim
    · obtain ⟨rfl, -⟩ := yields_updateRegistry.mp hupdate
      exact (Dispatch.harmless_methodTable c.registry k own).error (fails_conclude.mp h).1
  unfold buildMethodTable
  infer_instance

instance (methods : List (TypeHash × OwnMethod)) (ps : List PendingClass) :
    Has Blameless (buildMethodTables methods ps) := by
  unfold buildMethodTables
  infer_instance

/-- A fault in how classes are built is found when they are linearized or when they are laid out. -/
theorem fails_run_cases {p : Program} (h : Fails (run p) c e c') (he : e.isStructural = true) :
    ∃ ps c₁ c₂, Yields (declareModules p.modules) c ps c₁ ∧ Yields (resolveHeaders ps) c₁ () c₂ ∧
      (Fails (linearizeAll ps) c₂ e c' ∨ ∃ c₃, Fails (layOutAll ps) c₃ e c') := by
  have hclear : ∀ {α : Type} {m : CompileM α} {k k' : Compilation} [Has Blameless m],
    ¬Fails m k e k' := by
    intro α m k k' hm hfails
    rw [Blameless.fails hfails] at he
    cases he
  unfold run at h
  obtain ⟨ps, c₁, hdeclare, h⟩ := (fails_bind.mp h).resolve_left hclear
  obtain ⟨_, c₂, hheaders, h⟩ := (fails_bind.mp h).resolve_left hclear
  refine ⟨ps, c₁, c₂, hdeclare, hheaders, ?_⟩
  rcases fails_bind.mp h with h | ⟨_, _, _, h⟩
  · exact .inl h
  obtain ⟨_, _, _, h⟩ := (fails_bind.mp h).resolve_left hclear
  obtain ⟨ordered, _, _, h⟩ := (fails_bind.mp h).resolve_left hclear
  obtain ⟨_, c₃, _, h⟩ := (fails_bind.mp h).resolve_left hclear
  rcases fails_bind.mp h with h | ⟨_, _, _, h⟩
  · exact .inr ⟨c₃, h⟩
  · exact (hclear h).elim

end Registration

end ClassLang
