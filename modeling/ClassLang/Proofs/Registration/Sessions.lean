import ClassLang.Compile
import ClassLang.Proofs.Control.Labels
import ClassLang.Proofs.Lowering.Restored
import ClassLang.Proofs.Registration.Overflow
import ClassLang.Proofs.Registration.Traversal

/-!
# Sessions

A compilation can be used step by step, and it goes on after a step that failed. Between two steps
no register is in use, whatever the steps were and whether they succeeded. So expressions and
statements give back what they take on every path: the only state in which they might lose a
register is one with exactly one left.
-/

-- The instances of long steps are large terms.
set_option synthInstance.maxSize 1000

namespace ClassLang

open CompileM Lowering

variable {α β : Type}

/-- What tells whether registers are in use. -/
def Compilation.pool (c : Compilation) : Options × List Register :=
  (c.options, c.frame.freeRegisters)

instance : IgnoresScopes Compilation.pool := ⟨fun _ _ => rfl⟩

/-- No register is in use after the step if none was before, also when it fails. -/
def Rests (α : Type) (m : CompileM α) : Prop := ∀ c, c.Idle → (m.run.run c).2.Idle

theorem idle_of_pool {c c' : Compilation} (h : c'.pool = c.pool) (hc : c.Idle) : c'.Idle := by
  obtain ⟨hoptions, hregisters⟩ := Prod.mk.inj h
  exact ⟨hoptions ▸ hc.valid, by rw [hregisters, hoptions, hc.free]⟩

instance : Indifferent Rests where
  reads m hm c hc := by
    rw [show (m.run.run c).2 = c from hm.same c]
    exact hc

instance : Reading Rests where
  reads m _ := Indifferent.reads m
  bind {_ _ m g} hm hg c hc := by
    have h := hm c hc
    rw [run_bind]
    rcases hrun : m.run.run c with ⟨e | a, c₁⟩ <;> rw [hrun] at h
    · exact h
    · exact hg a c₁ h
  defer _ _ hc := ⟨hc.valid, hc.free⟩

instance (priority := low) rests_of_keeps (m : CompileM α) [hm : Keeps Compilation.pool m] :
    Has Rests m := ⟨fun c hc => idle_of_pool (hm.eq c) hc⟩

/-- What is lowered gives its registers back. -/
instance (priority := low) rests_of_tidies (m : CompileM α) [hm : Has Tidies m] : Has Rests m where
  out c hc := idle_of_pool (Prod.ext (hm.out c).options ((hm.out c).balanced hc.spare).registers) hc

theorem rests_attempt (m : CompileM α) [hm : Has Rests m] : Has Rests (attempt m) :=
    ⟨fun c hc => hm.out c hc⟩

/-! ## Blocks, scopes and modules -/

instance : Keeps Compilation.pool pushBlock := keeps_modifyGet fun _ => rfl

instance (k : Checkpoint) : Keeps Compilation.pool (restore k) where
  eq c := by
    unfold restore
    rw [run_of_yields (yields_get.mpr ⟨rfl, rfl⟩), run_bind]
    unfold Frame.restore
    split
    · rename_i hframe
      split at hframe <;> cases hframe
      rfl
    · rename_i hframe
      split at hframe <;> cases hframe
      rfl

/-- A step in a scope runs between steps that do not touch the registers. -/
theorem rests_inScope (kind : ScopeKind) (body : CompileM α) [Has Rests body] :
    Has Rests (inScope kind body) := by
  have := rests_attempt body
  unfold inScope
  infer_instance

/-- What is done in a module, up to its end. -/
theorem rests_entered (path before : String) (n : Nat) (body : CompileM α) [Has Rests body] :
    Has Rests (do
      let result ← attempt body
      if let .error _ := result then noteFailure path
      modifyScopes (·.truncate n)
      let (scope, scopes) ← conclude (← get).scopes.pop
      modify fun s => { s with
        scopes := scopes
        moduleScopes := s.moduleScopes.insert path scope
        path := before }
      conclude result : CompileM α) := by
  have hleave : ∀ scope scopes, Keeps Compilation.pool (modify fun s => { s with
      scopes := scopes
      moduleScopes := s.moduleScopes.insert path scope
      path := before } : CompileM PUnit) :=
    fun _ _ => keeps_modify fun _ => rfl
  have := rests_attempt body
  have hnote : Keeps Compilation.pool (noteFailure path) := keeps_modify fun _ => rfl
  refine .bind fun result => ?_
  dsimp only
  split <;> infer_instance

/-- Entering the module changes the scopes and the path; everything after that is a step. -/
theorem rests_inModule (path : String) (body : CompileM α) [Has Rests body] :
    Has Rests (inModule path body) := by
  refine ⟨fun c hc => ?_⟩
  exact (rests_entered path c.path (c.scopes.depth + 1) body).out { c with
    scopes := c.scopes.push ((c.moduleScopes.find? path).getD (.opened (.module path)))
    path := path } ⟨hc.valid, hc.free⟩

instance : EnlistsNatives Rests where
  files _ hg c hc := idle_of_pool (congrArg (fun d => (d.options, d.frame.freeRegisters)) (hg c)) hc
  define name d _ span := (rests_of_keeps (CompileM.define name d span)).out
  defineNative name n span := (rests_of_keeps (CompileM.define name (.native n) span)).out
  defineGlobal name d _ span := (rests_of_keeps (updateScopes (·.defineGlobal name d span))).out
  allocGlobal _ _ hc := ⟨hc.valid, hc.free⟩
  attempt {_ m} hm :=
    have : Has Rests m := ⟨hm⟩
    (rests_attempt m).out
  inScope {_ kind body} hbody :=
    have : Has Rests body := ⟨hbody⟩
    (rests_inScope kind body).out
  inModule {_ path body} hbody :=
    have : Has Rests body := ⟨hbody⟩
    (rests_inModule path body).out

instance : EnlistsBodies Rests where
  queueBody _ _ _ hc := ⟨hc.valid, hc.free⟩

instance : EnlistsGlobals Rests where
  probeType e := (rests_of_tidies (probeType e)).out
  pushGlobal _ _ hc := ⟨hc.valid, hc.free⟩

/-! ## Bodies and programs -/

namespace Bodies

instance : Keeps Compilation.pool (modifyFrame (·.beginFunction)) := keeps_modify fun _ => rfl

instance : Keeps Compilation.pool (updateFrame (·.takeCode)) := keeps_modifyGet fun _ => rfl

instance rests_defineParams : ∀ (names : List String) (ts : List Ty) (ps : List Param),
    Has Rests (defineParams names ts ps)
  | name :: names, t :: ts, p :: ps => by
    have := rests_defineParams names ts ps
    unfold defineParams
    infer_instance
  | [], _, _ => by
    unfold defineParams
    infer_instance
  | _ :: _, [], _ => by
    unfold defineParams
    infer_instance
  | _ :: _, _ :: _, [] => by
    unfold defineParams
    infer_instance

instance (owner : TypeHash) (span : Span) : Has Rests (defineReceiver owner span) := by
  unfold defineReceiver
  infer_instance

instance (n : Nat) : Keeps Compilation.pool (emit (.args n)) := ⟨fun _ => rfl⟩

instance (s : Signature) (body : PendingBody) (block : List Stmt) :
    Has Rests (bodyCode s body block) := by
  unfold bodyCode
  dsimp only
  split <;> infer_instance

instance (s : Signature) (block : List Stmt) (span : Span) : Has Rests (finishBody s block span) := by
  unfold finishBody
  infer_instance

instance (id : Nat) (body : PendingBody) : Has Rests (compileBody id body) := by
  have hadd : ∀ f, Keeps Compilation.pool
      (modify fun st => { st with listing := st.listing.addFunction f } : CompileM PUnit) :=
    fun _ => keeps_modify fun _ => rfl
  unfold compileBody
  refine .bind fun s => ?_
  split <;> infer_instance

instance rests_compileBodies : ∀ ids : List Nat, Has Rests (compileBodies ids)
  | [] => by
    unfold compileBodies
    infer_instance
  | id :: rest => by
    have := rests_compileBodies rest
    unfold compileBodies
    refine .bind fun c => ?_
    split <;> infer_instance

instance (g : PendingGlobal) : Has Rests (initGlobal g) := by
  unfold initGlobal
  split <;> infer_instance

instance : Has Rests compileEntry := by
  have hentry : ∀ code, Keeps Compilation.pool
      (modify fun st => { st with listing := { st.listing with entry := code } } : CompileM PUnit) :=
    fun _ => keeps_modify fun _ => rfl
  unfold compileEntry
  refine .bind fun _ => .bind fun _ => .bind fun _ => .bind fun _ => .bind fun _ => ?_
  dsimp only
  infer_instance

instance : Has Rests run := by
  unfold run
  infer_instance

end Bodies

instance (p : Program) : Has Rests (compileProgram p) := by
  unfold compileProgram
  infer_instance

/-- A compilation that is used step by step. -/
inductive Session : Compilation → Prop
  | start {o : Options} {c : Compilation} : Compilation.start o = .ok c → Session c
  | expr {c : Compilation} (e : Expr) : Session c → Session ((expr e none).run.run c).2
  | stmt {c : Compilation} (s : Stmt) : Session c → Session ((stmt s).run.run c).2
  | register {c : Compilation} (p : Program) : Session c → Session ((Registration.run p).run.run c).2
  | bodies {c : Compilation} : Session c → Session (Bodies.run.run.run c).2
  | program {c : Compilation} (p : Program) : Session c → Session ((compileProgram p).run.run c).2

/-- Between the steps of a session no register is in use. -/
theorem Session.idle {c : Compilation} (h : Session c) : c.Idle := by
  induction h with
  | start h => exact idle_start h
  | expr e _ ih => exact (inferInstance : Has Rests (Lowering.expr e none)).out _ ih
  | stmt s _ ih => exact (inferInstance : Has Rests (Lowering.stmt s)).out _ ih
  | register p _ ih => exact (inferInstance : Has Rests (Registration.run p)).out _ ih
  | bodies _ ih => exact (inferInstance : Has Rests Bodies.run).out _ ih
  | program p _ ih => exact (inferInstance : Has Rests (compileProgram p)).out _ ih

namespace Lowering

/-- Expressions, probes and statements give back what they take, whether they succeed or fail:
blocks, registers, muting and scopes. That holds in all states of a session, and in all others but
those in which exactly one register is free. An expression never lowers the top of the frame, and a
probe leaves no trace. A statement keeps the scopes and the top of the frame, too, but a declaration
that succeeds adds its variable to the innermost scope and takes the storage of its type. The top is
what 32 bits keep of it, as long as it has not outgrown them. -/
theorem restores_on_every_path :
    (∀ {c : Compilation}, Session c → c.frame.freeRegisters.length ≠ 1) ∧
    ∀ {c c' : Compilation}, c.frame.freeRegisters.length ≠ 1 →
      (∀ e dest o, (expr e dest).run.run c = (o, c') →
        Balanced c c' ∧ c'.scopes = c.scopes ∧
          (c'.frame.top < UInt32.size → wrap c.frame.top ≤ wrap c'.frame.top)) ∧
      (∀ e o, (probeType e).run.run c = (o, c') →
        Balanced c c' ∧ c'.scopes = c.scopes ∧ c'.frame.top = c.frame.top ∧
          c'.frame.code = c.frame.code ∧ c'.warnings = c.warnings) ∧
      (∀ s o, Stmt.ElseIsBlock s → (stmt s).run.run c = (o, c') →
        Balanced c c' ∧ c'.scopes.depth = c.scopes.depth ∧
          (o.isOk = false → c'.scopes = c.scopes) ∧
          (o.isOk = true → (∀ d, s ≠ .declare d) →
            c'.scopes = c.scopes ∧ c'.frame.top = c.frame.top) ∧
          (o.isOk = true → ∀ d, s = .declare d → ∃ t, AddsVariable d t c c' ∧
            (c'.frame.top < UInt32.size →
              wrap c'.frame.top = wrap c.frame.top + wrap (c.registry.length t)))) := by
  refine ⟨fun hc => hc.idle.spare, fun {c c'} hc => ⟨fun e dest o hrun => ?_, fun e o hrun => ?_,
    fun s o helse hrun => ?_⟩⟩
  · have htidied := tidied_run hrun
    refine ⟨htidied.balanced hc, scopes_of_run hrun, fun htop => ?_⟩
    rw [wrap_of_lt htop, wrap_of_lt (Nat.lt_of_le_of_lt htidied.top htop)]
    exact htidied.top
  · obtain ⟨htop, hcode, hwarnings⟩ := probeType_restores hrun
    exact ⟨(tidied_run hrun).balanced hc, scopes_of_run hrun, htop, hcode, hwarnings⟩
  · have htidied := tidied_run hrun
    obtain ⟨scope, hscope⟩ := htidied.scopes
    obtain ⟨hfailed, hother, hdeclare⟩ := stmt_leaves helse hrun
    refine ⟨htidied.balanced hc, hscope ▸ Scopes.depth_replace .., hfailed, hother,
      fun hok d hd => ?_⟩
    obtain ⟨t, hadds⟩ := hdeclare hok d hd
    refine ⟨t, hadds, fun htop => ?_⟩
    have hsum := hadds.top ▸ htop
    rw [wrap_of_lt htop, hadds.top, wrap_of_lt (Nat.lt_of_le_of_lt (Nat.le_add_right ..) hsum),
      wrap_of_lt (Nat.lt_of_le_of_lt (Nat.le_add_left ..) hsum)]

/-- `var x: int = 1` -/
def smallDeclaration : VarDecl :=
  ⟨⟨"x", .unknown⟩, some (.named "int" [] .unknown), some (.literal (.int 1) .unknown), false,
    .unknown⟩

/-- At the start of a compilation a declaration adds its variable and leaves the rest. -/
theorem smallDeclaration_restores : ∃ c c' t, Compilation.start {} = .ok c ∧
    (stmt (.declare smallDeclaration)).run.run c = (.ok (), c') ∧ Balanced c c' ∧
    AddsVariable smallDeclaration t c c' ∧
    wrap c'.frame.top = wrap c.frame.top + wrap (c.registry.length t) := by
  have hok : ((Compilation.start {}).toOption.any fun c =>
      ((stmt (.declare smallDeclaration)).run.run c).1.isOk &&
        decide (((stmt (.declare smallDeclaration)).run.run c).2.frame.top < UInt32.size)) = true := by
    decide +kernel
  obtain ⟨c, hstart, hok⟩ := exists_ok_of_any hok
  obtain ⟨hok, htop⟩ := (Bool.and_eq_true _ _).mp hok
  have hrun := yields_of_isOk hok
  have helse : Stmt.ElseIsBlock (.declare smallDeclaration) := .other fun _ _ _ _ h => by cases h
  have hspare := restores_on_every_path.1 (.start hstart)
  obtain ⟨hbalanced, -, -, -, hdeclares⟩ := (restores_on_every_path.2 hspare).2.2 _ _ helse hrun
  obtain ⟨t, hadds, hkept⟩ := hdeclares rfl _ rfl
  exact ⟨c, _, t, hstart, hrun, hbalanced, hadds, hkept (of_decide_eq_true htop)⟩

/-- `class A { f() {} }`, `var p: A*`, and `make(): Giant {}`. -/
def stepwiseProgram : Program :=
  ⟨[⟨"m", Registration.giants ++ [
    Dispatch.sampleClass "A" false [] [Dispatch.sampleMethod "f" false none],
    .global ⟨⟨"p", .unknown⟩, some (.pointer (.named "A" [] .unknown) .unknown), none, false,
      .unknown⟩,
    .function (Dispatch.sampleMethod "make" false (some (.named "Giant" [] .unknown)))]⟩]⟩

/-- `var name: Giant` -/
def giantLocal (name : String) : VarDecl :=
  ⟨⟨name, .unknown⟩, some (.named "Giant" [] .unknown), none, false, .unknown⟩

/-- `p.f()` -/
def methodCall : Expr :=
  .call (.member (.name "p" .unknown) ⟨"f", .unknown⟩ .unknown) [] .unknown

/-- `make()` -/
def giantCall : Expr := .call (.name "make" .unknown) [] .unknown

/-- The state of a session in which the program was registered and `a` was declared. -/
def stepwise (c : Compilation) : Compilation :=
  ((stmt (.declare (giantLocal "a"))).run.run ((Registration.run stepwiseProgram).run.run c).2).2

theorem session_stepwise {o : Options} {c : Compilation} (h : Compilation.start o = .ok c) :
    Session (stepwise c) := .stmt _ (.register _ (.start h))

/-- With exactly one register left, a call of a method fails for want of a second one and keeps the
first. On top of a local that takes more than half of what 32 bits count, an expression that takes
as much lowers the top that is kept, and so does a second such local. -/
theorem restores_on_every_path_fails_stepwise : ∃ c, Session c ∧
    (∃ c₁ c₂ e, c₁.options.validate = .ok () ∧ c₁.frame.freeRegisters = [⟨0⟩] ∧
      Fails (expr methodCall none) c₁ e c₂ ∧ c₂.frame.freeRegisters = []) ∧
    (∃ c₁ s, Yields (expr giantCall none) c s c₁ ∧ wrap c₁.frame.top < wrap c.frame.top) ∧
    ∃ c₁ t, Yields (stmt (.declare (giantLocal "b"))) c () c₁ ∧
      AddsVariable (giantLocal "b") t c c₁ ∧ wrap c₁.frame.top < wrap c.frame.top := by
  have hok : ((Compilation.start {}).toOption.any fun c =>
      !((expr methodCall none).run.run { stepwise c with frame.freeRegisters := [⟨0⟩] }).1.isOk &&
      decide (((expr methodCall none).run.run { stepwise c with
        frame.freeRegisters := [⟨0⟩] }).2.frame.freeRegisters = []) &&
      ((expr giantCall none).run.run (stepwise c)).1.isOk &&
      decide (wrap ((expr giantCall none).run.run (stepwise c)).2.frame.top <
        wrap (stepwise c).frame.top) &&
      ((stmt (.declare (giantLocal "b"))).run.run (stepwise c)).1.isOk &&
      decide (wrap ((stmt (.declare (giantLocal "b"))).run.run (stepwise c)).2.frame.top <
        wrap (stepwise c).frame.top)) = true := by
    decide +kernel
  obtain ⟨c, hstart, hok⟩ := exists_ok_of_any hok
  have hsession := session_stepwise hstart
  simp only [Bool.and_eq_true, Bool.not_eq_true', decide_eq_true_eq] at hok
  obtain ⟨⟨⟨⟨⟨hfails, hleaks⟩, hcall⟩, hlower⟩, hdeclare⟩, hlower'⟩ := hok
  obtain ⟨e, hfails⟩ := exists_fails_of_isOk hfails
  obtain ⟨s, hcall⟩ := exists_yields_of_isOk hcall
  have hdeclare := yields_of_isOk hdeclare
  have helse : Stmt.ElseIsBlock (.declare (giantLocal "b")) := .other fun _ _ _ _ h => by cases h
  obtain ⟨-, -, hdeclares⟩ := stmt_leaves helse hdeclare
  obtain ⟨t, hadds⟩ := hdeclares rfl _ rfl
  refine ⟨stepwise c, hsession, ?_, ⟨_, s, hcall, hlower⟩, _, t, hdeclare, hadds, hlower'⟩
  exact ⟨{ stepwise c with frame.freeRegisters := [⟨0⟩] }, _, e, hsession.idle.valid, rfl, hfails,
    hleaks⟩

end Lowering

end ClassLang
