import ClassLang.Proofs.Control.Labels
import ClassLang.Proofs.Safety.Bodies
import ClassLang.Proofs.Writes.Statements

/-!
# Functions and initializers are guarded

Between functions all variables that are visible are global ones. The frame of a function starts
with its result; the receiver and the parameters follow, then local variables. So in the statements
of a function variables do not share storage, and what holds of statements holds of its whole code.
An initializer writes the storage of its own variable, and spares the constants that are elsewhere.
-/

-- The instances of long steps are large terms.
set_option synthInstance.maxSize 1000

namespace ClassLang

open CompileM Lowering Bodies

/-! ## Between functions -/

/-- No function is being compiled, and all variables in scope are global ones that do not share
storage. -/
structure Guard.Rests (G : Guard) (c : Compilation) : Prop where
  registry : c.registry = G.registry
  outside : c.scopes.function? = none
  free : c.scopes.Free G.registry
  isGlobal : ∀ b, c.scopes.Binds b → ∃ k, b.address = .global k
  apart : ∀ b b', c.scopes.Binds b → c.scopes.Binds b' →
    b = b' ∨ (G.registry.storageOf b).Apart (G.registry.storageOf b')

namespace Guard.Rests

variable {G : Guard} {c c' : Compilation}

theorem endsBelow (h : G.Rests c) {b : Binding} (hb : c.scopes.Binds b) (n : Nat) :
    b.EndsBelow G.registry n := by
  intro k hk
  obtain ⟨j, hj⟩ := h.isGlobal b hb
  rw [hj] at hk
  cases hk

/-- The frame does not matter. -/
theorem watches (h : G.Rests c) : G.Watches c := by
  refine ⟨h.registry, h.free, fun b hb => h.endsBelow hb _, h.apart, fun f hf => ?_⟩
  rw [h.outside] at hf
  cases hf

theorem of_same (h : G.Rests c) (hregistry : c'.registry = c.registry)
    (hscopes : c'.scopes = c.scopes) : G.Rests c' :=
  ⟨hregistry.trans h.registry, hscopes ▸ h.outside, hscopes ▸ h.free, hscopes ▸ h.isGlobal,
    hscopes ▸ h.apart⟩

end Guard.Rests

section Guards

variable {G : Guard} {c : Compilation}

/-! ## Parameters and receivers -/

theorem guards_define {name : String} {d : Meaning} {span : Span} (hd : ∀ b, d ≠ .variable b)
    (hfree : d.Free G.registry) : Guards G Unit (define name d span) := fun c hc => .of_mute
  (fun _ => Mute.bind (fun _ => rfl) (fun _ => .bind (mute_conclude _) fun _ => mute_modify _) _)
  fun hy => by
    rw [yields_define] at hy
    obtain ⟨scopes, hdefine, rfl⟩ := hy
    exact ⟨⟨hc.registry, hc.free.define hfree hdefine, hc.spaced.define hd hdefine⟩,
      .define hdefine⟩

instance (hash : TypeHash) : Has (Guards G) (defineTemplates hash) := by
  have : ∀ (p : TemplateParam) (span : Span),
      Has (Guards G) (define p.name (.typeParam (.param p.name p.bound)) span) :=
    fun _ _ => ⟨guards_define (fun _ h => by cases h) trivial⟩
  unfold defineTemplates
  infer_instance

/-- Storage is taken for a variable, which gets its name at once. -/
theorem guards_variable {n : Nat} {name : String} {t : Ty} {isConst : Bool} {span : Span}
    (ht : G.registry.length t = n) : Guards G Unit (do
      let address ← alloc n
      updateScopes (·.defineVariable name t address isConst span)) := by
  intro c hc
  have halloc : Guarded G (alloc n) c := .of_confined hc .alloc
  refine halloc.bind fun a c₁ ha h₁ => ?_
  obtain ⟨rfl, rfl⟩ := yields_alloc.mp ha
  exact .define_variable (b := ⟨t, _, isConst, span⟩) h₁.registry h₁.free hc.spaced rfl
    (Nat.le_of_eq (congrArg (c.frame.top + ·) ht))

theorem guards_defineReceiver {owner : TypeHash} {span : Span} :
    Guards G Unit (defineReceiver owner span) := by
  unfold defineReceiver
  refine Reading.bind (Has.out) fun _ c hc => ?_
  refine Guarded.bind (Reading.reads (P := Guards G) pointerSize c hc) fun n c₁ hn h₁ => ?_
  obtain ⟨rfl, rfl⟩ := yields_pointerSize.mp hn
  exact guards_variable (by rw [hc.registry]; rfl) c₁ h₁

theorem guards_defineParams {names : List String} {ts : List Ty} {ps : List Param} :
    Guards G Unit (defineParams names ts ps) := by
  induction names, ts, ps using defineParams.induct with
  | case1 name names t ts p ps ih =>
    intro c hc
    have hassoc : defineParams (name :: names) (t :: ts) (p :: ps) = lengthOf t >>= fun n => (do
        let address ← alloc n
        updateScopes (·.defineVariable name t address false p.span)) >>= fun _ =>
          defineParams names ts ps := by
      simp only [defineParams, allocFor, bind_assoc]
    rw [hassoc]
    refine Guarded.bind (Reading.reads (P := Guards G) (lengthOf t) c hc) fun n c₁ hn h₁ => ?_
    obtain ⟨rfl, rfl⟩ := yields_lengthOf.mp hn
    exact (guards_variable (by rw [hc.registry]) c₁ h₁).bind fun _ _ _ h₂ => ih _ h₂
  | case2 names ts ps hnot =>
    unfold defineParams
    split
    · exact (hnot _ _ _ _ _ _ rfl rfl rfl).elim
    · exact (has_pure ()).out

/-! ## Functions -/

theorem guarded_bodyCode {s : Signature} {body : PendingBody} {block : List Stmt}
    (hc : G.Rests c) (hresult : G.registry.length s.result ≤ c.frame.top)
    (ht : G.Admits (Stmt.allTargets block)) : Guarded G (bodyCode s body block) c := by
  have hinside : G.Watches (inside (bodyScope s body.owner) c) := by
    refine ⟨hc.registry, hc.free.enter _, hc.watches.spaced.enter fun f hf => ?_⟩
    rw [result_bodyScope hf]
    refine ⟨hresult, fun b hb => ?_⟩
    obtain ⟨k, hk⟩ := hc.isGlobal b hb
    unfold Registry.storageOf
    rw [hk]
    trivial
  have hreceiver : ∀ owner, Has (Guards G) (defineReceiver owner body.decl.span) :=
    fun _ => ⟨guards_defineReceiver⟩
  have hparams : Has (Guards G) (defineParams s.paramNames s.params body.decl.params) :=
    ⟨guards_defineParams⟩
  have hargs : ∀ n, Has (Guards G) (emit (.args n)) :=
    fun _ => ⟨guards_of_confined fun _ _ => .silent fun _ => rfl⟩
  have hstmts : Has (Guards G) (stmts block) := ⟨guards_stmts block ht⟩
  unfold bodyCode
  refine .inScope hc.watches hinside (@Has.out (Guards G) _ _ ?_)
  dsimp only
  split <;> infer_instance

theorem guards_finishBody {s : Signature} {block : List Stmt} {span : Span} :
    Guards G Unit (finishBody s block span) := by
  have hret : Has (Guards G) (emit .ret) := ⟨guards_of_confined fun _ _ => .silent fun _ => rfl⟩
  unfold finishBody
  exact (inferInstance : Has (Guards G) _).out

/-- The code of a function heeds the guard. -/
theorem heeds_functionCode {s : Signature} {body : PendingBody} {block : List Stmt}
    (hc : G.Rests c) (ht : G.Admits (Stmt.allTargets block)) :
    ∀ e ∈ emissions (functionCode s body block) c, e.Heeds G := by
  have hbegin : G.Rests { c with frame := c.frame.beginFunction } := hc.of_same rfl rfl
  have hcode : Guarded G (do
      let _ ← allocFor s.result
      bodyCode s body block
      finishBody s block body.decl.span
      updateFrame (·.takeCode)) { c with frame := c.frame.beginFunction } := by
    refine (guards_allocFor s.result _ hbegin.watches).bind fun a c₁ ha h₁ => ?_
    obtain ⟨rfl, rfl⟩ := yields_allocFor.mp ha
    have hrests : G.Rests { c with
        frame := c.frame.beginFunction.grow (c.registry.length s.result) } := hc.of_same rfl rfl
    refine (guarded_bodyCode hrests ?_ ht).bind fun _ c₂ _ h₂ => ?_
    · rw [← hc.registry]
      exact Nat.le_add_left ..
    · refine (guards_finishBody c₂ h₂).bind fun _ c₃ _ h₃ => .of_mute (fun _ => rfl) fun hy => ?_
      obtain ⟨-, rfl⟩ := yields_updateFrame.mp hy
      exact ⟨h₃.mono rfl rfl (Nat.le_refl _), .of_same (Nat.le_refl _) rfl⟩
  intro e he
  refine hcode.emissions e ?_
  rwa [functionCode, emissions_of_yields (a := ()) (yields_modifyFrame.mpr rfl)] at he

/-! ## The entry section -/

/-- The storage of the variable may be written by its initializer. -/
def PendingGlobal.storage (r : Registry) (g : PendingGlobal) : Access := (g.address, r.length g.type)

theorem heeds_initializer {g : PendingGlobal} (hc : G.Rests c)
    (hg : ∀ x, G.Initializes x ↔ x = g.storage G.registry)
    (hapart : ∀ b, c.scopes.Binds b → G.registry.storageOf b = g.storage G.registry ∨
      (g.storage G.registry).Apart (G.registry.storageOf b))
    (ht : G.Admits (Expr.optionTargets g.init)) :
    ∀ e ∈ emissions (initializer g) c, e.Heeds G := by
  have hw := hc.watches
  have hoffers : (G.area c hw).Offers ⟨g.type, g.address⟩ := by
    intro _ b hb _ hother
    exact (hapart b hb).resolve_left fun hstorage => hother ((hg _).mpr hstorage)
  have hconfined : Confined (G.area c hw) (initializer g) fun _ => True := by
    refine .withTemps ?_
    cases hinit : g.init with
    | some e =>
      rw [hinit] at ht
      exact .into hoffers (ht.permits hw)
    | none => exact .clear hoffers
  exact (Guarded.of_confined hw hconfined).emissions

/-- The program is started with a frame above all that is there. -/
theorem guarded_start {s : Signature} (hc : G.Watches c) : Guarded G (do
    let _ ← allocFor s.result
    startProgram s c.frame.topAddress) c := by
  refine .of_confined hc (Confined.allocFor.bind fun _ _ => ?_ : Confined _ _ fun _ => True)
  have hbase : (G.area c hc).Free c.frame.topAddress := ⟨_, rfl, Nat.le_refl _⟩
  have hcall : Confined (G.area c hc) (do
      let region ← fromRegistry fun r => r.length s.result + r.lengths s.params
      emit (.callFn s.mangled c.frame.topAddress) region
      emit .stop) fun _ => True :=
    .fromRegistry_bind ((Confined.calls hbase rfl rfl).bind fun _ _ => .silent fun _ => rfl)
  unfold startProgram
  split
  · refine .pointerSize_bind (Confined.alloc.bind fun a ha => ?_)
    exact .writes_bind ha.allows rfl rfl hcall
  · exact hcall

end Guards

end ClassLang
