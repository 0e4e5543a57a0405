import ClassLang.Compile
import ClassLang.Proofs.Safety.Globals

/-!
# Compiling bodies and the entry section is safe

A body is compiled into an empty frame, in the scope of its module: the result lies at the start of
the frame, behind it the receiver and the parameters. So when the statements are reached, all that
is visible can be used, and the function that they are in has its result in the frame. When the body
is done, the state is at rest again. The entry section initializes globals and calls a function that
is registered.
-/

namespace ClassLang

open CompileM Lowering Bodies

namespace CompileM

variable {α : Type} {r : Registry} {c c' : Compilation}

/-! ## Parameters and receivers -/

theorem Marks.proceeds (h : Marks c c') : Proceeds c c' := by
  obtain ⟨scope, checks, hkind, rfl⟩ := h
  exact
    { scopes := ⟨scope, hkind, rfl⟩
      context := rfl
      extent := .refl _
      literals := id
      blocks := rfl
      registers := rfl }

/-- A step that makes template parameters visible leaves everything else as it was. -/
theorem furnished_marks (hc : Furnished r c) (hm : Marks c c') (hp : Parametrized r c c') :
    Furnished r c' := by
  have hkinds := hm.proceeds.kinds
  obtain ⟨scope, checks, _, rfl⟩ := hm
  refine ⟨hc.registry, hc.sound, hc.registers, hc.literals, fun name e he => ?_, fun f hf => ?_⟩
  · rcases hp name e he with he | ⟨t, hmeaning, ht⟩
    · exact hc.names name e he
    · exact ⟨by rw [hmeaning]; exact ht, fun b hb => by rw [hmeaning] at hb; cases hb⟩
  · exact hc.result f (Scopes.function?_congr hkinds ▸ hf)

theorem furnished_extends (hc : Furnished r c) (hx : Extends c c') : Furnished r c' where
  registry := hx.registry.trans hc.registry
  sound := hc.sound
  registers := hx.registers ▸ hc.registers
  literals := hx.literals hc.literals
  names name e he := (hc.names name e (hx.scopes ▸ he)).mono hx.extent
  result f hf := (hc.result f (hx.scopes ▸ hf)).mono hx.extent

theorem safe_defineReceiver {owner : TypeHash} {span : Span} (hc : Furnished r c)
    (hclosed : r.Closed) (howner : r.Has owner) :
    Safe Proceeds (defineReceiver owner span) c fun _ c' => Ready r c' := by
  have htemplates : Safe Proceeds (defineTemplates owner) c fun _ c' => Furnished r c' :=
    ((safe_defineTemplates hc.registry hclosed howner).mono fun _ _ hm h =>
      furnished_marks hc hm h.2).widen fun _ => Marks.proceeds
  unfold defineReceiver
  refine htemplates.bind fun _ c₁ _ h₁ => .pointerSize_bind ?_
  refine (safe_alloc.mono fun _ _ hx h => And.intro hx h).widen (fun _ => Extends.proceeds)
    |>.bind ?_
  rintro _ c₂ - ⟨hx, rfl, htop⟩
  have h₂ := furnished_extends h₁ hx
  have hheld : Held r c₂.extent ⟨.pointer (.classRef owner), .frame c₁.frame.top⟩ := by
    refine ⟨Nat.le_of_eq ?_, Registry.knows_pointer.mpr (Registry.knows_classRef.mpr howner)⟩
    show c₁.frame.top + r.pointerSize = c₂.frame.top
    rw [htop, h₁.registry]
  refine safe_define fun scopes hdefine => ⟨proceeds_define hdefine, ?_⟩
  have hnew : ∀ more, Meaning.variable ⟨.pointer (.classRef owner), .frame c₁.frame.top, true, span⟩ ≠
      .functions more := fun _ h => by cases h
  refine (furnished_define h₂ (usable_variable hheld) hnew hdefine rfl).ready fun _ b span' he => ?_
  have he : scopes.find? "this" = some ⟨.variable b, span'⟩ := he
  rw [Scopes.find?_define hdefine hnew, if_pos rfl] at he
  injection he with he
  injection he with he
  injection he with he
  exact ⟨c₁.frame.top, by rw [← he]⟩

theorem safe_defineParams : ∀ {names : List String} {ts : List Ty} {ps : List Param}
    {c : Compilation}, Ready r c → r.KnowsAll ts →
      Safe Proceeds (defineParams names ts ps) c fun _ c' => Ready r c'
  | name :: names, t :: ts, p :: ps, c, hc, hts => by
    obtain ⟨ht, hts⟩ := Registry.knowsAll_cons.mp hts
    unfold defineParams
    refine (safe_allocFor.mono fun _ _ hx h => And.intro hx h).widen (fun _ => Extends.proceeds)
      |>.bind ?_
    rintro _ c₁ - ⟨hx, rfl, htop⟩
    have hheld : Held r c₁.extent ⟨t, .frame c.frame.top⟩ := by
      refine ⟨Nat.le_of_eq ?_, ht⟩
      show c.frame.top + r.length t = c₁.frame.top
      rw [htop, hc.registry]
    exact (safe_defineVariable (b := ⟨t, .frame c.frame.top, false, p.span⟩) (hc.after hx) hheld
      rfl).bind fun _ _ _ h₂ => safe_defineParams h₂ hts
  | [], _, _, c, hc, _ | _ :: _, [], _, c, hc, _ | _ :: _, _ :: _, [], c, hc, _ => by
    unfold defineParams
    exact .pure hc

/-! ## Bodies -/

/-- The code of a function: its result, receiver and parameters, its statements and its end. -/
def functionCode (s : Signature) (body : PendingBody) (block : List Stmt) :
    CompileM (Array Instr) := do
  modifyFrame (·.beginFunction)
  let _ ← allocFor s.result
  bodyCode s body block
  finishBody s block body.decl.span
  updateFrame (·.takeCode)

theorem result_bodyScope {s : Signature} {owner : Option TypeHash} {scopes : Scopes}
    {f : FunctionContext} (h : (scopes.enter (bodyScope s owner)).function? = some f) :
    f.result = s.result := by
  cases owner with
  | none | some _ =>
    injection h with h
    rw [← h]

theorem safe_bodyCode {s : Signature} {body : PendingBody} {block : List Stmt} (hc : AtRest r c)
    (hs : s.Known r) (hbody : ∀ h, body.owner = some h → r.Has h)
    (hresult : Held r c.extent ⟨s.result, .frame 0⟩) :
    Safe Extends (bodyCode s body block) c fun _ _ => True := by
  have hinner : Furnished r (inside (bodyScope s body.owner) c) := by
    refine ⟨hc.registry, hc.sound, hc.registers, hc.literals, hc.ready.names, fun f hf => ?_⟩
    rw [result_bodyScope hf]
    exact hresult
  have hrest : ∀ {c₁}, Ready r c₁ → Safe Proceeds (do
      defineParams s.paramNames s.params body.decl.params
      emit (.args (← get).frame.top)
      stmts block) c₁ fun _ c' => Ready r c' := by
    intro c₁ h₁
    refine (safe_defineParams h₁ hs.params).bind fun _ c₂ _ h₂ => .get_bind ?_
    refine ((safe_emit (List.forall_mem_nil _) (List.forall_mem_nil _) (by trivial)).stays h₂).bind
      fun _ c₃ _ h₃ => ?_
    exact safe_stmts block h₃.1
  unfold bodyCode
  refine safe_inScope (?_ : Safe Proceeds _ _ fun _ c' => Ready r c') (fun _ h => Steady.depth h)
    fun _ _ h _ => ⟨extends_left h, trivial⟩
  cases ho : body.owner with
  | some h =>
    exact (safe_defineReceiver (ho ▸ hinner) hc.closed (hbody h ho)).bind fun _ _ _ h₁ => hrest h₁
  | none =>
    refine hrest ((ho ▸ hinner).ready fun hmethod => ?_)
    cases hmethod

theorem safe_finishBody {s : Signature} {block : List Stmt} {span : Span} :
    Safe Extends (finishBody s block span) c fun _ _ => True := by
  unfold finishBody
  split
  · refine .get_bind ?_
    split
    · exact (safe_emit (List.forall_mem_nil _) (List.forall_mem_nil _) (by trivial)).weaken
    · exact .pure trivial
  · split
    · exact .fail
    · exact .pure trivial

/-- Taking the code of a function away leaves all else as it was. -/
theorem safe_takeCode : Safe Extends (updateFrame (·.takeCode)) c fun _ _ => True :=
  safe_modifyGet ⟨.of_same rfl rfl rfl rfl, rfl, rfl⟩ trivial

/-- Between functions no block is open, so none is lost when a function starts. -/
theorem safe_beginFunction (hc : AtRest r c) :
    Safe Drafts (modifyFrame (·.beginFunction)) c fun _ c' =>
      AtRest r c' ∧ c'.frame.top = 0 ∧ c'.context = c.context := by
  have hdrafts : Drafts c { c with frame := c.frame.beginFunction } :=
    ⟨⟨Eq.symm hc.blocks, rfl⟩, rfl, Nat.le_refl _, id, fun _ => id, id, fun h => h.of_same rfl rfl⟩
  exact safe_modify hdrafts ⟨hc.of_context hdrafts rfl, rfl, rfl⟩

/-- A function is compiled in its module, and nothing is left of it but its code. -/
theorem safe_functionCode {s : Signature} {body : PendingBody} {block : List Stmt}
    (hc : AtRest r c) (hs : s.Known r) (hbody : body.Compilable r) :
    Safe Drafts (functionCode s body block) c fun _ c' => AtRest r c' ∧ c'.context = c.context := by
  unfold functionCode
  refine (safe_beginFunction hc).bind fun _ c₁ _ ⟨h₁, htop₁, hcontext₁⟩ => ?_
  refine safe_allocFor.extended.bind fun _ c₂ _ ⟨hx₂, _, htop₂⟩ => ?_
  have h₂ := h₁.of_extends hx₂
  have hresult : Held r c₂.extent ⟨s.result, .frame 0⟩ := by
    refine ⟨Nat.le_of_eq ?_, hs.result⟩
    show 0 + r.length s.result = c₂.frame.top
    rw [htop₂, htop₁, h₁.registry]
  refine (safe_bodyCode h₂ hs hbody.owner hresult).extended.bind fun _ c₃ _ ⟨hx₃, _⟩ => ?_
  refine safe_finishBody.extended.bind fun _ c₄ _ ⟨hx₄, _⟩ => ?_
  refine safe_takeCode.extended.mono fun _ c₅ _ ⟨hx₅, _⟩ => ?_
  have hx := Steady.trans hx₃ (Steady.trans hx₄ hx₅)
  exact ⟨h₂.of_extends hx, hx.context.trans (hx₂.context.trans hcontext₁)⟩

theorem safe_compileBody {id : Nat} {body : PendingBody} (hc : AtRest r c)
    (hid : id < r.functions.size) (hbody : body.Compilable r) :
    Safe Drafts (compileBody id body) c fun _ c' => AtRest r c' := by
  obtain ⟨s, hs, hfind⟩ := Registry.exists_getFunction hid
  obtain ⟨block, hblock⟩ := Option.isSome_iff_exists.mp hbody.body
  unfold compileBody
  refine .askRegistry_bind (hc.registry ▸ hs) ?_
  rw [hblock]
  have hcode : Safe Drafts (inModule body.path (functionCode s body block)) c
      fun _ c' => AtRest r c' := safe_inModule_atRest hc fun hentered =>
    (safe_functionCode hentered (hc.closed.functions hfind) hbody).mono fun _ _ _ h => h.1
  refine hcode.bind fun _ c₁ _ h₁ => ?_
  exact safe_modify (.of_same rfl rfl rfl rfl rfl fun _ hh => hh) (h₁.with_listing _)

theorem safe_compileBodies : ∀ {ids : List Nat} {c : Compilation}, AtRest r c →
    (∀ id ∈ ids, id < r.functions.size) →
      Safe Drafts (compileBodies ids) c fun _ c' => AtRest r c'
  | [], c, hc, _ => by
    unfold compileBodies
    exact .pure hc
  | id :: rest, c, hc, hids => by
    obtain ⟨hid, hrest⟩ := List.forall_mem_cons.mp hids
    unfold compileBodies
    refine .get_bind ?_
    cases hfind : c.bodies.find? id with
    | none => exact safe_compileBodies hc hrest
    | some body =>
      have hbody := hc.registry ▸ hc.waiting id body hfind
      refine (safe_compileBody hc hid hbody).bind fun _ c₁ _ h₁ => ?_
      exact (safe_compileBodies h₁ hrest).bind fun _ _ _ h₂ => .pure h₂

/-- What compiling a function does: its code is compiled in its module, which is left as it was
entered, and becomes one more section. -/
theorem compileBody_spec {id : Nat} {body : PendingBody} {u : Unit} (hc : AtRest r c)
    (hbody : c.bodies.find? id = some body) (h : Yields (compileBody id body) c u c') :
    ∃ s block code c₁, r.getFunction id = .ok s ∧ body.decl.body = some block ∧
      emissions (compileBody id body) c =
        emissions (functionCode s body block) (c.entered body.path) ∧
      Safe Drafts (functionCode s body block) (c.entered body.path) (fun _ c' =>
        AtRest r c' ∧ c'.context = (c.entered body.path).context) ∧
      Yields (functionCode s body block) (c.entered body.path) code c₁ ∧
      c' = { exited body.path (.ok code) c c₁ with
        listing := c.listing.addFunction ⟨id, s.mangled, code⟩ } := by
  -- A body that waits can be compiled where it was registered.
  have hcompilable := hc.registry ▸ hc.waiting id body hbody
  have hstep := h
  simp only [compileBody, yields_bind, yields_askRegistry] at h
  obtain ⟨s, c, ⟨hs, rfl⟩, h⟩ := h
  rw [hc.registry] at hs
  split at h
  · rw [yields_throw] at h
    exact h.elim
  · rename_i block hblock
    obtain ⟨code, c₁, hmodule, h⟩ := yields_bind.mp h
    obtain rfl := yields_modify.mp h
    have hmodule : Yields (inModule body.path (functionCode s body block)) c code c₁ := hmodule
    have hemissions : emissions (compileBody id body) c =
        emissions (functionCode s body block) (c.entered body.path) := by
      unfold compileBody
      rw [emissions_of_yields (yields_askRegistry.mpr ⟨hc.registry ▸ hs, rfl⟩), hblock]
      refine (congrArg _ (emissions_of_yields hmodule)).trans ?_
      rw [emissions_inModule]
      exact List.append_nil _
    have hsafe : Safe Drafts (functionCode s body block) (c.entered body.path) fun _ c' =>
        AtRest r c' ∧ c'.context = (c.entered body.path).context :=
      safe_functionCode (hc.entered body.path)
        (hc.closed.functions (Registry.getFunction_eq_ok.mp hs)) hcompilable
    obtain ⟨c₂, hcode, rfl⟩ := inModule_exited hmodule fun _ h => (hsafe.yields h).1.toSameDepth
    obtain ⟨-, -, hcontext⟩ := hsafe.yields hcode
    have hlisting : c₂.listing = c.listing := (congrArg Compilation.listing hcontext :)
    refine ⟨s, block, code, c₂, hs, hblock, hemissions, hsafe, hcode, ?_⟩
    rw [← hlisting]
    rfl

/-! ## The entry section -/

/-- The initializer of a global variable, in the scope of its module. -/
def initializer (g : PendingGlobal) : CompileM Unit :=
  withTemps <| match g.init with
    | some e => into e ⟨g.type, g.address⟩
    | none => clear ⟨g.type, g.address⟩

theorem safe_initializer {g : PendingGlobal} (hc : AtRest r c)
    (hg : g.Placed r c.frame.globalLength) :
    Safe Extends (initializer g) c fun _ _ => True := by
  have hinit : ∀ c₁, Ready r c₁ → Held r c₁.extent ⟨g.type, g.address⟩ → Safe Extends (match g.init with
      | some e => into e ⟨g.type, g.address⟩
      | none => clear ⟨g.type, g.address⟩) c₁ fun _ _ => True := by
    intro c₁ h₁ hheld
    split
    · exact safe_into _ h₁ hheld
    · exact safe_clear h₁ hheld hg.concrete
  unfold initializer
  refine safe_withTemps (P := fun _ => True) fun c₁ hw hextent hregs => ?_
  refine hinit c₁ (hc.ready.within hw (hregs ▸ hc.registers)) ?_
  rw [hextent]
  exact hg.stored.held

/-- The initializer runs in the module of its variable, which is left as it was entered. -/
theorem initGlobal_spec {g : PendingGlobal} {u : Unit} (hc : AtRest r c)
    (hg : g.Placed r c.frame.globalLength) (h : Yields (initGlobal g) c u c') :
    ∃ c₁, Yields (initializer g) (c.entered g.path) u c₁ ∧ Extends (c.entered g.path) c₁ ∧
      c' = exited g.path (.ok u) c c₁ := by
  have hsafe := safe_initializer (hc.entered g.path) hg
  have h : Yields (inModule g.path (initializer g)) c u c' := h
  obtain ⟨c₁, hinit, rfl⟩ := inModule_exited h fun _ h => Steady.depth (hsafe.yields h).1
  exact ⟨c₁, hinit, (hsafe.yields hinit).1, rfl⟩

theorem safe_initGlobal {g : PendingGlobal} (hc : AtRest r c)
    (hg : g.Placed r c.frame.globalLength) :
    Safe Drafts (initGlobal g) c fun _ c' => AtRest r c' :=
  safe_inModule_atRest hc fun hentered => (safe_initializer hentered hg).extended.mono
    fun _ _ _ ⟨hx, _⟩ => hentered.of_extends hx

theorem safe_entryPoint (hc : AtRest r c) :
    Safe Drafts entryPoint c fun s c' => c' = c ∧ canStart s = true := by
  unfold entryPoint
  refine .get_bind (.get_bind ?_)
  split
  · exact .fail
  · rename_i ids span hfind
    have hids := (hc.usable hfind).1.2
    refine (Safe.mapM (I := fun c' => c' = c) (P := fun _ => True) (fun id hid c₁ _ hI => ?_) rfl).bind
      fun overloads c₁ _ h₁ => ?_
    · subst hI
      obtain ⟨s, hs, _⟩ := Registry.exists_getFunction (hids id hid)
      have hask : Safe Drafts (askRegistry (·.getFunction id)) c₁ fun _ c' => c' = c₁ ∧ True :=
        .askRegistry (fun _ _ => ⟨rfl, trivial⟩) fun e he => by
          rw [hc.registry, hs] at he
          cases he
      exact hask
    · obtain ⟨rfl, _⟩ := h₁
      split
      · rename_i s hs
        exact .pure ⟨rfl, (List.mem_filter.mp (hs ▸ List.mem_singleton_self s)).2⟩
      · exact .fail
      · exact .fail
  · exact .fail

/-- A function that can start a program is not a method, and takes at most one pointer. -/
theorem canStart_iff {s : Signature} : canStart s = true ↔
    s.isMethod = false ∧ (s.params = [] ∨ s.params = [.programArguments]) := by
  unfold canStart
  simp only [Bool.and_eq_true, Bool.not_eq_true', Bool.or_eq_true, List.isEmpty_iff,
    decide_eq_true_eq]

theorem safe_compileEntry (hc : AtRest r c) : Safe Drafts compileEntry c fun _ _ => True := by
  unfold compileEntry
  refine (safe_beginFunction hc).bind fun _ c₁ _ ⟨h₁, _⟩ => .get_bind ?_
  refine (Safe.forM (I := AtRest r) (fun g hg c₂ h₂ hc₂ => ?_) h₁).bind fun _ c₂ _ h₂ => ?_
  · exact safe_initGlobal hc₂ ((h₁.globals g hg).mono h₂.globals)
  refine (safe_entryPoint h₂).bind ?_
  rintro s c₃ - ⟨rfl, hstart⟩
  refine .get_bind ?_
  -- The call, once the result and the arguments have their places.
  have hlast : ∀ {c₄}, Extends c₃ c₄ →
      c₄.frame.top = c₃.frame.top + (r.length s.result + r.lengths s.params) →
      Safe Drafts (do
        let region ← fromRegistry fun r => r.length s.result + r.lengths s.params
        emit (.callFn s.mangled c₃.frame.topAddress) region
        emit .stop
        let code ← updateFrame (·.takeCode)
        modify fun st => { st with listing := { st.listing with entry := code } }) c₄
        fun _ _ => True := by
    intro c₄ h₄ htop
    refine .fromRegistry_bind ?_
    rw [h₄.registry, h₂.registry]
    have hregion : ∀ a ∈ (Instr.callFn s.mangled c₃.frame.topAddress).writes c₄.registry.pointerSize
        (r.length s.result + r.lengths s.params), c₄.extent.Holds a :=
      List.forall_mem_singleton.mpr (Nat.le_of_eq htop.symm)
    refine (safe_emit (List.forall_mem_nil _) hregion (by trivial)).extended.bind fun _ c₅ _ _ => ?_
    refine (safe_emit (List.forall_mem_nil _) (List.forall_mem_nil _) (by trivial)).extended.bind
      fun _ c₆ _ _ => ?_
    refine safe_takeCode.extended.bind fun code c₇ _ _ => ?_
    exact safe_modify (.of_same rfl rfl rfl rfl rfl fun _ hh => hh) trivial
  refine safe_allocFor.extended.bind fun _ c₄ _ ⟨h₄, _, htop₄⟩ => ?_
  rw [h₂.registry] at htop₄
  rcases (canStart_iff.mp hstart).2 with hparams | hparams <;> rw [hparams] at hlast ⊢
  · exact hlast h₄ htop₄
  · have hr₄ : c₄.registry = r := h₄.registry.trans h₂.registry
    refine .pointerSize_bind (safe_alloc.extended.bind fun a c₅ _ ⟨h₅, ha, htop₅⟩ => ?_)
    have hargv : ∀ x ∈ (Instr.argv a).writes c₅.registry.pointerSize, c₅.extent.Holds x := by
      refine List.forall_mem_singleton.mpr ?_
      rw [ha, h₅.registry]
      exact Nat.le_of_eq htop₅.symm
    refine (safe_emit (List.forall_mem_nil _) hargv (by trivial)).extended.bind
      fun _ c₆ _ ⟨h₆, hx₆⟩ => ?_
    refine hlast (Steady.trans (Steady.trans h₄ h₅) h₆) ?_
    rw [show c₆.frame.top = c₅.frame.top from congrArg Extent.top hx₆, htop₅, htop₄, hr₄,
      Nat.add_assoc]
    rfl

end CompileM

end ClassLang
