import ClassLang.Proofs.Control.Labels
import ClassLang.Proofs.Registration.Natives
import ClassLang.Proofs.Safety.Programs

/-!
# The sections of a program are lawful

Between functions no native is visible outside of modules, and modules are entered and left with the
natives that they require. A function is compiled in its module and gives back all but its code, and
the initializer of a global variable is compiled in the module of that variable. Since code is what
was emitted, its instructions call natives and write class tags only where that was permitted.
-/

-- The instances of long steps are large terms.
set_option synthInstance.maxSize 1000

namespace ClassLang

open CompileM Lowering Bodies

/-- A native that the instruction calls is one of these, and a class tag that it writes is that of a
class of which there can be objects. -/
def Instr.Lawful (r : Registry) (A : Native → Prop) : Instr → Prop
  | callNative id _ => ∃ n : Native, n.id = id ∧ A n
  | setTag _ id => r.Tags id
  | _ => True

theorem Emission.Sound.lawful {e : Emission} {r : Registry} {A : Native → Prop} (h : e.Sound)
    (hw : e.Within r A) : e.instr.Lawful r A := by
  have hpermitted := h.permitted
  cases hi : e.instr with
  | callNative id base =>
    rw [hi] at hpermitted
    obtain ⟨n, hid, hn⟩ := hpermitted
    exact ⟨n, hid, hw.scopes.of_offers hn⟩
  | setTag reg id =>
    rw [hi] at hpermitted
    exact hw.registry ▸ hpermitted
  | _ => trivial

/-- Code that consists of sound emissions is lawful. -/
theorem Lowering.Recorded.lawful {α : Type} {A : Native → Prop} {m : CompileM α} {c c' : Compilation}
    (h : Recorded A m c c') (hsound : ∀ e ∈ emissions m c, e.Sound) :
    ∃ piece, c'.frame.code.toList = c.frame.code.toList ++ piece ∧
      ∀ i ∈ piece, i.Lawful c.registry A := by
  obtain ⟨piece, hpiece, hemitted⟩ := h.code
  refine ⟨piece, hpiece, fun i hi => ?_⟩
  obtain ⟨e, he, rfl, hw⟩ := hemitted i hi
  exact (hsound e he).lawful hw

/-- What there is to compile, and against what. -/
def Compilation.plan (c : Compilation) : Registry × Table Nat PendingBody × List PendingGlobal :=
  (c.registry, c.bodies, c.globals)

namespace CompileM

variable {p : Program} {r : Registry} {c c' : Compilation}

/-! ## Functions -/

/-- The code of a function consists of what was emitted. -/
theorem recorded_functionCode {A : Native → Prop} {s : Signature} {body : PendingBody}
    {block : List Stmt} {code : Array Instr} (hA : c.scopes.Admits A)
    (h : Yields (functionCode s body block) c code c') :
    ∀ i ∈ code.toList, ∃ e ∈ emissions (functionCode s body block) c,
      e.instr = i ∧ e.Within c.registry A := by
  have hassoc : functionCode s body block = modifyFrame (·.beginFunction) >>= fun _ =>
      (do
        let _ ← allocFor s.result
        bodyCode s body block
        finishBody s block body.decl.span) >>= fun _ => updateFrame (·.takeCode) := by
    simp only [functionCode, bind_assoc]
  rw [hassoc] at h ⊢
  obtain ⟨_, c₁, hbegin, h⟩ := yields_bind.mp h
  obtain ⟨_, c₂, hrest, htake⟩ := yields_bind.mp h
  rw [emissions_of_yields hbegin, emissions_of_yields hrest]
  obtain rfl := yields_modifyFrame.mp hbegin
  obtain ⟨rfl, rfl⟩ := yields_updateFrame.mp htake
  have hrecords : Has (Records A) (do
      let _ ← allocFor s.result
      bodyCode s body block
      finishBody s block body.decl.span) := inferInstance
  obtain ⟨piece, hpiece, hemitted⟩ := (hrecords.out hrest hA).code
  intro i hi
  have hi : i ∈ c₂.frame.code.toList := hi
  rw [hpiece] at hi
  obtain ⟨e, he, hwithin⟩ := hemitted i hi
  exact ⟨e, List.mem_append_right _ (List.mem_append_left _ he), hwithin⟩

/-- What is known between functions when natives are guarded. -/
structure Orderly (p : Program) (r : Registry) (c : Compilation) : Prop where
  atRest : AtRest r c
  guarded : c.Guarded p

/-- A module is left as it was entered. -/
theorem Orderly.exited {α : Type} {path : String} {a : α} {c₁ : Compilation} (h : Orderly p r c)
    (hrest : AtRest r c₁) (hcontext : c₁.context = (c.entered path).context) :
    Orderly p r (exited path (.ok a) c c₁) := by
  have hscopes : c₁.scopes = (c.entered path).scopes := (congrArg Compilation.scopes hcontext :)
  have hmodules : c₁.moduleScopes = c.moduleScopes :=
    (congrArg Compilation.moduleScopes hcontext :)
  have hdepth : c₁.scopes.depth = c.scopes.depth + 1 := by
    rw [hscopes]
    rfl
  have hreplaced : c₁.scopes = (c.entered path).scopes.replace (c.entered path).scopes.current := by
    rw [hscopes, Scopes.replace_current]
  refine ⟨hrest.exited hdepth, h.guarded.exited hreplaced hmodules ?_⟩
  rw [hscopes]
  exact h.guarded.entered path

/-- What compiling a function leaves: one more section, whose code is lawful in the module. -/
structure Adds (p : Program) (r : Registry) (id : Nat) (body : PendingBody) (c c' : Compilation) :
    Prop where
  orderly : Orderly p r c'
  plan : c'.plan = c.plan
  listing : ∃ s : Section, s.id = id ∧ c'.listing = c.listing.addFunction s ∧
    ∀ i ∈ s.code.toList, i.Lawful r (p.Requires body.path)

theorem adds_compileBody {id : Nat} {body : PendingBody} {u : Unit} (hc : Orderly p r c)
    (hbody : c.bodies.find? id = some body) (h : Yields (compileBody id body) c u c') :
    Adds p r id body c c' := by
  obtain ⟨s, block, code, c₁, hs, -, -, hsafe, hcode, rfl⟩ := compileBody_spec hc.atRest hbody h
  obtain ⟨-, hrest, hcontext⟩ := hsafe.yields hcode
  have hleft : Orderly p r (exited body.path (.ok code) c c₁) := hc.exited hrest hcontext
  have hplan : c₁.plan = c.plan := (congrArg Compilation.plan hcontext :)
  refine ⟨⟨hleft.atRest.with_listing _, hleft.guarded.of_same rfl rfl⟩, hplan,
    ⟨id, s.mangled, code⟩, rfl, rfl, fun i hi => ?_⟩
  obtain ⟨e, he, rfl, hwithin⟩ := recorded_functionCode (hc.guarded.entered body.path) hcode i hi
  have hlawful := (hsafe.emissions e he).lawful hwithin
  rwa [show (c.entered body.path).registry = r from hc.atRest.registry] at hlawful

/-- The code of all functions is lawful in their modules. -/
def AllLawful (p : Program) (r : Registry) (c : Compilation) : Prop :=
  ∀ s ∈ c.listing.functions.toList, ∃ body, c.bodies.find? s.id = some body ∧
    ∀ i ∈ s.code.toList, i.Lawful r (p.Requires body.path)

theorem Adds.allLawful {id : Nat} {body : PendingBody} (h : Adds p r id body c c')
    (hbody : c.bodies.find? id = some body) (hc : AllLawful p r c) : AllLawful p r c' := by
  obtain ⟨s, rfl, hlisting, hs⟩ := h.listing
  intro t ht
  rw [hlisting, Listing.addFunction, Array.toList_push, List.mem_append] at ht
  rw [show c'.bodies = c.bodies from congrArg (·.2.1) h.plan]
  rcases ht with ht | ht
  · exact hc t ht
  · rw [List.mem_singleton.mp ht]
    exact ⟨body, hbody, hs⟩

theorem allLawful_compileBodies : ∀ {ids : List Nat} {c c' : Compilation} {n : Nat}, Orderly p r c →
    AllLawful p r c → Yields (compileBodies ids) c n c' →
      Orderly p r c' ∧ AllLawful p r c' ∧ c'.plan = c.plan
  | [], c, c', n, hc, hall, h => by
    obtain ⟨_, rfl⟩ := yields_pure.mp h
    exact ⟨hc, hall, rfl⟩
  | id :: rest, c, c', n, hc, hall, h => by
    simp only [compileBodies, yields_bind, yields_get] at h
    obtain ⟨_, c, ⟨rfl, rfl⟩, h⟩ := h
    split at h
    · exact allLawful_compileBodies hc hall h
    · rename_i body hbody
      simp only [yields_bind, yields_pure] at h
      obtain ⟨_, c₁, hfirst, _, c₂, hrest, _, rfl⟩ := h
      have hadds := adds_compileBody hc hbody hfirst
      obtain ⟨hc', hall', hplan⟩ :=
        allLawful_compileBodies hadds.orderly (hadds.allLawful hbody hall) hrest
      exact ⟨hc', hall', hplan.trans hadds.plan⟩

/-! ## The entry section -/

/-- The code that initializes a global variable, lawful in the module of the variable. -/
structure Initializes (p : Program) (r : Registry) (g : PendingGlobal) (piece : List Instr) : Prop where
  emitted : ∃ c c', Yields (initGlobal g) c () c' ∧
    c'.frame.code.toList = c.frame.code.toList ++ piece
  lawful : ∀ i ∈ piece, i.Lawful r (p.Requires g.path)

theorem initializes_initGlobal {g : PendingGlobal} {u : Unit} (hc : Orderly p r c)
    (hg : g.Placed r c.frame.globalLength) (h : Yields (initGlobal g) c u c') :
    Orderly p r c' ∧ c.frame.globalLength ≤ c'.frame.globalLength ∧
      (c'.plan = c.plan ∧ c'.listing = c.listing) ∧
      ∃ piece, c'.frame.code.toList = c.frame.code.toList ++ piece ∧ Initializes p r g piece := by
  have hstep := h
  have hentered := hc.atRest.entered g.path
  have hsafe := safe_initializer hentered hg
  obtain ⟨c₁, hinit, hx, hc'⟩ := initGlobal_spec hc.atRest hg h
  have hleft : Orderly p r (exited g.path (.ok u) c c₁) :=
    hc.exited (hentered.of_extends hx) hx.context
  have hrecords : Has (Records (p.Requires g.path)) (initializer g) := by
    unfold initializer
    split <;> infer_instance
  obtain ⟨piece, hpiece, hlawful⟩ :=
    (hrecords.out hinit (hc.guarded.entered g.path)).lawful hsafe.emissions
  have hcode : c'.frame.code.toList = c.frame.code.toList ++ piece := by
    rw [hc']
    exact hpiece
  rw [show (c.entered g.path).registry = r from hentered.registry] at hlawful
  refine ⟨hc' ▸ hleft, ?_, ?_, piece, hcode, ⟨c, c', hstep, hcode⟩, hlawful⟩
  · rw [hc']
    exact hx.extent.globalLength
  · rw [hc']
    exact ⟨(congrArg Compilation.plan hx.context :), (congrArg Compilation.listing hx.context :)⟩

theorem initializes_globals : ∀ {gs : List PendingGlobal} {c c' : Compilation} {u : Unit},
    Orderly p r c → (∀ g ∈ gs, g.Placed r c.frame.globalLength) → Yields (gs.forM initGlobal) c u c' →
      (c'.plan = c.plan ∧ c'.listing = c.listing) ∧ ∃ pieces, List.Forall₂ (Initializes p r) gs pieces ∧
        c'.frame.code.toList = c.frame.code.toList ++ pieces.flatten
  | [], c, c', u, _, _, h => by
    rw [yields_forM_nil.mp h]
    exact ⟨⟨rfl, rfl⟩, [], .nil, (List.append_nil _).symm⟩
  | g :: gs, c, c', u, hc, hgs, h => by
    obtain ⟨hg, hrest⟩ := List.forall_mem_cons.mp hgs
    obtain ⟨_, c₁, hfirst, hmore⟩ := yields_forM_cons.mp h
    obtain ⟨hc₁, hle, ⟨hplan, hlisting⟩, piece, hpiece, hinit⟩ := initializes_initGlobal hc hg hfirst
    obtain ⟨⟨hplan', hlisting'⟩, pieces, hall, hcode⟩ :=
      initializes_globals hc₁ (fun g hg => (hrest g hg).mono hle) hmore
    refine ⟨⟨hplan'.trans hplan, hlisting'.trans hlisting⟩, piece :: pieces, .cons hinit hall, ?_⟩
    rw [hcode, hpiece, List.flatten_cons, List.append_assoc]

/-- The program is started without natives and tags. -/
theorem lawful_startProgram {s : Signature} {base : Address} {u : Unit}
    (h : Yields (startProgram s base) c u c') : (c'.plan = c.plan ∧ c'.listing = c.listing) ∧
      ∃ piece, c'.frame.code.toList = c.frame.code.toList ++ piece ∧
        ∀ i ∈ piece, i.Lawful r fun _ => False := by
  have hend : ∀ {c}, Yields (do
      emit (.callFn s.mangled base)
      emit .stop) c u c' → (c'.plan = c.plan ∧ c'.listing = c.listing) ∧
      c'.frame.code.toList = c.frame.code.toList ++ [.callFn s.mangled base, .stop] := by
    intro c h
    simp only [yields_bind, yields_emit] at h
    obtain ⟨_, _, rfl, rfl⟩ := h
    exact ⟨⟨rfl, rfl⟩, by simp⟩
  have hlawful : ∀ i ∈ [Instr.callFn s.mangled base, .stop], i.Lawful r fun _ => False :=
    List.forall_mem_cons.mpr ⟨trivial, List.forall_mem_singleton.mpr trivial⟩
  unfold startProgram at h
  split at h
  · simp only [yields_bind (m := pointerSize), yields_pointerSize, yields_bind (m := alloc _),
      yields_alloc] at h
    obtain ⟨_, c, ⟨rfl, rfl⟩, _, _, ⟨rfl, rfl⟩, h⟩ := h
    obtain ⟨_, c₁, hargv, h⟩ := yields_bind.mp h
    rw [yields_emit] at hargv
    subst hargv
    obtain ⟨hkept, hcode⟩ := hend h
    refine ⟨hkept, .argv (.frame c.frame.top) :: [.callFn s.mangled base, .stop], ?_,
      List.forall_mem_cons.mpr ⟨trivial, hlawful⟩⟩
    rw [hcode]
    simp
  · obtain ⟨hkept, hcode⟩ := hend h
    exact ⟨hkept, _, hcode, hlawful⟩

/-- The entry section: the initializers of the globals in order, and then the start. -/
structure EntryLawful (p : Program) (r : Registry) (globals : List PendingGlobal)
    (code : List Instr) : Prop where
  pieces : ∃ pieces start, code = pieces.flatten ++ start ∧
    List.Forall₂ (Initializes p r) globals pieces ∧ ∀ i ∈ start, i.Lawful r fun _ => False

theorem lawful_compileEntry {u : Unit} (hc : Orderly p r c) (h : Yields compileEntry c u c') :
    EntryLawful p r c.globals c'.listing.entry.toList ∧ c'.plan = c.plan ∧
      c'.listing.functions = c.listing.functions := by
  obtain ⟨c₁, s, a, c₂, c₃, hglobals, hentry, hresult, hstart, rfl⟩ := compileEntry_spec h
  have hbegin : Orderly p r { c with frame := c.frame.beginFunction } :=
    ⟨((safe_beginFunction hc.atRest).yields (a := ()) (yields_modifyFrame.mpr rfl)).2.1,
      hc.guarded.of_same rfl rfl⟩
  obtain ⟨⟨hplan, hlisting⟩, pieces, hall, hcode⟩ :=
    initializes_globals hbegin hbegin.atRest.globals hglobals
  obtain ⟨rfl, rfl⟩ := yields_allocFor.mp hresult
  obtain ⟨⟨hplan', hlisting'⟩, start, hstartcode, hlawful⟩ := lawful_startProgram (r := r) hstart
  refine ⟨⟨pieces, start, ?_, hall, hlawful⟩, hplan'.trans hplan, ?_⟩
  · show c₃.frame.code.toList = _
    rw [hstartcode]
    show c₁.frame.code.toList ++ start = _
    rw [hcode]
    rfl
  · show c₃.listing.functions = _
    rw [hlisting']
    show c₁.listing.functions = _
    rw [hlisting]

/-! ## Programs -/

/-- All code of a program is lawful: that of functions in the module where they are declared, and
that of the initializers of global variables in the modules of these variables. -/
structure Lawful (p : Program) (c : Compilation) : Prop where
  functions : AllLawful p c.registry c
  entry : EntryLawful p c.registry c.globals c.listing.entry.toList

theorem lawful_of_compileProgram {o : Options} (hstart : Compilation.start o = .ok c)
    (h : Yields (compileProgram p) c () c') :
    ∃ c₁ n, Yields (Registration.run p) c n c₁ ∧ c'.plan = c₁.plan ∧ Lawful p c' := by
  simp only [compileProgram, Bodies.run, yields_bind, yields_get, yields_pure] at h
  obtain ⟨n, c₁, hregister, _, c₂, ⟨_, c₁, ⟨rfl, rfl⟩, _, c₃, hbodies, _, c₄, hentry, _, rfl⟩, _,
    rfl⟩ := h
  have hempty : c₁.listing = .empty := by
    rw [hregister.keeps (f := Compilation.listing)]
    simp only [Compilation.start, except_bind_eq_ok, except_pure_eq_ok] at hstart
    obtain ⟨_, _, _, _, rfl⟩ := hstart
    rfl
  have hrest : Orderly p c₁.registry c₁ :=
    ⟨((safe_run hstart).yields hregister).2, Registration.guarded_of_run hstart hregister⟩
  have hnone : AllLawful p c₁.registry c₁ := by
    intro s hs
    rw [hempty] at hs
    exact absurd hs List.not_mem_nil
  obtain ⟨hrest₃, hall, hplan₃⟩ := allLawful_compileBodies hrest hnone hbodies
  obtain ⟨hlawful, hplan, hfunctions⟩ := lawful_compileEntry hrest₃ hentry
  have hregistry : c'.registry = c₁.registry := congrArg (·.1) (hplan.trans hplan₃)
  refine ⟨c₁, n, hregister, hplan.trans hplan₃, ?_, ?_⟩
  · intro s hs
    rw [hfunctions] at hs
    rw [hregistry, show c'.bodies = c₃.bodies from congrArg (·.2.1) hplan]
    exact hall s hs
  · rw [hregistry, show c'.globals = c₃.globals from congrArg (·.2.2) hplan]
    exact hlawful

end CompileM

end ClassLang
