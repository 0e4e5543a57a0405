import ClassLang.Proofs.Dispatch.Arguments
import ClassLang.Proofs.Link.Sections
import ClassLang.Proofs.Safety.Overflow
import ClassLang.Proofs.Writes.Programs

/-!
# Direct calls of a program

Every function of a program that is not abstract is compiled to a section, in which it receives what
callers store. A name stands for functions that are not methods, a class is constructed by one of
its methods, and the entry point is a free function; all of them have sections. So wherever in a
program such a function is called, caller and callee agree, and the frame of the callee is above all
variables that the caller sees.
-/

-- The instances of long steps are large terms.
set_option synthInstance.maxSize 1000

namespace ClassLang

open CompileM Lowering Bodies

/-! ## Sections -/

/-- The section is that of a function, which finds there what callers store. -/
structure Section.Receives (r : Registry) (s : Signature) (body : PendingBody) (x : Section) :
    Prop where
  id : x.id = s.id
  mangled : x.mangled = s.mangled
  block : ∃ block, body.decl.body = some block ∧ Bodies.Receives r s block x.code.toList

/-- The function was compiled, and finds in its section what callers store. -/
def Compilation.Receives (c : Compilation) (s : Signature) : Prop :=
  ∃ body, c.bodies.find? s.id = some body ∧
    ∃ x ∈ c.listing.functions.toList, x.Receives c.registry s body

section Sections

variable {r : Registry} {c c' : Compilation} {id : Nat} {s : Signature} {body : PendingBody}

theorem receives_compileBody {u : Unit} (hc : AtRest r c) (hs : r.function? id = some s)
    (hid : s.id = id) (hbody : c.bodies.find? id = some body) (hfits : body.Fits s)
    (h : Yields (compileBody id body) c u c') :
    AtRest r c' ∧ c'.plan = c.plan ∧ ∃ x, c'.listing = c.listing.addFunction x ∧ x.Receives r s body := by
  have hcompilable := hc.registry ▸ hc.waiting id body hbody
  have hsize : id < r.functions.size := (Array.getElem?_eq_some_iff.mp hs).1
  have hrest := ((safe_compileBody hc hsize hcompilable).yields h).2
  obtain ⟨t, block, code, c₁, ht, hblock, -, hsafe, hcode, rfl⟩ := compileBody_spec hc hbody h
  obtain rfl : s = t := Option.some.inj (hs.symm.trans (Registry.getFunction_eq_ok.mp ht))
  obtain ⟨-, -, hcontext⟩ := hsafe.yields hcode
  exact ⟨hrest, (congrArg Compilation.plan hcontext :), _, rfl, hid.symm, rfl, block, hblock,
    receives_functionCode (hc.entered body.path).registry hfits hcode⟩

/-- Every body that is queued gets a section, and sections stay. -/
theorem receives_compileBodies : ∀ {ids : List Nat} {c c' : Compilation} {n : Nat}, AtRest r c →
    (∀ id ∈ ids, ∃ s, r.function? id = some s ∧ s.id = id ∧
      ∀ body, c.bodies.find? id = some body → body.Fits s) →
    Yields (compileBodies ids) c n c' → c'.plan = c.plan ∧
      (∀ x ∈ c.listing.functions.toList, x ∈ c'.listing.functions.toList) ∧
      ∀ id ∈ ids, ∀ body, c.bodies.find? id = some body → ∃ s, r.function? id = some s ∧
        ∃ x ∈ c'.listing.functions.toList, x.Receives r s body
  | [], c, c', n, _, _, h => by
    obtain ⟨_, rfl⟩ := yields_pure.mp h
    exact ⟨rfl, fun _ hx => hx, List.forall_mem_nil _⟩
  | id :: rest, c, c', n, hc, hids, h => by
    obtain ⟨⟨s, hs, hid, hfits⟩, hrest⟩ := List.forall_mem_cons.mp hids
    simp only [compileBodies, yields_bind, yields_get] at h
    obtain ⟨_, c, ⟨rfl, rfl⟩, h⟩ := h
    split at h
    · rename_i hnone
      obtain ⟨hplan, hkept, hmore⟩ := receives_compileBodies hc hrest h
      refine ⟨hplan, hkept, List.forall_mem_cons.mpr ⟨fun body hbody => ?_, hmore⟩⟩
      rw [hnone] at hbody
      cases hbody
    · rename_i body hbody
      simp only [yields_bind, yields_pure] at h
      obtain ⟨_, c₁, hfirst, _, c₂, hmore, _, rfl⟩ := h
      obtain ⟨hc₁, hplan₁, x, hlisting, hx⟩ :=
        receives_compileBody hc hs hid hbody (hfits body hbody) hfirst
      -- Compiling a body changes neither the queue nor the sections that are there.
      have hbodies : c₁.bodies = c.bodies := congrArg (·.2.1) hplan₁
      obtain ⟨hplan, hkept, hmore⟩ := receives_compileBodies hc₁ (hbodies ▸ hrest) hmore
      rw [hlisting, Listing.addFunction, Array.toList_push] at hkept
      refine ⟨hplan.trans hplan₁, fun y hy => hkept y (List.mem_append_left _ hy),
        List.forall_mem_cons.mpr ⟨fun body' hbody' => ?_, hbodies ▸ hmore⟩⟩
      obtain rfl : body = body' := Option.some.inj (hbody.symm.trans hbody')
      exact ⟨s, hs, x, hkept x (List.mem_append_right _ (List.mem_singleton_self x)), hx⟩

end Sections

/-! ## The entry point -/

/-- The program is started with a free function, whose frame is on top of that of the entry section.
If it has a parameter, that is as long as a pointer, and the arguments of the program are stored
there. -/
structure DirectStart (r : Registry) (s : Signature) (code : List Instr) : Prop where
  free : s.isMethod = false
  lengths : ∀ n ∈ r.slotLengths s, n = r.pointerSize
  code : ∃ before base, code = before ++
    (r.slotOffsets s).map (fun o => .argv (.frame (base + o))) ++
    [.callFn s.mangled (.frame base), .stop]

section Entry

variable {c c' : Compilation} {s : Signature} {u : Unit}

section Persistent

variable {β : Type} {f : Compilation → β} [Persistent f]

instance (g : PendingGlobal) : Keeps f (initGlobal g) := by
  unfold initGlobal
  split <;> infer_instance

instance (s : Signature) (base : Address) : Keeps f (startProgram s base) := by
  unfold startProgram
  infer_instance

end Persistent

/-- A function that a program can be started with has at most one slot. -/
theorem slots_of_canStart (r : Registry) (h : canStart s = true) : s.isMethod = false ∧
    (r.slotLengths s = [] ∧ s.params = [] ∨
      r.slotLengths s = [r.pointerSize] ∧ s.params = [.programArguments]) := by
  obtain ⟨hfree, hparams⟩ := canStart_iff.mp h
  unfold Registry.slotLengths
  refine ⟨hfree, hparams.imp (fun hparams => ⟨?_, hparams⟩) fun hparams => ⟨?_, hparams⟩⟩ <;>
    rw [hfree, hparams] <;> rfl

/-- The entry section ends with the start, and is all that changes. -/
theorem directStart_of_compileEntry (h : Yields compileEntry c u c') :
    c'.registry = c.registry ∧ c'.bodies = c.bodies ∧
      ∃ s id, c.registry.function? id = some s ∧
        DirectStart c.registry s c'.listing.entry.toList := by
  obtain ⟨c₁, s, a, c₂, c₃, hglobals, hentry, hresult, hstart, rfl⟩ := compileEntry_spec h
  have hr : c₁.registry = c.registry := hglobals.keeps
  have hr₃ : c₃.registry = c₂.registry := hstart.keeps
  have hb : c₁.bodies = c.bodies := hglobals.keeps
  have hb₃ : c₃.bodies = c₂.bodies := hstart.keeps
  obtain ⟨_, _, _, hcan, id, _, hs⟩ := entryPoint_spec hentry
  obtain ⟨rfl, rfl⟩ := yields_allocFor.mp hresult
  obtain ⟨hfree, hslots⟩ := slots_of_canStart c.registry hcan
  refine ⟨hr₃.trans hr, hb₃.trans hb, s, id, hr ▸ hs, hfree, ?_, c₁.frame.code.toList,
    c₁.frame.top, ?_⟩
  · rcases hslots with ⟨hnone, _⟩ | ⟨hone, _⟩
    · rw [hnone]
      exact List.forall_mem_nil _
    · rw [hone]
      exact List.forall_mem_singleton.mpr rfl
  · show c₃.frame.code.toList = _
    -- The entry point takes nothing, or the arguments of the program as its only parameter.
    unfold startProgram at hstart
    rcases hslots with ⟨hnone, hparams⟩ | ⟨hone, hparams⟩ <;> rw [hparams] at hstart
    · have hstart : Yields (do
          emit (.callFn s.mangled c₁.frame.topAddress)
          emit .stop) _ () c₃ := hstart
      simp only [yields_bind, yields_emit] at hstart
      obtain ⟨_, _, rfl, rfl⟩ := hstart
      rw [Registry.slotOffsets, hnone]
      simp [Frame.append_code, offsetsFrom, Frame.topAddress]
    · have hstart : Yields (do
          emit (.argv (← alloc (← pointerSize)))
          emit (.callFn s.mangled c₁.frame.topAddress)
          emit .stop) _ () c₃ := hstart
      simp only [yields_bind, yields_pointerSize, yields_alloc, yields_emit, and_assoc,
        exists_and_left, exists_eq_left] at hstart
      obtain ⟨_, _, _, rfl⟩ := hstart
      rw [Registry.slotOffsets, hone, ← hr]
      simp [Frame.append_code, offsetsFrom, Frame.topAddress]

end Entry

/-! ## Programs -/

section Programs

variable {p : Program} {o : Options} {c c' : Compilation}

/-- Instructions that call get a frame above all variables in scope, and names stand for functions
that are not methods. -/
theorem heeds_of_compileProgram (hstart : Compilation.start o = .ok c)
    (h : Yields (compileProgram p) c () c') : ∀ e ∈ emissions (compileProgram p) c,
      e.scopes.Free c'.registry ∧ ∀ base, e.instr.frame? = some base →
        ∃ k, base = .frame k ∧ ∀ b, e.scopes.Binds b → b.EndsBelow c'.registry k := by
  obtain ⟨hr, bodies, inits, start, hemissions, hbodies, hinits, hrest⟩ :=
    heedful_of_compileProgram hstart h fun ht : False => ht.elim
  intro e he
  rw [hemissions] at he
  rcases List.mem_append.mp he with he | he
  · rcases List.mem_append.mp he with he | he
    · exact ⟨(hbodies e he).free, (hbodies e he).calls⟩
    · obtain ⟨es, hes, he⟩ := List.mem_flatten.mp he
      obtain ⟨g, _, hg⟩ := exists_right_of_forall₂ hinits.flip hes
      exact ⟨(hg.heeds e he).free, (hg.heeds e he).calls⟩
  · exact ⟨(hrest e he).free, (hrest e he).calls⟩

/-- Every function that is not abstract receives what callers store, and free functions are not
abstract. -/
structure Compiled (c : Compilation) : Prop where
  tables : Dispatch.Tables c.registry
  receives : ∀ {id s}, c.registry.function? id = some s → s.isAbstract = false → c.Receives s
  free : ∀ {id s}, c.registry.function? id = some s → s.isMethod = false → s.isAbstract = false
  started : ∃ s id, c.registry.function? id = some s ∧
    DirectStart c.registry s c.listing.entry.toList

theorem compiled_of_compileProgram (hstart : Compilation.start o = .ok c)
    (h : Yields (compileProgram p) c () c') : Compiled c' := by
  simp only [compileProgram, Bodies.run, yields_bind, yields_get, yields_pure] at h
  obtain ⟨n, c₁, hregister, _, c₂, ⟨_, c₁, ⟨rfl, rfl⟩, k, c₃, hbodies, _, c₄, hentry, _, rfl⟩, _,
    rfl⟩ := h
  obtain ⟨ps, ordered, methods, _, _, _, _, _, hsteps⟩ := Dispatch.yields_run hregister
  have htables : Dispatch.Tables c₁.registry := hsteps.finished (Dispatch.declared_start hstart)
  have hpaired := Registration.paired_of_run hstart hregister
  have hids : ∀ id ∈ c₁.registry.functions.toList.map (·.id), ∃ s,
      c₁.registry.function? id = some s ∧ s.id = id ∧
        ∀ body, c₁.bodies.find? id = some body → body.Fits s := by
    intro id hid
    obtain ⟨s, hs, rfl⟩ := List.mem_map.mp hid
    obtain ⟨n, hn⟩ := Array.mem_iff_getElem?.mp (Array.mem_toList_iff.mp hs)
    have hid := hpaired.id_eq hn
    exact ⟨s, hid ▸ hn, rfl, fun body => hpaired.fits (hid ▸ hn)⟩
  have hrest : AtRest c₁.registry c₁ := ((safe_run hstart).yields hregister).2
  obtain ⟨hplan₃, -, hall⟩ := receives_compileBodies hrest hids hbodies
  obtain ⟨hr, hb, hstarted⟩ := directStart_of_compileEntry hentry
  obtain ⟨_, _, _, _, _, hlisting⟩ := yields_compileEntry hentry
  have hr₁ : c'.registry = c₁.registry := hr.trans (congrArg (·.1) hplan₃)
  have hb₁ : c'.bodies = c₁.bodies := hb.trans (congrArg (·.2.1) hplan₃)
  refine ⟨hr₁ ▸ htables, fun {id s} hs habstract => ?_, hr₁ ▸ hpaired.free, hr ▸ hstarted⟩
  rw [hr₁] at hs
  -- A function that is not abstract has a body in the queue, and the queue is compiled whole.
  obtain ⟨body, hbody⟩ := hpaired.queued hs habstract
  have hid := hpaired.id_eq hs
  have hmem : s.id ∈ c₁.registry.functions.toList.map (·.id) :=
    List.mem_map_of_mem (Array.mem_toList_iff.mpr (Array.mem_of_getElem? hs))
  obtain ⟨t, ht, x, hx, hreceives⟩ := hall s.id hmem body (hid ▸ hbody)
  obtain rfl : s = t := Option.some.inj ((hid ▸ hs).symm.trans ht)
  refine ⟨body, hb₁ ▸ hid ▸ hbody, x, ?_, hr₁ ▸ hreceives⟩
  rw [hlisting]
  exact hx

/-! ## Calls -/

/-- The arguments are compiled, converted to the parameters, and stored in the slots of the
function, which receives them there. -/
def CallsDirectly (c : Compilation) (s : Signature) (receiver : Option Address) (params : List Ty)
    (args : List Expr) (d d' : Compilation) : Prop :=
  ∃ vs c₁ as c₂, Yields (values args) d vs c₁ ∧
    Yields (coerceArgs vs params (args.map (·.span))) c₁ as c₂ ∧
    DirectCall c.registry s receiver as c₂ d' ∧ c.Receives s

/-- Where this is the state, whatever is called by its name, or to construct an object, agrees with
the caller. -/
structure AgreesAt (c d : Compilation) : Prop where
  /-- A name that stands for functions calls one of them. -/
  named {dest : Option Slot} {name : String} {nameSpan declared span : Span} {ids : List Nat}
    {args : List Expr} {v : Place} {d' : Compilation} :
    d.scopes.find? name = some ⟨.functions ids, declared⟩ →
    Yields (place dest (.call (.name name nameSpan) args span)) d v d' →
    ∃ id ∈ ids, ∃ s, c.registry.function? id = some s ∧
      CallsDirectly c s none s.params args d d'
  /-- When an object has been allocated, the constructor is called that its class has in some slot,
  unless the class has none. -/
  created {dest : Option Slot} {owner : TypeExpr} {span : Span} {args : List Expr} {v : Place}
    {d' : Compilation} :
    Yields (place dest (.newObject owner args span)) d v d' →
    ∃ t d₀ object d₁, Yields (resolveClass owner) d t d₀ ∧ v = .ofSlot object ∧
      object.type = .pointer t ∧ d₁.registry = c.registry ∧
      (c.registry.methodsNamed t Class.constructorName = [] ∧ args = [] ∧ d' = d₁ ∨
        ∃ rank ∈ c.registry.methodsNamed t Class.constructorName,
          ∃ hash k id s, t.classHash? = some hash ∧ c.registry.class? hash = some k ∧
            k.implementation? rank.slot = some (some id) ∧ c.registry.function? id = some s ∧
            CallsDirectly c s (some object.address) rank.params args d₁ d')

theorem Compiled.agreesAt {d : Compilation} (hc : Compiled c) (hr : d.registry = c.registry)
    (hfree : d.scopes.Free c.registry) : AgreesAt c d where
  named {dest name nameSpan declared span ids args v d'} hname h := by
    unfold place slotPlace at h
    simp only [yields_bind, yields_pure] at h
    obtain ⟨slot, d₁, ⟨m, d₀, hmeaning, hcall⟩, rfl, rfl⟩ := h
    obtain ⟨rfl, rfl⟩ : m = .functions ids ∧ d₀ = d := by
      simpa [meaning, meaning?, hname] using hmeaning
    obtain ⟨id, hid, s, vs, c₁, as, c₂, hs, hvalues, has, hdirect⟩ := direct_callFunction hcall
    rw [hr] at hs hdirect
    obtain ⟨t, ht, hmethod⟩ := hfree.of_find? hname id hid
    obtain rfl : s = t := Option.some.inj (hs.symm.trans ht)
    exact ⟨id, hid, s, hs, vs, c₁, as, c₂, hvalues, has, hdirect hmethod,
      hc.receives hs (hc.free hs hmethod)⟩
  created {dest owner span args v d'} h := by
    unfold place slotPlace at h
    simp only [yields_bind, yields_pure] at h
    obtain ⟨object, d₂, hnew, rfl, rfl⟩ := h
    obtain ⟨t, d₀, d₁, u, howner, htype, hr₁, hconstruct⟩ := direct_newObject hnew
    have hr₁ : d₁.registry = c.registry := hr₁.trans hr
    refine ⟨t, d₀, object, d₁, howner, rfl, htype, hr₁, ?_⟩
    rw [← hr₁]
    refine (direct_constructObject (hr₁ ▸ hc.tables) hconstruct).imp_right ?_
    rintro ⟨hash, k, rank, id, s, vs, c₁, as, c₂, hhash, hk, hrank, hid, hs, hvalues, has, hdirect⟩
    obtain ⟨t, ht, habstract⟩ :=
      hc.tables.bindsBodies (hr₁ ▸ hk) rank.slot id (Dispatch.implementation?_mem hid)
    obtain rfl : s = t := Option.some.inj (hs.symm.trans (hr₁ ▸ ht))
    exact ⟨rank, hrank, hash, k, id, s, hhash, hk, hid, hs, vs, c₁, as, c₂, hvalues, has,
      hr₁ ▸ hdirect, hc.receives ht habstract⟩

/-- The storage of the variable ends below this offset if it is in the frame, as 32 bits have
both. -/
def Binding.EndsBelowWrapped (r : Registry) (n : Nat) (b : Binding) : Prop :=
  ∀ k, b.address = .frame k → wrap k + wrap (r.length b.type) ≤ wrap n

/-- The frame of a function that is called starts inside of the storage. -/
theorem base_le_top {e : Emission} {name : String} {k : Nat} (h : e.Fits)
    (hcall : e.instr = .callFn name (.frame k)) : k ≤ e.extent.top := by
  have hmem : (.frame k, e.region) ∈ e.reads ++ e.writes := by
    unfold Emission.reads Emission.writes
    rw [hcall]
    exact List.mem_singleton_self _
  exact Nat.le_trans (Nat.le_add_right ..) (h _ hmem)

/-- In a program that compiles, caller and callee of a direct call agree on the frame. This holds of
calls by name and of `new` wherever something is emitted, and of the start of the program; both
count the same sums, so they agree on what 32 bits keep of them. The frame of a function that is
called starts above all variables in scope, if the storage has not outgrown 32 bits. -/
theorem direct_calls_agree (hstart : Compilation.start o = .ok c)
    (h : Yields (compileProgram p) c () c') :
    (∀ e ∈ emissions (compileProgram p) c, ∀ d : Compilation, d.registry = c'.registry →
      d.scopes = e.scopes → AgreesAt c' d) ∧
    (∃ s id, c'.registry.function? id = some s ∧
      DirectStart c'.registry s c'.listing.entry.toList ∧ c'.Receives s) ∧
    ∀ e ∈ emissions (compileProgram p) c, ∀ name base, e.instr = .callFn name base →
      ∃ k, base = .frame k ∧ (e.extent.Representable e.registry →
        ∀ b, e.scopes.Binds b → b.EndsBelowWrapped c'.registry k) := by
  have hc := compiled_of_compileProgram hstart h
  have hheeds := heeds_of_compileProgram hstart h
  refine ⟨fun e he d hr hscopes => hc.agreesAt hr (hscopes ▸ (hheeds e he).1), ?_, ?_⟩
  · obtain ⟨s, id, hs, hdirect⟩ := hc.started
    exact ⟨s, id, hs, hdirect, hc.receives hs (hc.free hs hdirect.free)⟩
  · intro e he name base hcall
    obtain ⟨k, rfl, hbelow⟩ := (hheeds e he).2 base (by rw [hcall]; rfl)
    refine ⟨k, rfl, fun hfits b hb j hj => wrap_add_le (hbelow b hb j hj) ?_⟩
    have htop := base_le_top ((safe_compileProgram hstart).emissions e he).fits hcall
    exact Nat.lt_of_le_of_lt htop hfits.top

end Programs

/-- `class R`, `class Box<T> { __new__(item: T*, weight: float) }`, `class Crate : Box<R>`,
`scale(x: float, y: int): float`, and
`main() { const r = new R(); scale(1, 2); new Crate(r, 1) }`. -/
def callingProgram : Program :=
  let type (name : String) := TypeExpr.named name [] .unknown
  let param (name : String) (t : TypeExpr) : Param := ⟨name, t, .unknown⟩
  let int (n : Int64) := Expr.literal (.int n) .unknown
  let name (n : String) := Expr.name n .unknown
  let run (e : Expr) := Stmt.expr e .unknown
  let function (n : String) (params : List Param) (result : Option TypeExpr) (body : List Stmt) :
    FunctionDecl := ⟨⟨n, .unknown⟩, params, result, some body, false, false, .unknown⟩
  ⟨[⟨"", [
    .require ⟨"malloc", .unknown⟩,
    Dispatch.sampleClass "R" false [] [],
    .classDecl ⟨⟨"Box", .unknown⟩, [⟨"T", none⟩], [], [], [
      function "__new__" [param "item" (.pointer (type "T") .unknown), param "weight" (type "float")]
        none []], false, .unknown⟩,
    .classDecl ⟨⟨"Crate", .unknown⟩, [], [.named "Box" [type "R"] .unknown], [], [], false, .unknown⟩,
    .function (function "scale" [param "x" (type "float"), param "y" (type "int")]
      (some (type "float")) [.ret (some (name "x")) .unknown]),
    .function (function "main" [] none [
      .declare ⟨⟨"r", .unknown⟩, none, some (.newObject (type "R") [] .unknown), true, .unknown⟩,
      run (.call (name "scale") [int 1, int 2] .unknown),
      run (.newObject (type "Crate") [name "r", int 1] .unknown)])]⟩]⟩

/-- A function is called with a converted argument, and a constructor that the class inherits; the
storage never outgrows 32 bits. -/
theorem direct_calls_agree_inherited : ∃ c c', Compilation.start {} = .ok c ∧
    Yields (compileProgram callingProgram) c () c' ∧
    (∃ x ∈ c'.listing.functions.toList, .callFn "$scale" (.frame 16) ∈ x.code.toList ∧
      .callFn "$Box.__new__" (.frame 32) ∈ x.code.toList) ∧
    (∀ e ∈ emissions (compileProgram callingProgram) c, ∀ d : Compilation,
      d.registry = c'.registry → d.scopes = e.scopes → AgreesAt c' d) ∧
    (∃ s id, c'.registry.function? id = some s ∧
      DirectStart c'.registry s c'.listing.entry.toList ∧ c'.Receives s) ∧
    ∀ e ∈ emissions (compileProgram callingProgram) c, ∀ name base, e.instr = .callFn name base →
      ∃ k, base = .frame k ∧ e.extent.Representable e.registry ∧
        ∀ b, e.scopes.Binds b → b.EndsBelowWrapped c'.registry k := by
  have hok : callingProgram.compilesTo (fun c => c.listing.functions.toList.any fun x =>
      decide (.callFn "$scale" (.frame 16) ∈ x.code.toList ∧
        .callFn "$Box.__new__" (.frame 32) ∈ x.code.toList)) = true := by
    decide +kernel
  have hsmall : ((Compilation.start {}).toOption.any fun c =>
      decide (∀ e ∈ emissions (compileProgram callingProgram) c,
        e.extent.Representable e.registry)) = true := by decide +kernel
  obtain ⟨c, c', hstart, hrun, hcheck⟩ := Program.exists_of_compilesTo hok
  obtain ⟨x, hx, hcalls⟩ := List.any_eq_true.mp hcheck
  rw [hstart] at hsmall
  have hsmall := of_decide_eq_true hsmall
  obtain ⟨hagrees, hstarts, hbelow⟩ := direct_calls_agree hstart hrun
  refine ⟨c, c', hstart, hrun, ⟨x, hx, of_decide_eq_true hcalls⟩, hagrees, hstarts, ?_⟩
  intro e he name base hcall
  obtain ⟨k, hbase, hends⟩ := hbelow e he name base hcall
  exact ⟨k, hbase, hsmall e he, hends (hsmall e he)⟩

/-- Below two locals that take more bytes than 32 bits count, a function is called with a frame that
starts in the middle of the first one. -/
theorem direct_calls_agree_fails_twoGiants : ∃ c c', Compilation.start {} = .ok c ∧
    Yields (compileProgram twoGiants) c () c' ∧
    ∃ e ∈ emissions (compileProgram twoGiants) c,
      e.instr = .callFn "m$g" (.frame 4581298448) ∧ wrap 4581298448 = 286331152 ∧
        ∃ b, e.scopes.Binds b ∧ e.registry.storageOf b = (.frame 0, 2290649224) ∧
          ¬b.EndsBelowWrapped e.registry 4581298448 := by
  have hok : ((Compilation.start {}).toOption.any fun c =>
      (emissions (compileProgram twoGiants) c).any fun e =>
        decide (e.instr = .callFn "m$g" (.frame 4581298448)) && (e.scopes.homes "a").any fun h =>
          decide ((h.slot.address, e.registry.length h.slot.type) = (.frame 0, 2290649224))) =
      true := by decide +kernel
  have hcompiles : twoGiants.compilesTo (fun _ => true) = true := by decide +kernel
  obtain ⟨c, c', hstart, hrun, -⟩ := Program.exists_of_compilesTo hcompiles
  rw [hstart] at hok
  obtain ⟨e, he, hmatch⟩ := List.any_eq_true.mp hok
  obtain ⟨hinstr, hhome⟩ := (Bool.and_eq_true _ _).mp hmatch
  obtain ⟨h, hmem, hhome⟩ := List.any_eq_true.mp hhome
  obtain ⟨b, hb, rfl⟩ := Scopes.exists_binds_of_mem_homes hmem
  have hstorage : e.registry.storageOf b = (.frame 0, 2290649224) := of_decide_eq_true hhome
  refine ⟨c, c', hstart, hrun, e, he, of_decide_eq_true hinstr, by decide, b, hb, hstorage,
    fun hbelow => ?_⟩
  obtain ⟨haddress, hlength⟩ := Prod.mk.inj hstorage
  have hle := hbelow 0 haddress
  rw [hlength] at hle
  exact absurd hle (by decide)

end ClassLang
