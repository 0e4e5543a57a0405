import ClassLang.Proofs.Link.Closed
import ClassLang.Proofs.Lowering.Functions

/-!
# The output links

Every function of an accepted program that is not abstract gets a section under its linkable name.
Linkable names are different, so the name of such a function is that of exactly one section. All
that code and method tables refer to are names of such functions.
-/

-- The instances of long steps are large terms.
set_option synthInstance.maxSize 1000

namespace ClassLang

open CompileM Lowering

variable {b c c' : Compilation}

namespace Bodies

/-! ## Function bodies -/

instance : Framed (KeepsClosed b) where
  template name _ span := closes_define (d := .typeParam _) trivial name span

theorem Listing.mem_sections_addFunction {l : Listing} {s : Section} {code : List Instr} :
    code ∈ (l.addFunction s).sections ↔ code = s.code.toList ∨ code ∈ l.sections := by
  simp [Listing.sections, Listing.addFunction, or_left_comm]

/-- A function that is compiled is closed, whatever code there was before it. -/
theorem backed_compileBody {id : Nat} {body : PendingBody} {u : Unit} (hc : Backed b c)
    (h : Yields (compileBody id body) c u c') : Backed b c' := by
  simp only [compileBody, yields_bind, yields_askRegistry] at h
  obtain ⟨s, c, ⟨_, rfl⟩, h⟩ := h
  split at h
  · rw [yields_throw] at h
    exact h.elim
  · simp only [yields_bind, yields_modify] at h
    obtain ⟨code, c₁, hmodule, rfl⟩ := h
    obtain ⟨c₂, scope, scopes, hrun, hpop, rfl⟩ := inModule_spec hmodule
    simp only [yields_bind, yields_modifyFrame, yields_updateFrame] at hrun
    obtain ⟨_, _, rfl, _, c₃, hresult, _, c₄, hcode, _, c₅, hfinish, rfl, rfl⟩ := hrun
    have hstart : Closed b { c.entered body.path with
        frame := (c.entered body.path).frame.beginFunction } :=
      { (Modular.enter body.path hc).with_frame _ with
        code := fun _ hn => absurd hn List.not_mem_nil }
    have hend := hfinish.preserves (hcode.preserves (hresult.preserves hstart))
    have hleft := Modular.leave (I := Backed b) body.path c.path hpop
      (hend.toBacked.with_frame c₅.frame.takeCode.2)
    refine { hleft with sections := ?_ }
    intro code hmem
    rcases Listing.mem_sections_addFunction.mp hmem with rfl | hmem
    · exact hend.code
    · exact hleft.sections code hmem

/-! ## Sections -/

/-- The linkable name of a function whose body waits to be compiled. -/
def queuedName? (b : Compilation) (id : Nat) : Option String :=
  (b.bodies.find? id).bind fun _ => (b.registry.function? id).map (·.mangled)

/-- Every queued body gets a section, under the linkable name of its function. -/
theorem compileBodies_spec {ids : List Nat} {n : Nat} (hc : Backed b c)
    (h : Yields (compileBodies ids) c n c') :
    Backed b c' ∧ c'.listing.functions.toList.map (·.mangled) =
      c.listing.functions.toList.map (·.mangled) ++ ids.filterMap (queuedName? b) := by
  induction ids generalizing c n with
  | nil =>
    rw [compileBodies, yields_pure] at h
    obtain ⟨_, rfl⟩ := h
    exact ⟨hc, by simp⟩
  | cons id rest ih =>
    simp only [compileBodies, yields_bind, yields_get] at h
    obtain ⟨_, c, ⟨rfl, rfl⟩, h⟩ := h
    split at h
    · rename_i hnone
      obtain ⟨hrest, hnames⟩ := ih hc h
      have hqueued : queuedName? b id = none := by
        rw [queuedName?, ← hc.bodies, hnone, Option.bind_none]
      exact ⟨hrest, by rw [hnames, List.filterMap_cons_none hqueued]⟩
    · rename_i body hbody
      simp only [yields_bind, yields_pure] at h
      obtain ⟨_, c₁, hcompile, _, _, hrest, _, rfl⟩ := h
      obtain ⟨s, _, _, _, _, _, _, hs, _, hcompiled⟩ := yields_compileBody hcompile
      obtain ⟨hend, hnames⟩ := ih (backed_compileBody hc hcompile) hrest
      have hqueued : queuedName? b id = some s.mangled := by
        rw [queuedName?, ← hc.bodies, hbody, Option.bind_some, ← hc.registry,
          Registry.getFunction_eq_ok.mp hs, Option.map_some]
      refine ⟨hend, ?_⟩
      rw [hnames, List.filterMap_cons_some hqueued, hcompiled.listing]
      simp [Listing.addFunction]

/-! ## The entry section -/

instance : Modular (Closed b) where
  enter path h := { Modular.enter path h.toBacked with code := h.code }
  leave path before hpop h := { Modular.leave path before hpop h.toBacked with code := h.code }

instance (g : PendingGlobal) : Preserves (Closed b) (initGlobal g) := by
  unfold initGlobal
  split <;> infer_instance

/-- The entry point is one of the functions with the name given for it, and can start a program. -/
theorem entryPoint_spec {s : Signature} (h : Yields entryPoint c s c') :
    ∃ ids span, c.scopes.find? c.options.entryPoint = some ⟨.functions ids, span⟩ ∧
      canStart s = true ∧ ∃ id ∈ ids, c.registry.function? id = some s := by
  simp only [entryPoint, yields_bind, yields_get] at h
  obtain ⟨_, _, ⟨rfl, rfl⟩, _, c, ⟨rfl, rfl⟩, h⟩ := h
  split at h
  · simp at h
  · rename_i ids span hfind
    simp only [yields_bind] at h
    obtain ⟨overloads, c₁, hoverloads, h⟩ := h
    have hall := Registration.yields_mapM_registry
      (P := fun r t => ∃ id ∈ ids, r.function? id = some t) (fun id hid _ _ _ ht =>
        ⟨id, hid, Registry.getFunction_eq_ok.mp (yields_askRegistry.mp ht).1⟩) hoverloads
    split at h
    · rename_i only honly
      obtain ⟨hmem, hcan⟩ := List.mem_filter.mp (honly ▸ List.mem_singleton_self only)
      rw [yields_pure] at h
      rw [h.1]
      exact ⟨ids, span, hfind, hcan, hall only hmem⟩
    · simp at h
    · simp at h
  · simp at h

/-- The entry point is a free function. -/
theorem links_of_entryPoint {s : Signature} (hc : Backed b c) (h : Yields entryPoint c s c') :
    b.registry.Links s.mangled := by
  obtain ⟨ids, span, hfind, _, id, hid, hs⟩ := entryPoint_spec h
  have hbody : b.registry.HasBody id := hc.hasBodies_of_find? hfind id hid
  exact hbody.links (hc.registry ▸ Registry.getFunction_eq_ok.mpr hs)

theorem backed_compileEntry {u : Unit} (hc : Backed b c) (h : Yields compileEntry c u c') :
    Backed b c' := by
  obtain ⟨c₁, s, a, c₂, c₃, hglobals, hentry, hresult, hstart, rfl⟩ := compileEntry_spec h
  have hbegin : Closed b { c with frame := c.frame.beginFunction } :=
    { hc.with_frame _ with code := fun _ hn => absurd hn List.not_mem_nil }
  have hinit : Closed b c₁ := hglobals.preserves hbegin
  have hcall : ∀ region,
      Has (KeepsClosed b) (emit (.callFn s.mangled c₁.frame.topAddress) region) := fun _ =>
    ⟨closes_emit fun _ hn => Option.some.inj hn ▸ links_of_entryPoint hinit.toBacked hentry⟩
  have hrun : Has (KeepsClosed b) (startProgram s c₁.frame.topAddress) := by
    unfold startProgram
    infer_instance
  have hend := hstart.preserves (hresult.preserves hinit)
  refine { hend.toBacked with sections := ?_ }
  intro code hmem
  rcases List.mem_append.mp hmem with hmem | hmem
  · exact hend.sections code (List.mem_append_left _ hmem)
  · exact List.mem_singleton.mp hmem ▸ hend.code

end Bodies

/-! ## Accepted programs -/

/-- The linkable names of the functions that have a section, in the order of the sections. -/
def Listing.names (l : Listing) : List String := l.functions.toList.map (·.mangled)

/-- What a slot is bound to is the function of a method that is not abstract. -/
theorem Dispatch.Tables.bindsBodies {r : Registry} (ht : Dispatch.Tables r) : r.BindsBodies := by
  intro h k hk slot id hmem
  obtain ⟨own, inh, htabled, _⟩ := ht.tabled hk
  obtain ⟨rank, _, m, hfor, heq⟩ := exists_right_of_forall₂ htabled.bound.flip hmem
  injection heq with hslot hbound
  obtain ⟨_, a, _, A, _, hA, hmA, _⟩ := Dispatch.firstDeclared_of_methodFor? ht.hierarchy hk hfor
  obtain ⟨own', _, htabled', hsigned⟩ := ht.tabled hA
  obtain ⟨o, ho, slot', more, rfl⟩ := exists_right_of_forall₂ htabled'.methods_eq.flip hmA
  obtain ⟨s, hs, hdesc⟩ := (hsigned o ho).signature
  unfold Dispatch.bound at hbound
  split at hbound
  · cases hbound
  · rename_i habstract
    injection hbound with hbound
    exact ⟨s, hbound ▸ hs, hdesc.isAbstract.trans (Bool.eq_false_iff.mpr habstract)⟩

namespace Registration

variable {p : Program}

/-- What a name stands for outside of classes has bodies. -/
theorem Complete.all_hasBodies (hc : Complete p c) {V : Binding → Prop} {x : Scope}
    (hx : x.Outer c.registry V) : x.All (·.HasBodies c.registry) := by
  intro name e he
  have hmeaning := hx name e he
  cases hd : e.meaning with
  | functions ids =>
    rw [hd] at hmeaning
    intro id hid
    obtain ⟨s, hs, _, hmethod⟩ := hmeaning.2 id hid
    cases howner : s.owner with
    | module path => exact ⟨s, hs, (hc.registered hs).free path howner⟩
    | classOf h =>
      rw [Signature.isMethod, howner] at hmethod
      cases hmethod
  | _ => trivial

/-- When registration is complete, whatever is visible has a body. -/
theorem Complete.backed (hc : Complete p c) (hlisting : c.listing = .empty) : Backed c c where
  registry := rfl
  bodies := rfl
  bound := hc.tables.bindsBodies
  scopes x hx := hc.all_hasBodies (hc.completing.1.1.scopes x hx)
  modules path x hx := hc.all_hasBodies (hc.completing.1.1.modules path x hx)
  sections code hcode n hn := by
    rw [hlisting] at hcode
    obtain rfl : code = [] := List.mem_singleton.mp hcode
    cases hn

theorem Complete.exists_id (hc : Complete p c) {s : Signature}
    (hs : s ∈ c.registry.functions.toList) : c.registry.function? s.id = some s := by
  obtain ⟨id, hid⟩ := Array.mem_iff_getElem?.mp (Array.mem_toList_iff.mp hs)
  exact (hc.registered hid).id_eq ▸ hid

theorem Complete.nodup_ids (hc : Complete p c) :
    (c.registry.functions.toList.map (·.id)).Nodup :=
  LinkName.nodup_ids fun hs => (hc.registered hs).id_eq

variable (hc : Complete p c) (hnames : ∀ n ∈ p.names, IsIdentifier n)
  (hhash : LinkName.Distinguishes c.registry)

include hc hnames hhash

/-- Functions with the same linkable name are the same. -/
theorem Complete.mangled_inj {id id' : Nat} {s s' : Signature}
    (hs : c.registry.function? id = some s) (hs' : c.registry.function? id' = some s')
    (h : s.mangled = s'.mangled) : id = id' := by
  obtain ⟨r, hids, hassign⟩ := hc.assigned
  exact LinkName.mangled_inj hc hnames (LinkName.assigned_of_assignAll hids hassign) hhash hs hs' h

/-- Linkable names are different. -/
theorem Complete.nodup_mangled : (c.registry.functions.toList.map (·.mangled)).Nodup := by
  refine List.Nodup.map_on ?_ (List.Nodup.of_map _ hc.nodup_ids)
  intro s hs s' hs' h
  have hs := hc.exists_id hs
  have hs' := hc.exists_id hs'
  have hid := hc.mangled_inj hnames hhash hs hs' h
  rw [hid, hs'] at hs
  injection hs with hs
  exact hs.symm

/-- Every function that is not abstract has one section under its name. -/
theorem Complete.count_queued {n : String} (hn : c.registry.Links n) :
    ((c.registry.functions.toList.map (·.id)).filterMap (Bodies.queuedName? c)).count n = 1 := by
  obtain ⟨id, s, hs, habstract, rfl⟩ := hn
  obtain ⟨body, hbody⟩ := hc.completing.2 id s hs habstract
  refine List.count_eq_one_of_mem ?_ (List.mem_filterMap.mpr ⟨id, ?_, ?_⟩)
  · refine List.Nodup.filterMap ?_ hc.nodup_ids
    intro id id' name hid hid'
    obtain ⟨_, _, hname⟩ := Option.bind_eq_some_iff.mp hid
    obtain ⟨_, _, hname'⟩ := Option.bind_eq_some_iff.mp hid'
    obtain ⟨t, ht, rfl⟩ := Option.map_eq_some_iff.mp hname
    obtain ⟨t', ht', heq⟩ := Option.map_eq_some_iff.mp hname'
    exact hc.mangled_inj hnames hhash ht ht' heq.symm
  · exact List.mem_map.mpr ⟨s, Array.mem_toList_iff.mpr (Array.mem_of_getElem? hs),
      (hc.registered hs).id_eq⟩
  · rw [Bodies.queuedName?, hbody, Option.bind_some, hs, Option.map_some]

end Registration

/-- The output of a program that compiles links: functions have different linkable names, and every
function that an instruction or a bound slot names has one section under this name. It is assumed
that declared names are identifiers, and that the hash in the suffix of overloads tells apart the
parameters of those that share a name. -/
theorem output_links {o : Options} {p : Program} (hstart : Compilation.start o = .ok c)
    (h : Yields (compileProgram p) c () c') (hnames : ∀ n ∈ p.names, IsIdentifier n)
    (hhash : LinkName.Distinguishes c'.registry) :
    (c'.registry.functions.toList.map (·.mangled)).Nodup ∧
      (∀ code ∈ c'.listing.sections, ∀ n ∈ Machine.links code, c'.listing.names.count n = 1) ∧
      ∀ h k, c'.registry.class? h = some k → ∀ slot id, (slot, some id) ∈ k.vtable →
        c'.listing.names.count (Listing.targetName c'.registry (some id)) = 1 := by
  simp only [compileProgram, Bodies.run, yields_bind, yields_get, yields_pure] at h
  obtain ⟨_, c₁, hregister, _, c₂, ⟨_, c₁, ⟨rfl, rfl⟩, _, c₃, hbodies, _, c₄, hentry, _, rfl⟩, _,
    rfl⟩ := h
  have hempty : c₁.listing = .empty := by
    rw [hregister.keeps (f := Compilation.listing)]
    simp only [Compilation.start, except_bind_eq_ok, except_pure_eq_ok] at hstart
    obtain ⟨_, _, _, _, rfl⟩ := hstart
    rfl
  have hc := Registration.complete_of_run hstart hnames hregister
  obtain ⟨hbacked, hsections⟩ := Bodies.compileBodies_spec (hc.backed hempty) hbodies
  have hend := Bodies.backed_compileEntry hbacked hentry
  rw [hend.registry] at hhash ⊢
  have hcount : ∀ {n}, c₁.registry.Links n → c'.listing.names.count n = 1 := by
    intro n hn
    obtain ⟨_, _, _, _, _, hlisting⟩ := Bodies.yields_compileEntry hentry
    rw [Listing.names, hlisting, hsections, hempty]
    exact hc.count_queued hnames hhash hn
  refine ⟨hc.nodup_mangled hnames hhash,
    fun code hcode n hn => hcount (hend.sections code hcode n hn), fun h k hk slot id hmem => hcount ?_⟩
  obtain ⟨s, hs, habstract⟩ := hend.bound hk slot id hmem
  refine ⟨id, s, hs, habstract, ?_⟩
  rw [Listing.targetName, Option.bind_some, hs, Option.map_some, Option.getD_some]

/-- Two overloads, an abstract method and its implementation, and a function that is used as a
value: `g(x: int)`, `g(x: float)`, `h()`, an abstract class `A` and `class B : A` with a method `f`,
and `main() { var v = h; v(); g(1); var b: B; b.f() }`. -/
def linkedProgram : Program :=
  let type (name : String) := TypeExpr.named name [] .unknown
  let name (n : String) := Expr.name n .unknown
  let run (callee : Expr) (args : List Expr) := Stmt.expr (.call callee args .unknown) .unknown
  let function (n : String) (params : List Param) (body : List Stmt) :=
    Item.function ⟨⟨n, .unknown⟩, params, none, some body, false, false, .unknown⟩
  ⟨[⟨"", [
    Dispatch.sampleClass "A" true [] [Dispatch.sampleMethod "f" true none],
    Dispatch.sampleClass "B" false ["A"] [Dispatch.sampleMethod "f" false none],
    function "g" [⟨"x", type "int", .unknown⟩] [],
    function "g" [⟨"x", type "float", .unknown⟩] [],
    function "h" [] [],
    function "main" [] [
      .declare ⟨⟨"v", .unknown⟩, none, some (name "h"), false, .unknown⟩,
      run (name "v") [],
      run (name "g") [.literal (.int 1) .unknown],
      .declare ⟨⟨"b", .unknown⟩, some (type "B"), none, false, .unknown⟩,
      run (.member (name "b") ⟨"f", .unknown⟩ .unknown) []]]⟩]⟩

/-- The program compiles and links; five functions have sections, and four of them are named. -/
theorem output_links_program : ∃ c c', Compilation.start {} = .ok c ∧
    Yields (compileProgram linkedProgram) c () c' ∧
    (∀ n ∈ linkedProgram.names, IsIdentifier n) ∧ LinkName.Distinguishes c'.registry ∧
    c'.listing.names.length = 5 ∧
    (c'.listing.sections.flatMap Machine.links).length = 4 ∧
    (c'.registry.functions.toList.map (·.mangled)).Nodup ∧
    (∀ code ∈ c'.listing.sections, ∀ n ∈ Machine.links code, c'.listing.names.count n = 1) ∧
    ∀ h k, c'.registry.class? h = some k → ∀ slot id, (slot, some id) ∈ k.vtable →
      c'.listing.names.count (Listing.targetName c'.registry (some id)) = 1 := by
  have hnames : ∀ n ∈ linkedProgram.names, IsIdentifier n := by decide
  have hok : (match Compilation.start {} with
      | .ok c => match (compileProgram linkedProgram).run.run c with
        | (.ok (), c') => decide (LinkName.Distinguishes c'.registry ∧ c'.listing.names.length = 5 ∧
            (c'.listing.sections.flatMap Machine.links).length = 4)
        | _ => false
      | .error _ => false) = true := by decide +kernel
  cases hstart : Compilation.start {} with
  | error e =>
    rw [hstart] at hok
    cases hok
  | ok c =>
    rw [hstart] at hok
    dsimp only at hok
    cases hrun : (compileProgram linkedProgram).run.run c with
    | mk outcome c' =>
      rw [hrun] at hok
      cases outcome with
      | error e => cases hok
      | ok u =>
        obtain ⟨hhash, hnumber, hlinks⟩ := of_decide_eq_true hok
        have hlinked := output_links hstart hrun hnames hhash
        exact ⟨c, c', rfl, hrun, hnames, hhash, hnumber, hlinks, hlinked⟩

end ClassLang
