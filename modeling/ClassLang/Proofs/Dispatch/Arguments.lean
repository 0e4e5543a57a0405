import ClassLang.Proofs.Dispatch.CallFrame
import ClassLang.Proofs.Lowering.Overload
import ClassLang.Proofs.Lowering.Recorded
import ClassLang.Proofs.Registration.Waiting
import ClassLang.Proofs.Safety.Bodies

/-!
# Caller and callee of a direct call agree on the frame

A function that is called by its name is known when the call is compiled: a free function, the
constructor in `new`, the entry point. The caller converts every argument to the type of the
parameter and stores the receiver and the arguments behind the result, from the top of its own frame
on. The function was compiled from the same signature, and placed its receiver and its parameters in
the same order and with the same lengths. A constructor may be inherited, and then the caller sees
its parameters in terms of the class it creates; but rewriting types does not change how they are
stored.
-/

-- The instances of long steps are large terms.
set_option synthInstance.maxSize 1000

namespace ClassLang

open CompileM Lowering

/-! ## The region of a function -/

/-- The lengths of the receiver and the parameters of a function. -/
def Registry.slotLengths (r : Registry) (s : Signature) : List Nat :=
  (if s.isMethod then [r.pointerSize] else []) ++ s.params.map r.length

/-- Their offsets in the frame: they follow the result. -/
def Registry.slotOffsets (r : Registry) (s : Signature) : List Nat :=
  offsetsFrom (r.length s.result) (r.slotLengths s)

/-- The length of the result, the receiver and the parameters together. -/
def Registry.regionLength (r : Registry) (s : Signature) : Nat :=
  r.length s.result + (r.slotLengths s).sum

/-- What the receiver and the parameters are called in the body. -/
def Signature.slotNames (s : Signature) : List String :=
  (if s.isMethod then ["this"] else []) ++ s.paramNames

/-! ## Arguments -/

section Arguments

variable {c c' : Compilation} {args vs : List Slot} {params : List Ty} {spans : List Span}

theorem type_of_coerce {value slot : Slot} {target : Ty} {span : Span}
    (h : Yields (coerce value target span) c slot c') : slot.type = target := by
  simp only [coerce, checkConversion, yields_bind, yields_get, and_assoc, exists_and_left,
    exists_eq_left] at h
  obtain ⟨k, c₁, hcheck, h⟩ := h
  have hk : c.registry.conversion? value.type target = some k := by
    split at hcheck
    · simp at hcheck
    · rename_i k' hk'
      split at hcheck <;> simp only [yields_bind, yields_pure] at hcheck
      · obtain ⟨_, _, _, rfl, _⟩ := hcheck
        exact hk'
      · obtain ⟨rfl, _⟩ := hcheck
        exact hk'
  split at h
  · rename_i hexact
    obtain ⟨rfl, _⟩ := yields_pure.mp h
    have hlengths := Registry.conversion?_lengths hk
    rwa [show k.kind = .identity from of_decide_eq_true hexact] at hlengths
  · simp only [yields_bind, yields_pure] at h
    obtain ⟨_, _, _, _, _, _, rfl, _⟩ := h
    rfl

/-- Arguments that are converted have the types of the parameters. -/
theorem types_of_coerceArgs (hparams : args.length = params.length)
    (hspans : args.length = spans.length) (h : Yields (coerceArgs args params spans) c vs c') :
    vs.map (·.type) = params := by
  induction args generalizing params spans vs c with
  | nil =>
    obtain rfl := List.length_eq_zero_iff.mp hparams.symm
    obtain ⟨rfl, _⟩ := yields_pure.mp h
    rfl
  | cons arg args ih =>
    obtain ⟨param, params, rfl⟩ := List.exists_cons_of_length_eq_add_one hparams.symm
    obtain ⟨span, spans, rfl⟩ := List.exists_cons_of_length_eq_add_one hspans.symm
    simp only [coerceArgs, yields_bind, yields_pure] at h
    obtain ⟨v, c₁, hfirst, vs, c₂, hrest, rfl, rfl⟩ := h
    rw [List.map_cons, type_of_coerce hfirst,
      ih (Nat.succ.inj hparams) (Nat.succ.inj hspans) hrest]

theorem length_of_values : ∀ {es : List Expr} {c c' : Compilation} {vs : List Slot},
    Yields (values es) c vs c' → vs.length = es.length
  | [], c, c', vs, h => by
    obtain ⟨rfl, _⟩ := yields_pure.mp h
    rfl
  | e :: es, c, c', vs, h => by
    simp only [values, yields_bind, yields_pure] at h
    obtain ⟨_, _, _, vs, _, hrest, rfl, _⟩ := h
    exact congrArg (· + 1) (length_of_values hrest)

/-- What is chosen is one of the candidates, with a parameter for every argument. -/
theorem select_spec {κ : Type} {name : String} {cs : List (Candidate κ)} {span : Span} {fit : Fit κ}
    (h : Yields (select name cs args span) c fit c') :
    c' = c ∧ fit.params.length = args.length ∧
      ∃ k ∈ cs, fit.key = k.key ∧ fit.params = k.params := by
  rw [select, yields_askRegistry] at h
  refine ⟨h.2, ?_, Overload.resolve_eq_ok h.1⟩
  rw [Overload.length_params_of_resolve h.1, List.length_map]

theorem functionCandidates_spec {ids : List Nat} {cs : List (Candidate Nat)}
    (h : Yields (functionCandidates ids) c cs c') : ∀ k ∈ cs, k.key ∈ ids ∧
      ∃ s, c.registry.function? k.key = some s ∧ k.params = s.params := by
  refine Registration.yields_mapM_registry (P := fun r k => k.key ∈ ids ∧
    ∃ s, r.function? k.key = some s ∧ k.params = s.params) (fun id hid c₁ k c₂ hk => ?_) h
  simp only [yields_bind, yields_askRegistry, yields_pure] at hk
  obtain ⟨s, _, ⟨hs, _⟩, rfl, _⟩ := hk
  exact ⟨hid, s, Registry.getFunction_eq_ok.mp hs, rfl⟩

theorem selectMethod_spec {t : Ty} {name : String} {span : Span} {fit : Fit Nat}
    (h : Yields (selectMethod t name args span) c fit c') :
    c' = c ∧ fit.params.length = args.length ∧
      ∃ k ∈ c.registry.methodsNamed t name, fit.key = k.slot ∧ fit.params = k.params := by
  simp only [selectMethod, yields_bind, yields_get, and_assoc, exists_and_left,
    exists_eq_left] at h
  split at h
  · simp at h
  · obtain ⟨hc, hlength, k, hk, hfit⟩ := select_spec h
    obtain ⟨rank, hrank, rfl⟩ := List.mem_map.mp hk
    exact ⟨hc, hlength, rank, hrank, hfit⟩

theorem implementation_spec {t : Ty} {name : String} {slot : Nat} {span : Span} {s : Signature}
    (h : Yields (implementation t name slot span) c s c') :
    c' = c ∧ ∃ hash k id, t.classHash? = some hash ∧ c.registry.class? hash = some k ∧
      k.implementation? slot = some (some id) ∧ c.registry.function? id = some s := by
  unfold implementation at h
  split at h
  · simp at h
  · rename_i hash hhash
    simp only [yields_bind, yields_askRegistry, Registry.getClass_eq_ok] at h
    obtain ⟨k, _, ⟨hk, rfl⟩, h⟩ := h
    split at h
    · rename_i id hid
      simp only [yields_askRegistry, Registry.getFunction_eq_ok] at h
      exact ⟨h.2, hash, k, id, hhash, hk, hid, h.1⟩
    · simp at h
    · simp at h

end Arguments

/-- Lengths depend on how types are stored. -/
theorem Registry.lengths_eq (r : Registry) (ts : List Ty) :
    ts.map r.length = (ts.map Ty.storage).map r.storageLength := by
  rw [List.map_map]
  exact List.map_congr_left fun t _ => r.length_eq t

/-- The method that a class has in a slot is a method whose parameters are stored like those that
the class shows, also after its template parameters are replaced. -/
theorem Dispatch.Tables.implementation_lengths {r : Registry} (ht : Tables r) {h : TypeHash}
    {k : Class} (hk : r.class? h = some k) {rank : Rank} (hrank : rank ∈ k.ranks) {id : Nat}
    {s : Signature} (hid : k.implementation? rank.slot = some (some id))
    (hs : r.function? id = some s) (names : List String) (args : List Ty) : s.isMethod = true ∧
      (Ty.substituteAll names args rank.params).map r.length = s.params.map r.length := by
  have hsees := Class.sees_iff.mpr ⟨rank, hrank, rfl⟩
  obtain ⟨m, hm, rfl⟩ := ht.firstDeclared_of_bound hk hsees hid
  obtain ⟨b, B, sig, _, hB, _, _, hsig, howner, _, hmem⟩ := ht.firstDeclared_rank hm
  rw [hs] at hsig
  injection hsig with hsig
  subst hsig
  obtain ⟨k₀, hshown, hbound⟩ := ht.exists_sameStorage hk hB hrank hmem rfl
  refine ⟨by rw [Signature.isMethod, howner], ?_⟩
  calc (Ty.substituteAll names args rank.params).map r.length
    _ = rank.params.map r.length := by
      rw [Ty.substituteAll_eq_map, List.map_map]
      refine List.map_congr_left fun t ht => ?_
      show r.length (t.substitute names args) = r.length t
      rw [r.length_eq, (Ty.storage_substitute names args (hshown.noParam.1 t ht)).1, ← r.length_eq]
    _ = s.params.map r.length := by
      rw [r.lengths_eq, r.lengths_eq, hshown.params.trans hbound.params.symm]

/-! ## The caller -/

/-- A function is called with the frame on top of that of the caller: the receiver and the arguments
are stored where the function has its slots for them, and each is as long as its slot. -/
structure DirectCall (r : Registry) (s : Signature) (receiver : Option Address) (args : List Slot)
    (c c' : Compilation) : Prop where
  lengths : (storedValues r receiver args).map (·.2) = r.slotLengths s
  code : c'.frame.code.toList = c.frame.code.toList ++
    storeAt c.frame.top (storedValues r receiver args) (r.slotOffsets s) ++
    [.callFn s.mangled (.frame c.frame.top)]
  top : c'.frame.top = c.frame.top + r.regionLength s

theorem directCall_of_emitCall {r : Registry} {s : Signature} {receiver : Option Address}
    {args : List Slot} {c c' : Compilation} {v : Slot} (hr : c.registry = r)
    (hlengths : (storedValues r receiver args).map (·.2) = r.slotLengths s)
    (h : Yields (emitCall (.function s.mangled) s.result receiver args) c v c') :
    DirectCall r s receiver args c c' := by
  obtain ⟨_, c₁, u, hcode, htop, hcall⟩ := emitCall_stores h
  obtain rfl := yields_emit.mp hcall
  rw [hr, hlengths] at hcode htop
  refine ⟨hlengths, ?_, htop⟩
  rw [Compilation.add_frame, Frame.append_code, hcode]
  rfl

section Calls

variable {c c' : Compilation} {es : List Expr} {span : Span}

/-- A call of a function by its name. -/
theorem direct_callFunction {name : String} {ids : List Nat} {v : Slot}
    (h : Yields (callFunction name ids (values es) (es.map (·.span)) span) c v c') :
    ∃ id ∈ ids, ∃ s vs c₁ as c₂, c.registry.function? id = some s ∧ Yields (values es) c vs c₁ ∧
      Yields (coerceArgs vs s.params (es.map (·.span))) c₁ as c₂ ∧
      (s.isMethod = false → DirectCall c.registry s none as c₂ c') := by
  simp only [callFunction, yields_bind, yields_askRegistry, Registry.getFunction_eq_ok] at h
  obtain ⟨vs, c₁, hvalues, cs, c₂, hcs, fit, c₃, hfit, as, c₄, has, s, c₅, ⟨hs, rfl⟩, hcall⟩ := h
  obtain rfl : c₂ = c₁ := hcs.keeps (f := id)
  obtain ⟨rfl, hlength, k, hk, hkey, hparams⟩ := select_spec hfit
  obtain ⟨hid, t, ht, htparams⟩ := functionCandidates_spec hcs k hk
  have hr₁ : c₃.registry = c.registry := hvalues.keeps
  have hr₂ : c₅.registry = c.registry := (has.keeps : c₅.registry = c₃.registry).trans hr₁
  have hst : s = t := by
    rw [hr₂, hkey, ← hr₁, ht] at hs
    injection hs with hs
    exact hs.symm
  have hfit : fit.params = s.params := by rw [hparams, htparams, hst]
  rw [hfit] at has hlength
  refine ⟨k.key, hid, s, vs, c₃, as, c₅, hst ▸ hr₁ ▸ ht, hvalues, has, fun hfree => ?_⟩
  refine directCall_of_emitCall hr₂ ?_ hcall
  have htypes := types_of_coerceArgs hlength.symm
    (by rw [length_of_values hvalues, List.length_map]) has
  simp only [storedValues, Option.map_none, Option.toList_none, List.nil_append, List.map_map,
    Registry.slotLengths, hfree, Bool.false_eq_true, if_false, ← htypes, Function.comp_def]

/-- A new object is constructed by a call of the constructor that its class has in some slot, unless
the class has none. -/
theorem direct_constructObject {t : Ty} {object : Slot} {u : Unit}
    (ht : Dispatch.Tables c.registry)
    (h : Yields (constructObject t object (values es) (es.map (·.span)) span) c u c') :
    c.registry.methodsNamed t Class.constructorName = [] ∧ es = [] ∧ c' = c ∨
      ∃ hash k rank id s vs c₁ as c₂, t.classHash? = some hash ∧ c.registry.class? hash = some k ∧
        rank ∈ c.registry.methodsNamed t Class.constructorName ∧
        k.implementation? rank.slot = some (some id) ∧ c.registry.function? id = some s ∧
        Yields (values es) c vs c₁ ∧
        Yields (coerceArgs vs rank.params (es.map (·.span))) c₁ as c₂ ∧
        DirectCall c.registry s (some object.address) as c₂ c' := by
  simp only [constructObject, hasMethod, yields_bind, yields_fromRegistry, and_assoc,
    exists_and_left, exists_eq_left] at h
  split at h
  · simp only [yields_bind, yields_pure] at h
    obtain ⟨vs, c₁, hvalues, fit, c₂, hfit, as, c₃, has, s, c₄, himpl, v, c₅, hcall, _, rfl⟩ := h
    obtain ⟨rfl, hlength, rank, hrank, hkey, hparams⟩ := selectMethod_spec hfit
    obtain ⟨rfl, hash, k, id, hhash, hk, hid, hs⟩ := implementation_spec himpl
    have hr₁ : c₂.registry = c.registry := hvalues.keeps
    have hr₂ : c₄.registry = c.registry := (has.keeps : c₄.registry = c₂.registry).trans hr₁
    rw [hr₁] at hrank
    rw [hr₂] at hk hs
    rw [hkey] at hid
    rw [hparams] at has hlength
    have htypes := types_of_coerceArgs hlength.symm
      (by rw [length_of_values hvalues, List.length_map]) has
    -- What is stored is laid out by the rank, and the function that is called agrees with it.
    have hmethod : s.isMethod = true ∧
        rank.params.map c.registry.length = s.params.map c.registry.length := by
      unfold Registry.methodsNamed at hrank
      rw [hhash, Option.bind_some, hk] at hrank
      obtain ⟨rank₀, hrank₀, rfl⟩ := List.mem_map.mp hrank
      exact ht.implementation_lengths hk (List.mem_filter.mp hrank₀).1 hid hs _ _
    refine .inr ⟨hash, k, rank, id, s, vs, c₂, as, c₄, hhash, hk, hrank, hid, hs, hvalues, has, ?_⟩
    refine directCall_of_emitCall hr₂ ?_ hcall
    simp only [storedValues, Option.map_some, Option.toList_some, List.singleton_append,
      List.map_cons, List.map_map, Registry.slotLengths, hmethod.1, if_true, ← hmethod.2, ← htypes,
      Function.comp_def]
  · rename_i hnone
    split at h
    · simp [typeName] at h
    · rename_i hspans
      refine .inl ⟨?_, ?_, (yields_pure.mp h).2⟩
      · simpa using hnone
      · simpa using hspans

/-- `new` constructs the object that it has allocated. -/
theorem direct_newObject {owner : TypeExpr} {object : Slot}
    (h : Yields (newObject owner (values es) (es.map (·.span)) span) c object c') :
    ∃ t c₀ c₁ u, Yields (resolveClass owner) c t c₀ ∧ object.type = .pointer t ∧
      c₁.registry = c.registry ∧
      Yields (constructObject t object (values es) (es.map (·.span)) span) c₁ u c' := by
  unfold newObject at h
  obtain ⟨t, c₁, htype, h⟩ := yields_bind.mp h
  split at h
  · simp at h
  · obtain ⟨k, c₂, hk, h⟩ := yields_bind.mp h
    dsimp only at h
    split at h
    · simp at h
    · obtain ⟨_, c₃, hnative, h⟩ := yields_bind.mp h
      obtain ⟨object, c₄, halloc, h⟩ := yields_bind.mp h
      obtain ⟨u, c₅, hconstruct, h⟩ := yields_bind.mp h
      obtain ⟨rfl, rfl⟩ := yields_pure.mp h
      refine ⟨t, c₁, c₄, u, htype, ?_, ?_, hconstruct⟩
      · unfold allocateObject at halloc
        simp only [yields_bind, yields_pure] at halloc
        obtain ⟨_, _, _, _, _, _, block, _, _, _, _, _, rfl, _⟩ := halloc
        rfl
      · calc c₄.registry
          _ = c₃.registry := halloc.keeps
          _ = c₂.registry := hnative.keeps
          _ = c₁.registry := hk.keeps
          _ = c.registry := htype.keeps

end Calls

/-! ## The callee -/

namespace Bodies

variable {c c' : Compilation} {u : Unit}

/-- Parameters take as much storage as they are long. -/
theorem frame_defineParams {names : List String} {ts : List Ty} {ps : List Param}
    (hts : names.length = ts.length) (hps : ts.length = ps.length)
    (h : Yields (defineParams names ts ps) c u c') :
    c'.frame = c.frame.grow (ts.map c.registry.length).sum := by
  induction names generalizing ts ps c with
  | nil =>
    obtain rfl := List.length_eq_zero_iff.mp hts.symm
    obtain ⟨_, rfl⟩ := yields_pure.mp h
    rfl
  | cons name names ih =>
    obtain ⟨t, ts, rfl⟩ := List.exists_cons_of_length_eq_add_one hts.symm
    obtain ⟨p, ps, rfl⟩ := List.exists_cons_of_length_eq_add_one hps.symm
    simp only [defineParams, yields_bind, yields_allocFor, yields_updateScopes, and_assoc,
      exists_and_left, exists_eq_left] at h
    obtain ⟨_, _, ⟨_, _, rfl⟩, hrest⟩ := h
    rw [ih (Nat.succ.inj hts) (Nat.succ.inj hps) hrest]
    exact Frame.grow_grow ..

/-- Make the receiver and the parameters of a function visible. -/
def prologue (s : Signature) (body : PendingBody) : CompileM Unit := do
  if let some owner := body.owner then defineReceiver owner body.decl.span
  defineParams s.paramNames s.params body.decl.params

theorem prologue_slots {r : Registry} {s : Signature} {body : PendingBody}
    (hr : c.registry = r) (htop : c.frame.top = r.length s.result) (hfits : body.Fits s)
    (h : Yields (prologue s body) c u c') :
    List.Forall₂ (PlacedAt c'.scopes) s.slotNames (r.slotOffsets s) ∧
      c'.frame = c.frame.grow (r.slotLengths s).sum := by
  subst hr
  have hmethod := hfits.isMethod
  unfold prologue at h
  unfold Signature.slotNames Registry.slotOffsets Registry.slotLengths
  rw [hmethod]
  cases howner : body.owner with
  | none =>
    rw [howner] at h
    have h : Yields (defineParams s.paramNames s.params body.decl.params) c u c' := h
    have hplaced := (defineParams_places hfits.length_names hfits.params h).1
    rw [htop] at hplaced
    exact ⟨hplaced, frame_defineParams hfits.length_names hfits.params h⟩
  | some owner =>
    rw [howner] at h
    have h : Yields (do
        defineReceiver owner body.decl.span
        defineParams s.paramNames s.params body.decl.params) c u c' := h
    refine ⟨prologue_region htop hfits.length_names hfits.params h, ?_⟩
    obtain ⟨_, c₁, hreceiver, hparams⟩ := yields_bind.mp h
    obtain ⟨hr₁, hframe₁⟩ : c₁.registry = c.registry ∧
        c₁.frame = c.frame.grow c.registry.pointerSize := by
      simp only [defineReceiver, yields_bind, yields_pointerSize, yields_alloc,
        yields_updateScopes, and_assoc, exists_and_left, exists_eq_left] at hreceiver
      obtain ⟨_, c₂, htemplates, scopes, hscopes, rfl⟩ := hreceiver
      have hr₂ : c₂.registry = c.registry := htemplates.keeps
      have hframe : c₂.frame = c.frame := htemplates.keeps
      refine ⟨hr₂, ?_⟩
      rw [← hr₂, ← hframe]
    -- The receiver takes the first slot, then the parameters follow.
    rw [frame_defineParams hfits.length_names hfits.params hparams, hr₁, hframe₁]
    exact Frame.grow_grow ..

/-- A function finds its receiver and its parameters in its slots: they were placed there when its
statements came to be compiled, and its code begins with the length of the region. -/
structure Receives (r : Registry) (s : Signature) (block : List Stmt) (code : List Instr) : Prop where
  statements : ∃ c c', List.Forall₂ (PlacedAt c.scopes) s.slotNames (r.slotOffsets s) ∧
    c.frame.top = r.regionLength s ∧ c.frame.code.toList = [.args (r.regionLength s)] ∧
    Yields (stmts block) c () c' ∧ ∃ rest, code = c'.frame.code.toList ++ rest
  args : ∃ rest, code = .args (r.regionLength s) :: rest

theorem bodyCode_eq (s : Signature) (body : PendingBody) (block : List Stmt) :
    bodyCode s body block = inScope (bodyScope s body.owner) (do
      prologue s body
      emit (.args (← get).frame.top)
      stmts block) := by
  unfold bodyCode prologue
  cases body.owner with
  | none => rfl
  | some owner => simp only [bind_assoc]

/-- Code is only added behind what was there. -/
theorem code_of_records {α : Type} {m : CompileM α} {a : α} [hm : Has (Records fun _ => True) m]
    (h : Yields m c a c') : ∃ rest, c'.frame.code.toList = c.frame.code.toList ++ rest := by
  have hadmits : c.scopes.Admits fun _ => True := fun x _ _ e _ => by
    cases e.meaning <;> trivial
  obtain ⟨rest, hrest, _⟩ := (hm.out h hadmits).code
  exact ⟨rest, hrest⟩

/-- The statements of a function are compiled when its slots are in place. -/
theorem receives_functionCode {r : Registry} {s : Signature} {body : PendingBody}
    {block : List Stmt} {code : Array Instr} (hr : c.registry = r) (hfits : body.Fits s)
    (h : Yields (functionCode s body block) c code c') : Receives r s block code.toList := by
  subst hr
  unfold functionCode at h
  obtain ⟨_, c₁, hbegin, h⟩ := yields_bind.mp h
  obtain ⟨_, c₂, hresult, h⟩ := yields_bind.mp h
  obtain ⟨_, c₃, hbody, h⟩ := yields_bind.mp h
  obtain ⟨_, c₄, hfinish, htake⟩ := yields_bind.mp h
  obtain rfl := yields_modifyFrame.mp hbegin
  obtain ⟨_, rfl⟩ := yields_allocFor.mp hresult
  obtain ⟨rfl, _⟩ := yields_updateFrame.mp htake
  rw [bodyCode_eq] at hbody
  obtain ⟨c₅, frame, hscope, hrestore, rfl⟩ := yields_inScope hbody
  obtain ⟨_, c₆, hprologue, hrest⟩ := yields_bind.mp hscope
  simp only [yields_bind, yields_get, yields_emit, and_assoc, exists_and_left,
    exists_eq_left] at hrest
  obtain ⟨_, hstmts⟩ := hrest
  obtain ⟨hplaced, hframe⟩ := prologue_slots rfl (Nat.zero_add _) hfits hprologue
  have htop : c₆.frame.top = c.registry.regionLength s := by
    rw [hframe]
    exact congrArg (· + _) (Nat.zero_add _)
  have hempty : c₆.frame.code.toList = [] := by
    rw [hframe]
    rfl
  have hargs : (c₆.add [.args c₆.frame.top]).frame.code.toList =
      [.args (c.registry.regionLength s)] := by
    rw [Compilation.add_frame, Frame.append_code, hempty, htop]
    rfl
  obtain ⟨piece, hpiece⟩ := code_of_records hstmts
  obtain ⟨rest, hrest⟩ := code_of_records hfinish
  -- Leaving the scope gives storage back and keeps the code.
  have hend : c₄.frame.code.toList = c₅.frame.code.toList ++ rest := by
    rw [hrest]
    exact congrArg (·.toList ++ rest) (Frame.code_restore hrestore)
  refine ⟨⟨c₆.add [.args c₆.frame.top], c₅, hplaced, htop, hargs, hstmts, rest, hend⟩,
    piece ++ rest, ?_⟩
  calc c₄.frame.code.toList
    _ = c₅.frame.code.toList ++ rest := hend
    _ = (c₆.add [.args c₆.frame.top]).frame.code.toList ++ piece ++ rest := by rw [hpiece]
    _ = .args (c.registry.regionLength s) :: (piece ++ rest) := by
      rw [hargs, List.append_assoc]
      rfl

end Bodies

end ClassLang
