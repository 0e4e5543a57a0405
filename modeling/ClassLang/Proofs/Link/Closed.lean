import ClassLang.Proofs.Control.Labels
import ClassLang.Proofs.Link.Names
import ClassLang.Proofs.Lowering.Overload
import ClassLang.Proofs.Lowering.Statements

/-!
# Every name is that of a function with a body

Code names functions that it found in the scopes or in the slots of classes. What a free function's
name stands for has a body, and so does what a slot is bound to. So whatever instruction a step
emits, the function it names is one that is compiled.
-/

-- The instances of long steps are large terms.
set_option synthInstance.maxSize 1000

namespace ClassLang

open CompileM Lowering

/-! ## Functions with bodies -/

/-- A function with this number is registered and has a body. -/
def Registry.HasBody (r : Registry) (id : Nat) : Prop :=
  ∃ s, r.function? id = some s ∧ s.isAbstract = false

/-- The name is that of a function with a body. -/
def Registry.Links (r : Registry) (name : String) : Prop :=
  ∃ id s, r.function? id = some s ∧ s.isAbstract = false ∧ s.mangled = name

/-- Slots of classes are bound to functions with bodies. -/
def Registry.BindsBodies (r : Registry) : Prop :=
  ∀ {h k}, r.class? h = some k → ∀ slot id, (slot, some id) ∈ k.vtable → r.HasBody id

/-- What a name stands for has bodies if it is functions. -/
def Meaning.HasBodies (r : Registry) : Meaning → Prop
  | .functions ids => ∀ id ∈ ids, r.HasBody id
  | _ => True

theorem Registry.HasBody.links {r : Registry} {id : Nat} {s : Signature} (h : r.HasBody id)
    (hs : r.getFunction id = .ok s) : r.Links s.mangled := by
  obtain ⟨t, ht, habstract⟩ := h
  rw [Registry.getFunction, ht] at hs
  injection hs with hs
  exact ⟨id, s, hs ▸ ht, hs ▸ habstract, rfl⟩

/-! ## Names in code -/

namespace Machine

/-- The functions that some code names. -/
def links (code : List Instr) : List String := code.filterMap Instr.link?

@[simp]
theorem links_append (code more : List Instr) : links (code ++ more) = links code ++ links more :=
  List.filterMap_append

theorem links_singleton {i : Instr} {n : String} (h : n ∈ links [i]) : i.link? = some n := by
  obtain ⟨j, hj, hlink⟩ := List.mem_filterMap.mp h
  exact List.mem_singleton.mp hj ▸ hlink

end Machine

/-- Functions that are visible, bound or named by a section so far have bodies. Registration was
complete in `b`. -/
structure Backed (b c : Compilation) : Prop where
  registry : c.registry = b.registry
  bodies : c.bodies = b.bodies
  bound : b.registry.BindsBodies
  scopes : ∀ x ∈ c.scopes.chain, x.All (·.HasBodies b.registry)
  modules : ∀ path x, c.moduleScopes.find? path = some x → x.All (·.HasBodies b.registry)
  sections : ∀ code ∈ c.listing.sections, ∀ n ∈ Machine.links code, b.registry.Links n

/-- So do those that the code of the current function names. -/
structure Closed (b c : Compilation) : Prop extends Backed b c where
  code : ∀ n ∈ Machine.links c.frame.code.toList, b.registry.Links n

variable {b c c' : Compilation}

namespace Backed

theorem of_context (h : Backed b c) (hcontext : c'.context = c.context) : Backed b c' where
  registry := (congrArg Compilation.registry hcontext :).trans h.registry
  bodies := (congrArg Compilation.bodies hcontext :).trans h.bodies
  bound := h.bound
  scopes := (congrArg Compilation.scopes hcontext :) ▸ h.scopes
  modules := (congrArg Compilation.moduleScopes hcontext :) ▸ h.modules
  sections := (congrArg Compilation.listing hcontext :) ▸ h.sections

/-- The code of the current function does not matter. -/
theorem with_frame (h : Backed b c) (frame : Frame) : Backed b { c with frame := frame } :=
  h.of_context rfl

theorem hasBodies_of_find? (h : Backed b c) {name : String} {e : Entry}
    (he : c.scopes.find? name = some e) : e.meaning.HasBodies b.registry := by
  obtain ⟨x, hx, hfind⟩ := Scopes.exists_mem_of_find? he
  exact h.scopes x hx name e hfind

theorem enter (h : Backed b c) {x : Scope} (hx : x.All (·.HasBodies b.registry)) :
    Backed b { c with scopes := c.scopes.push x } :=
  { h with scopes := List.forall_mem_cons.mpr ⟨hx, h.scopes⟩ }

theorem truncate (h : Backed b c) (n : Nat) : Backed b { c with scopes := c.scopes.truncate n } :=
  { h with scopes := fun x hx => h.scopes x (Scopes.mem_chain_truncate hx) }

/-- A name is made visible. -/
theorem define (h : Backed b c) {scopes : Scopes} {name : String} {d : Meaning} {span : Span}
    (hd : d.HasBodies b.registry) (hdefine : c.scopes.define name d span = .ok scopes) :
    Backed b { c with scopes := scopes } := by
  refine { h with scopes := Scopes.all_define h.scopes hd ?_ hdefine }
  exact fun ids more hids hmore id hid => (Scope.mem_mergeIds.mp hid).elim (hids id) (hmore id)

instance : Modular (Backed b) where
  enter {c} path h := by
    have hscope : ((c.moduleScopes.find? path).getD (.opened (.module path))).All
        (·.HasBodies b.registry) := by
      cases hfind : c.moduleScopes.find? path with
      | none => exact Scope.all_opened _
      | some x => exact h.modules path x hfind
    exact { h.enter hscope with }
  leave {c n scope scopes} path before hpop h := by
    obtain ⟨hscope, hscopes⟩ := Scopes.mem_chain_of_pop hpop
    refine { h with scopes := ?_, modules := ?_ }
    · exact fun x hx => h.scopes x (Scopes.mem_chain_truncate (hscopes x hx))
    · intro p x hx
      by_cases hp : path = p
      · subst hp
        have hx : some scope = some x := (Table.find?_insert_self ..).symm.trans hx
        injection hx with hx
        exact hx ▸ h.scopes _ (Scopes.mem_chain_truncate hscope)
      · exact h.modules p x ((Table.find?_insert_of_ne _ hp _).symm.trans hx)

end Backed

namespace Closed

/-- A step that changes the code alone. -/
theorem of_context (h : Closed b c) (hcontext : c'.context = c.context)
    (hcode : ∀ n ∈ Machine.links c'.frame.code.toList, b.registry.Links n) : Closed b c' :=
  { h.toBacked.of_context hcontext with code := hcode }

/-- A step that adds a piece of code. -/
theorem of_adds (h : Closed b c) {piece : List Instr} {made placed : List Label}
    (hadds : Adds c c' piece made placed) (hpiece : ∀ n ∈ Machine.links piece, b.registry.Links n) :
    Closed b c' := by
  refine h.of_context hadds.context fun n hn => ?_
  rw [hadds.code, Machine.links_append, List.mem_append] at hn
  exact hn.elim (h.code n) (hpiece n)

/-- A step that adds no code. -/
theorem of_silent (h : Closed b c) {made placed : List Label} (hadds : Adds c c' [] made placed) :
    Closed b c' := h.of_adds hadds fun _ hn => absurd hn List.not_mem_nil

theorem emit (h : Closed b c) {i : Instr} (hi : ∀ n, i.link? = some n → b.registry.Links n) :
    Closed b (c.add [i]) := by
  refine h.of_context rfl fun n hn => ?_
  simp only [Compilation.add, Frame.append_code, Machine.links_append, List.mem_append] at hn
  exact hn.elim (h.code n) fun hn => hi n (Machine.links_singleton hn)

/-- A frame with the same code. -/
theorem of_frame (h : Closed b c) (frame : Frame) (hcode : frame.code = c.frame.code) :
    Closed b { c with frame := frame } :=
  h.of_context rfl fun n hn => h.code n (hcode ▸ hn)

end Closed

namespace Lowering

variable {α β : Type}

/-- The step names nothing but functions with bodies, and makes nothing else visible. -/
def KeepsClosed (b : Compilation) (α : Type) (m : CompileM α) : Prop := Preserves (Closed b) m

instance (priority := low) preserves_of_has (m : CompileM α) [h : Has (KeepsClosed b) m] :
    Preserves (Closed b) m := h.out

/-! ## The smallest steps -/

theorem closes_emit {i : Instr} {region : Nat} (hi : ∀ n, i.link? = some n → b.registry.Links n) :
    KeepsClosed b Unit (emit i region) where
  keeps hc h := by
    rw [yields_emit] at h
    exact h ▸ hc.emit hi

/-- The code of a probe is thrown away. -/
theorem closes_probe {body : CompileM α} (hbody : KeepsClosed b α body) :
    KeepsClosed b α (probe body) where
  keeps {c c' a} hc h := by
    simp only [probe, pushBlock, yields_bind, yields_updateFrame, yields_get, yields_modify,
      yields_attempt, yields_modifyFrame, yields_restore, yields_conclude] at h
    obtain ⟨_, _, ⟨rfl, rfl⟩, _, c, ⟨rfl, rfl⟩, _, _, rfl, r, c₁, hrun, _, _, rfl, _, _, rfl, _, _,
      ⟨frame, hrestore, rfl⟩, hr, rfl⟩ := h
    have hstart : Closed b { c with frame := c.frame.pushBlock.2, muted := c.muted + 1 } :=
      hc.of_context rfl hc.code
    have hend := hbody.keeps hstart (yields_of_attempt hrun hr)
    refine hend.of_context rfl fun n hn => hend.code n ?_
    have hcode : frame.code.toList = c₁.frame.code.toList.take c.frame.code.size := by
      rw [Frame.code_restore hrestore]
      simp [Frame.truncate, Frame.pushBlock]
    have hn : n ∈ Machine.links frame.code.toList := hn
    rw [hcode] at hn
    exact ((List.take_sublist ..).filterMap Instr.link?).subset hn

instance : Core (KeepsClosed b) where
  reads m _ := ⟨fun {c c' _} hc h => by
    have heq : c' = c := h.keeps (f := id)
    exact heq ▸ hc⟩
  bind hm hg := @Preserves.bind _ _ _ _ _ hm hg
  emit i _ _ hi := closes_emit fun n hn => by rw [hi] at hn; cases hn
  alloc n := ⟨fun hc h => by
    rw [yields_alloc] at h
    obtain ⟨_, rfl⟩ := h
    exact hc.of_frame _ rfl⟩
  intern l := ⟨fun hc h => hc.of_silent (adds_intern h).1⟩
  warn _ _ := ⟨fun hc h => hc.of_silent (adds_warn h).1⟩
  defer _ := .modify fun _ hc => hc.of_context rfl hc.code
  withRegister _ hbody := ⟨fun hc h => by
    obtain ⟨reg, c₁, c₂, hrun, hbefore, hafter⟩ := silent_withRegister h
    exact ((hbody reg).keeps (hc.of_silent hbefore.adds) hrun).of_silent hafter.adds⟩
  withTemps hbody := ⟨fun {c _ _} hc h => by
    obtain ⟨c₁, frame, hrun, hrestore, rfl⟩ := yields_withTemps h
    have hend := hbody.keeps (hc.of_frame c.frame.pushBlock.2 rfl) hrun
    exact hend.of_frame frame (Frame.code_restore hrestore)⟩
  probe := closes_probe

/-! ## Steps that name functions -/

theorem has_emitCallee {f : String} (hf : b.registry.Links f) (receiver : Option Address)
    (base : Address) (region : Nat) :
    Has (KeepsClosed b) (emitCallee (.function f) receiver base region) :=
  ⟨closes_emit fun _ hn => Option.some.inj hn ▸ hf⟩

theorem has_functionPointer {f : String} (hf : b.registry.Links f) (t : Ty) :
    Has (KeepsClosed b) (functionPointer t f) := by
  have : ∀ dst, Has (KeepsClosed b) (emit (.fnAddr dst f)) :=
    fun dst => ⟨closes_emit fun _ hn => Option.some.inj hn ▸ hf⟩
  unfold functionPointer
  infer_instance

/-- What is selected is one of the candidates. -/
theorem key_of_select {κ : Type} {name : String} {cs : List (Candidate κ)} {args : List Slot}
    {span : Span} {fit : Fit κ} (h : Yields (select name cs args span) c fit c') :
    ∃ k ∈ cs, fit.key = k.key := by
  rw [select, yields_askRegistry] at h
  obtain ⟨k, hk, hkey, _⟩ := Overload.resolve_eq_ok h.1
  exact ⟨k, hk, hkey⟩

theorem key_of_functionCandidates {ids : List Nat} {cs : List (Candidate Nat)}
    (h : Yields (functionCandidates ids) c cs c') : ∀ k ∈ cs, k.key ∈ ids := by
  refine yields_mapM_forall (fun id hid c k c' hk => ?_) h
  simp only [yields_bind, yields_askRegistry, yields_pure] at hk
  obtain ⟨_, _, _, rfl, _⟩ := hk
  exact hid

/-- What a name stands for has bodies. -/
theorem hasBodies_of_meaning (hc : Closed b c) {name : String} {span : Span} {d : Meaning}
    (h : Yields (meaning name span) c d c') : d.HasBodies b.registry := by
  simp only [meaning, meaning?, yields_bind, yields_get, yields_pure, and_assoc, exists_and_left,
    exists_eq_left] at h
  cases hfind : c.scopes.find? name with
  | none =>
    rw [hfind] at h
    simp only [Option.map_none] at h
    split at h <;> simp at h
  | some e =>
    rw [hfind] at h
    simp only [Option.map_some, yields_pure] at h
    exact h.1 ▸ hc.hasBodies_of_find? hfind

/-- A function that is found by its number. -/
theorem links_of_getFunction (hc : Closed b c) {id : Nat} {s : Signature}
    (hid : b.registry.HasBody id) (h : Yields (askRegistry (·.getFunction id)) c s c') :
    b.registry.Links s.mangled := by
  rw [yields_askRegistry, hc.registry] at h
  exact hid.links h.1

/-- A slot is bound to a function with a body. -/
theorem links_of_implementation (hc : Closed b c) {owner : Ty} {name : String} {slot : Nat}
    {span : Span} {s : Signature} (h : Yields (implementation owner name slot span) c s c') :
    b.registry.Links s.mangled := by
  unfold implementation at h
  split at h
  · rw [yields_throw] at h
    exact h.elim
  · simp only [yields_bind, yields_askRegistry, Registry.getClass_eq_ok] at h
    obtain ⟨k, _, ⟨hk, rfl⟩, h⟩ := h
    split at h
    · rename_i himpl
      have hmem := Dispatch.implementation?_mem himpl
      exact links_of_getFunction hc (hc.bound (hc.registry ▸ hk) _ _ hmem) h
    · rw [yields_fail] at h
      exact h.elim
    · rw [yields_throw] at h
      exact h.elim

section Arguments

variable (args : CompileM (List Slot)) [Has (KeepsClosed b) args] (argSpans : List Span)
  (span : Span)

theorem closes_callFunction {ids : List Nat} (hids : ∀ id ∈ ids, b.registry.HasBody id)
    (name : String) : KeepsClosed b Slot (callFunction name ids args argSpans span) := by
  unfold KeepsClosed callFunction
  refine .bind_of fun args _ => .bind_of fun cs hcs => .bind_of fun fit hfit => ?_
  refine .bind_of fun args _ => .bind_of fun s hs => ?_
  obtain ⟨_, _, _, hcs⟩ := hcs
  obtain ⟨_, _, _, hfit⟩ := hfit
  obtain ⟨_, _, hc, hs⟩ := hs
  obtain ⟨k, hk, hkey⟩ := key_of_select hfit
  have hkey : fit.key ∈ ids := hkey ▸ key_of_functionCandidates hcs k hk
  have := has_emitCallee (links_of_getFunction hc (hids _ hkey) hs)
  infer_instance

theorem closes_callStatic (owner : Ty) (name : String) (receiver : Address) :
    KeepsClosed b Slot (callStatic owner name receiver args argSpans span) := by
  unfold KeepsClosed callStatic
  refine .bind_of fun args _ => .bind_of fun fit _ => .bind_of fun args _ => ?_
  refine .bind_of fun result _ => .bind_of fun s hs => ?_
  obtain ⟨_, _, hc, hs⟩ := hs
  have := has_emitCallee (links_of_implementation hc hs)
  infer_instance

theorem closes_constructObject (type : Ty) (object : Slot) :
    KeepsClosed b Unit (constructObject type object args argSpans span) := by
  have hrun : ∀ name, Preserves (Closed b) (do
      let args ← args
      let fit ← selectMethod type name args span
      let args ← coerceArgs args fit.params argSpans
      let s ← implementation type name fit.key span
      let _ ← emitCall (.function s.mangled) s.result (some object.address) args :
        CompileM Unit) := by
    intro name
    refine .bind_of fun args _ => .bind_of fun fit _ => .bind_of fun args _ => ?_
    refine .bind_of fun s hs => ?_
    obtain ⟨_, _, hc, hs⟩ := hs
    have := has_emitCallee (links_of_implementation hc hs)
    infer_instance
  unfold KeepsClosed constructObject
  dsimp only
  infer_instance

end Arguments

theorem closes_namePlace (name : String) (span : Span) :
    KeepsClosed b Place (namePlace name span) := by
  have hvalue : ∀ ids, (∀ id ∈ ids, b.registry.HasBody id) →
      Preserves (Closed b) (functionValue name ids span) := by
    intro ids hids
    unfold functionValue
    split
    · refine .bind_of fun s hs => ?_
      obtain ⟨_, _, hc, hs⟩ := hs
      have := has_functionPointer (links_of_getFunction hc (hids _ List.mem_cons_self) hs)
      infer_instance
    · infer_instance
  unfold KeepsClosed namePlace
  refine .bind_of fun d hd => ?_
  obtain ⟨_, _, hc, hd⟩ := hd
  have hd := hasBodies_of_meaning hc hd
  cases d with
  | functions ids =>
    have := hvalue ids hd
    infer_instance
  | _ => infer_instance

theorem closes_scopedValue (owner : TypeExpr) (member : Ident) (span : Span) :
    KeepsClosed b Slot (scopedValue owner member span) := by
  unfold KeepsClosed scopedValue
  refine .bind_of fun owner _ => .bind_of fun c _ => ?_
  split
  · refine .bind_of fun s hs => ?_
    obtain ⟨_, _, hc, hs⟩ := hs
    have := has_functionPointer (links_of_implementation hc hs)
    infer_instance
  · infer_instance

instance : Linked (KeepsClosed b) where
  namePlace := closes_namePlace
  callNamed {name nameSpan span intrinsicCall args argSpans} hintrinsic hargs := by
    have : Has (KeepsClosed b) args := ⟨hargs⟩
    have := fun i => Has.mk (P := KeepsClosed b) (hintrinsic i)
    refine .bind_of fun d hd => ?_
    obtain ⟨_, _, hc, hd⟩ := hd
    have hd := hasBodies_of_meaning hc hd
    cases d with
    | functions ids => exact closes_callFunction args argSpans span hd name
    | _ =>
      unfold callNamed
      infer_instance
  callStatic {_ _ _ args _ _} hargs :=
    have : Has (KeepsClosed b) args := ⟨hargs⟩
    closes_callStatic ..
  scopedValue := closes_scopedValue
  constructObject {_ _ args _ _} hargs :=
    have : Has (KeepsClosed b) args := ⟨hargs⟩
    closes_constructObject ..

/-! ## Statements -/

instance : Jumps (KeepsClosed b) where
  freshLabel k := ⟨fun hc h => hc.of_silent (adds_freshLabel h)⟩
  jump i hi := closes_emit fun n hn => by rw [hi] at hn; cases hn

theorem closes_define {d : Meaning} (hd : d.HasBodies b.registry) (name : String) (span : Span) :
    KeepsClosed b Unit (define name d span) where
  keeps hc h := by
    rw [yields_define] at h
    obtain ⟨scopes, hdefine, rfl⟩ := h
    exact { hc.define hd hdefine with code := hc.code }

instance : Scoped (KeepsClosed b) where
  inScope {_ kind body} hbody := ⟨fun {c _ _} hc h => by
    obtain ⟨c₁, frame, hrun, hrestore, rfl⟩ := yields_inScope h
    have hstart : Closed b { c with
        scopes := c.scopes.enter kind, frame := c.frame.pushBlock.2 } :=
      { hc.enter (Scope.all_opened _) with code := hc.code }
    have hend := (hbody.keeps hstart hrun).of_frame frame (Frame.code_restore hrestore)
    exact { hend.truncate _ with code := hend.code }⟩
  binding name b span := closes_define (d := .variable b) trivial name span

end Lowering

end ClassLang
