import ClassLang.Proofs.Lowering.Overload
import ClassLang.Proofs.Safety.Operations

/-!
# Calls are safe

A caller writes the frame of the callee at the top of its own, into storage that it has taken
before. Resolving an overload fails internally only without any candidate. Slots are bound on every
class that shows them, so finding the function in a slot does not fail internally either.
-/

namespace ClassLang

open CompileM Lowering

/-- With a candidate, all that can be wrong is the call. -/
theorem Overload.isLocated_of_resolve {κ : Type} {r : Registry} {args : List Ty} {name : String}
    {span : Span} {cs : List (Candidate κ)} {e : CompileError} (hcs : cs ≠ [])
    (h : resolve r name cs args span = .error e) : e.isLocated = true := by
  unfold resolve at h
  split at h
  · rename_i hnone
    exact absurd hnone (distinct_ne_nil hcs)
  · unfold resolveSingle at h
    split at h
    · split at h
      · cases h
      · injection h with h
        exact h ▸ rfl
    · injection h with h
      exact h ▸ rfl
  · unfold resolveSeveral at h
    split at h
    · cases h
    · injection h with h
      exact h ▸ rfl
    · injection h with h
      exact h ▸ rfl

namespace CompileM

variable {r : Registry} {c : Compilation} {dest : Option Slot}

theorem safe_select {κ : Type} {name : String} {cs : List (Candidate κ)} {args : List Slot}
    {span : Span} (hcs : cs ≠ []) :
    Safe Extends (select name cs args span) c fun f c' =>
      c' = c ∧ ∃ k ∈ cs, f.key = k.key ∧ f.params = k.params := by
  unfold select
  refine .askRegistry (fun f hf => ⟨rfl, Overload.resolve_eq_ok hf⟩) fun e he => ?_
  exact Overload.isLocated_of_resolve hcs he

theorem safe_coerceArgs {args : List Slot} {params : List Ty} {spans : List Span}
    (hr : c.registry = r) (hargs : ∀ a ∈ args, Held r c.extent a) (hparams : r.KnowsAll params) :
    Safe Extends (coerceArgs args params spans) c fun as c' => ∀ a ∈ as, Held r c'.extent a := by
  induction args generalizing params spans c with
  | nil =>
    unfold coerceArgs
    exact .pure (List.forall_mem_nil _)
  | cons arg args ih =>
    obtain ⟨harg, hargs⟩ := List.forall_mem_cons.mp hargs
    cases params with
    | nil =>
      unfold coerceArgs
      exact .pure (List.forall_mem_nil _)
    | cons param params =>
      obtain ⟨hparam, hparams⟩ := Registry.knowsAll_cons.mp hparams
      cases spans with
      | nil =>
        unfold coerceArgs
        exact .pure (List.forall_mem_nil _)
      | cons span spans =>
        unfold coerceArgs
        refine (safe_coerce hr harg hparam).bind fun a c₁ h₁ ⟨ha, _⟩ => ?_
        refine (ih (h₁.registry.trans hr) (fun b hb => (hargs b hb).mono h₁.extent) hparams).bind
          fun as c₂ h₂ has => ?_
        exact .pure (List.forall_mem_cons.mpr ⟨ha.mono h₂.extent, has⟩)

/-! ## The call itself -/

/-- What the callee is reached through lies in the storage, and a native is visible. A dispatch has
a receiver. -/
def Reached (s : Scopes) (x : Extent) (p : Nat) (receiver : Option Address) : Callee → Prop
  | .function _ => True
  | .native n => s.Offers n
  | .pointer slot => x.Holds (slot, p)
  | .dispatch _ => ∃ a, receiver = some a ∧ x.Holds (a, p)

namespace Reached

variable {s : Scopes} {x y : Extent} {p : Nat} {receiver : Option Address}

theorem function (s : Scopes) (x : Extent) (p : Nat) (receiver : Option Address)
    (mangled : String) : Reached s x p receiver (.function mangled) := trivial

theorem native {n : Native} (h : s.Offers n) : Reached s x p receiver (.native n) := h

theorem pointer {slot : Address} (h : x.Holds (slot, p)) :
    Reached s x p receiver (.pointer slot) := h

theorem dispatch {a : Address} (slot : Nat) (h : x.Holds (a, p)) :
    Reached s x p (some a) (.dispatch slot) := ⟨a, rfl, h⟩

theorem mono {callee : Callee} (h : Reached s x p receiver callee) (hle : x.Le y) :
    Reached s y p receiver callee := by
  cases callee with
  | function _ | native _ => exact h
  | pointer _ => exact Extent.Holds.mono hle h (Nat.le_refl _)
  | dispatch _ =>
    obtain ⟨a, ha, h⟩ := h
    exact ⟨a, ha, h.mono hle (Nat.le_refl _)⟩

end Reached

/-- A receiver can be copied: it lies in the storage, or it starts in the frame, which first grows
by as many bytes as are copied. -/
def Copyable (x : Extent) (p : Nat) (a : Address) : Prop :=
  x.Holds (a, p) ∨ ∃ k ≤ x.top, a = .frame k

theorem Copyable.mono {x y : Extent} {p : Nat} {a : Address} (h : Copyable x p a)
    (hle : x.Le y) : Copyable y p a := by
  refine h.imp (fun h => h.mono hle (Nat.le_refl _)) ?_
  rintro ⟨k, hk, rfl⟩
  exact ⟨k, Nat.le_trans hk hle.top, rfl⟩

theorem safe_emitCallee {callee : Callee} {receiver : Option Address} {base : Address}
    {region : Nat} (hr : c.registry = r) (hfree : 2 ≤ c.frame.freeRegisters.length)
    (hbase : c.extent.Holds (base, region))
    (hcallee : Reached c.scopes c.extent r.pointerSize receiver callee) :
    Safe Extends (emitCallee callee receiver base region) c fun _ _ => True := by
  have hone : 0 < c.frame.freeRegisters.length := Nat.lt_of_lt_of_le Nat.zero_lt_two hfree
  unfold emitCallee
  cases callee with
  | function mangled =>
    refine (safe_emit (List.forall_mem_nil _) ?_ (by trivial)).weaken
    exact List.forall_mem_singleton.mpr hbase
  | native n =>
    have hpermitted : (Instr.callNative n.id base).Permitted c.registry c.scopes :=
      ⟨n, rfl, hcallee⟩
    refine (safe_emit (List.forall_mem_nil _) ?_ hpermitted).weaken
    exact List.forall_mem_singleton.mpr hbase
  | pointer slot =>
    refine safe_withRegister (P := fun _ _ => True) hone fun reg c₁ h₁ hx _ => ?_
    have hslot : c₁.extent.Holds (slot, r.pointerSize) := hx ▸ hcallee
    rw [← hx] at hbase
    refine safe_emit_bind (List.forall_mem_singleton.mpr ?_) (List.forall_mem_nil _) trivial
      fun c₂ _ hx₂ => ?_
    · rw [h₁.registry, hr]
      exact hslot
    · rw [← hx₂] at hbase
      refine (safe_emit (List.forall_mem_nil _) ?_ (by trivial)).weaken
      exact List.forall_mem_singleton.mpr hbase
  -- A dispatch takes two registers: one for the object, one for the function.
  | dispatch slot =>
    obtain ⟨receiver, rfl, hcallee⟩ := hcallee
    refine safe_withRegister (P := fun _ _ => True) hone fun object c₁ h₁ hx hregs => ?_
    refine safe_withRegister (P := fun _ _ => True) (by omega) fun function c₂ h₂ hx₂ _ => ?_
    have hreceiver : c₂.extent.Holds (receiver, r.pointerSize) := (hx₂.trans hx) ▸ hcallee
    rw [← hx, ← hx₂] at hbase
    refine safe_emit_bind (List.forall_mem_singleton.mpr ?_) (List.forall_mem_nil _) trivial
      fun c₃ h₃ hx₃ => ?_
    · rw [h₂.registry, h₁.registry, hr]
      exact hreceiver
    · refine safe_emit_bind (List.forall_mem_nil _) (List.forall_mem_nil _) trivial fun c₄ _ hx₄ => ?_
      rw [← hx₃, ← hx₄] at hbase
      refine (safe_emit (List.forall_mem_nil _) ?_ (by trivial)).weaken
      exact List.forall_mem_singleton.mpr hbase

/-- Copying bytes to the top of the frame. -/
theorem safe_pushBytes {src : Address} {n : Nat} (h : Copyable c.extent n src) :
    Safe Extends (do move (← alloc n) src n) c fun _ c' => c'.frame.top = c.frame.top + n := by
  refine safe_alloc.bind fun a c₁ h₁ ⟨ha, htop⟩ => ?_
  refine (safe_move ?_ ?_).mono fun _ c' _ hx => ?_
  · rcases h with h | ⟨k, hk, rfl⟩
    · exact h.mono h₁.extent (Nat.le_refl _)
    · have hk : k ≤ c.frame.top := hk
      show k + n ≤ c₁.frame.top
      omega
  · rw [ha]
    show c.frame.top + n ≤ c₁.frame.top
    omega
  · rw [show c'.frame.top = c₁.frame.top from congrArg Extent.top hx, htop]

/-- Copying arguments to the top of the frame, one behind the other. -/
theorem safe_pushArgs {args : List Slot} (hr : c.registry = r)
    (hargs : ∀ a ∈ args, Held r c.extent a) :
    Safe Extends (args.forM fun arg => do
      let length ← lengthOf arg.type
      move (← alloc length) arg.address length) c fun _ c' =>
        c'.frame.top = c.frame.top + r.lengths (args.map (·.type)) := by
  induction args generalizing c with
  | nil => exact .pure rfl
  | cons arg args ih =>
    obtain ⟨harg, hargs⟩ := List.forall_mem_cons.mp hargs
    refine Safe.bind (Q := fun _ c₁ => c₁.frame.top = c.frame.top + r.length arg.type) ?_
      fun _ c₁ h₁ htop => ?_
    · refine .lengthOf_bind ?_
      rw [hr]
      exact safe_pushBytes (.inl harg.storage)
    · refine (ih (h₁.registry.trans hr) fun a ha => (hargs a ha).mono h₁.extent).mono
        fun _ c₂ _ htop₂ => ?_
      rw [htop₂, htop, List.map_cons, Registry.lengths, Nat.add_assoc]

theorem safe_emitCall {callee : Callee} {result : Ty} {receiver : Option Address}
    {args : List Slot} (hc : Ready r c) (hresult : r.Knows result)
    (hcallee : Reached c.scopes c.extent r.pointerSize receiver callee)
    (hreceiver : ∀ a ∈ receiver, Copyable c.extent r.pointerSize a)
    (hargs : ∀ a ∈ args, Held r c.extent a) :
    Safe Extends (emitCall callee result receiver args) c fun s c' =>
      Held r c'.extent s ∧ s.type = result := by
  unfold emitCall
  refine .get_bind ?_
  dsimp only
  refine safe_allocFor.bind fun a c₁ h₁ ⟨_, htop⟩ => ?_
  have hc₁ := hc.after h₁
  have hbase : Held r c₁.extent ⟨result, c.frame.topAddress⟩ := by
    refine ⟨?_, hresult⟩
    rw [hc.registry] at htop
    show c.frame.top + r.length result ≤ c₁.frame.top
    omega
  -- The arguments and the call, once the receiver has been copied.
  have hrest : ∀ c₂, Extends c₁ c₂ →
      c₂.frame.top = c₁.frame.top + (receiver.elim 0 fun _ => r.pointerSize) → Safe Extends (do
      args.forM fun arg => do
        let length ← lengthOf arg.type
        move (← alloc length) arg.address length
      let region ← fromRegistry (handedOver · result receiver args)
      emitCallee callee receiver c.frame.topAddress region
      return (⟨result, c.frame.topAddress⟩ : Slot)) c₂ fun s c' =>
        Held r c'.extent s ∧ s.type = result := by
    intro c₂ h₂ htop₂
    have hx := Steady.trans h₁ h₂
    refine (safe_pushArgs (hc.after hx).registry fun a ha => (hargs a ha).mono hx.extent).bind
      fun _ c₃ h₃ htop₃ => ?_
    have hx₃ := Steady.trans hx h₃
    have hc₃ := hc.after hx₃
    have hbase₃ := (hbase.mono h₂.extent).mono h₃.extent
    have hregion : c₃.extent.Holds (c.frame.topAddress, handedOver r result receiver args) := by
      rw [hc.registry] at htop
      show c.frame.top + handedOver r result receiver args ≤ c₃.frame.top
      rw [htop₃, htop₂, htop, handedOver]
      omega
    refine .fromRegistry_bind ?_
    rw [hc₃.registry]
    refine (safe_emitCallee hc₃.registry hc₃.registers hregion
      (hx₃.scopes ▸ hcallee.mono hx₃.extent)).bind fun _ c₄ h₄ _ => ?_
    exact .pure ⟨hbase₃.mono h₄.extent, rfl⟩
  cases receiver with
  | none => exact hrest c₁ (Steady.refl c₁) rfl
  | some this =>
    refine .pointerSize_bind ?_
    rw [hc₁.registry]
    have hthis := (hreceiver this rfl).mono h₁.extent
    have hpush := (safe_pushBytes hthis).bind fun _ c₂ h₂ htop₂ => hrest c₂ h₂ htop₂
    rw [bind_assoc] at hpush
    exact hpush

/-! ## Choosing what to call -/

/-- All functions in a list are registered. -/
theorem safe_functionCandidates {ids : List Nat} (hr : c.registry = r)
    (hids : ∀ id ∈ ids, id < r.functions.size) :
    Safe Extends (functionCandidates ids) c fun cs c' => c' = c ∧ cs.length = ids.length ∧
      ∀ k ∈ cs, ∃ s, r.function? k.key = some s ∧ k.params = s.params := by
  unfold functionCandidates
  induction ids with
  | nil =>
    rw [List.mapM_nil]
    exact .pure ⟨rfl, rfl, List.forall_mem_nil _⟩
  | cons id ids ih =>
    obtain ⟨hid, hids⟩ := List.forall_mem_cons.mp hids
    obtain ⟨s, hs, hfun⟩ := Registry.exists_getFunction hid
    rw [List.mapM_cons, bind_assoc]
    refine .askRegistry_bind (hr ▸ hs) ?_
    rw [pure_bind]
    refine (ih hids).bind ?_
    rintro cs c₁ - ⟨rfl, hlen, hcs⟩
    exact .pure ⟨rfl, congrArg (· + 1) hlen, List.forall_mem_cons.mpr ⟨⟨s, hfun, rfl⟩, hcs⟩⟩

/-- What is chosen is a slot that the type shows under the name. -/
theorem safe_selectMethod {owner : Ty} {name : String} {args : List Slot} {span : Span}
    (hr : c.registry = r) : Safe Extends (selectMethod owner name args span) c fun f c' =>
      c' = c ∧ ∃ k ∈ r.methodsNamed owner name, f.key = k.slot ∧ f.params = k.params := by
  unfold selectMethod
  refine .get_bind ?_
  dsimp only
  rw [hr]
  split
  · exact .fail
  · rename_i hne
    refine (safe_select ?_).mono ?_
    · intro hnil
      exact hne (List.map_eq_nil_iff.mp hnil)
    · rintro f c' - ⟨hc, k, hk, hfit⟩
      obtain ⟨rank, hrank, rfl⟩ := List.mem_map.mp hk
      exact ⟨hc, rank, hrank, hfit⟩

theorem safe_methodResult {owner : Ty} {name : String} {slot : Nat} (hc : Ready r c)
    (howner : r.Knows owner) :
    Safe Extends (methodResult owner name slot) c fun t c' => c' = c ∧ r.Knows t := by
  unfold methodResult
  refine .fromRegistry ⟨rfl, ?_⟩
  rw [hc.registry]
  cases hfind : (r.methodsNamed owner name).find? (·.slot == slot) with
  | none => exact Registry.knows_prim .void
  | some k => exact (hc.sound.methodsNamed howner (List.mem_of_find?_eq_some hfind)).2.1

/-- The function in a slot that the type shows. -/
theorem safe_implementation {owner : Ty} {name : String} {k : Rank} {span : Span}
    (hc : Ready r c) (howner : r.Knows owner) (hk : k ∈ r.methodsNamed owner name) :
    Safe Extends (implementation owner name k.slot span) c fun s c' =>
      c' = c ∧ r.Knows s.result := by
  obtain ⟨_, _, h, d, f, hh, hd, hf, hids⟩ := hc.sound.methodsNamed howner hk
  unfold implementation
  rw [hh]
  refine .askRegistry_bind (hc.registry ▸ hd) ?_
  rw [hf]
  cases f with
  | none => exact .fail
  | some id =>
    obtain ⟨s, hs, hfun⟩ := Registry.exists_getFunction (hids id rfl)
    refine .askRegistry (fun a ha => ?_) fun e he => ?_
    · rw [hc.registry, hs] at ha
      injection ha with ha
      exact ⟨rfl, ha ▸ (hc.sound.functions hfun).2.1⟩
    · rw [hc.registry, hs] at he
      cases he

theorem safe_hasMethod {owner : Ty} {name : String} :
    Safe Extends (hasMethod owner name) c fun _ c' => c' = c := by
  unfold hasMethod
  exact .fromRegistry rfl

/-! ## Calls by form of the callee -/

/-- A step that compiles arguments. -/
def Supplies (r : Registry) (args : CompileM (List Slot)) : Prop :=
  ∀ c, Ready r c → Safe Extends args c fun as c' => ∀ a ∈ as, Held r c'.extent a

section Calls

variable {args : CompileM (List Slot)} {argSpans : List Span} {span : Span}

theorem safe_callFunction {name : String} {ids : List Nat} (hc : Ready r c)
    (hargs : Supplies r args) (hne : ids ≠ []) (hids : ∀ id ∈ ids, id < r.functions.size) :
    Safe Extends (callFunction name ids args argSpans span) c fun s c' =>
      Held r c'.extent s := by
  unfold callFunction
  refine (hargs c hc).bind fun as c₁ h₁ has => ?_
  have hc₁ := hc.after h₁
  refine (safe_functionCandidates hc₁.registry hids).bind ?_
  rintro cs c₂ - ⟨rfl, hlen, hcs⟩
  have hcs_ne : cs ≠ [] := by
    intro hnil
    rw [hnil] at hlen
    exact hne (List.eq_nil_of_length_eq_zero hlen.symm)
  refine (safe_select hcs_ne).bind ?_
  rintro fit c₃ - ⟨rfl, k, hk, hkey, hparams⟩
  obtain ⟨s, hs, hsparams⟩ := hcs k hk
  obtain ⟨hknown, hresult, _⟩ := hc.sound.functions hs
  refine (safe_coerceArgs hc₁.registry has (hparams ▸ hsparams ▸ hknown)).bind
    fun as c₄ h₄ has => ?_
  have hc₄ := hc₁.after h₄
  have hget : r.getFunction fit.key = .ok s := by
    unfold Registry.getFunction
    rw [hkey, hs]
  refine .askRegistry_bind (hc₄.registry ▸ hget) ?_
  exact (safe_emitCall hc₄ hresult (.function _ _ _ _ _) (fun _ h => by cases h) has).mono
    fun _ _ _ h => h.1

theorem Native.knows (r : Registry) (n : Native) : r.KnowsAll n.params ∧ r.Knows n.result := by
  cases n <;> simp [Native.params, Native.result, Ty.voidPointer, Ty.string, Ty.int, Ty.float, Ty.char,
    Ty.byte, Ty.void]

theorem safe_callNative {name : String} {n : Native} (hc : Ready r c) (hargs : Supplies r args)
    (hoffers : c.scopes.Offers n) :
    Safe Extends (callNative name n args argSpans span) c fun s c' => Held r c'.extent s := by
  unfold callNative
  refine (hargs c hc).bind fun as c₁ h₁ has => ?_
  have hc₁ := hc.after h₁
  refine (safe_select (List.cons_ne_nil _ _)).bind ?_
  rintro fit c₂ - ⟨rfl, k, hk, -, hparams⟩
  rw [List.mem_singleton.mp hk] at hparams
  have hknown : r.KnowsAll fit.params := hparams ▸ (Native.knows r n).1
  refine (safe_coerceArgs hc₁.registry has hknown).bind fun as c₃ h₃ has => ?_
  have hoffers := (Steady.trans h₁ h₃).scopes ▸ hoffers
  exact (safe_emitCall (hc₁.after h₃) (Native.knows r n).2 (.native hoffers)
    (fun _ h => by cases h) has).mono fun _ _ _ h => h.1

theorem safe_callValue {callee : Slot} (hc : Ready r c) (hcallee : Held r c.extent callee)
    (hargs : Supplies r args) :
    Safe Extends (callValue callee args argSpans span) c fun s c' => Held r c'.extent s := by
  obtain ⟨hstorage, hknown⟩ := hcallee
  unfold callValue
  split
  · rename_i kind params result htype
    rw [htype] at hstorage hknown
    obtain ⟨hparams, hresult⟩ := Registry.knows_callable.mp hknown
    refine (hargs c hc).bind fun as c₁ h₁ has => ?_
    have hc₁ := hc.after h₁
    refine (safe_select (List.cons_ne_nil _ _)).bind ?_
    rintro fit c₂ - ⟨rfl, k, hk, -, hfit⟩
    rw [List.mem_singleton.mp hk] at hfit
    refine (safe_coerceArgs hc₁.registry has (hfit ▸ hparams)).bind fun as c₃ h₃ has => ?_
    have hpointer := hstorage.mono (Steady.trans h₁ h₃).extent (Nat.le_refl _)
    exact (safe_emitCall (hc₁.after h₃) hresult (.pointer hpointer) (fun _ h => by cases h)
      has).mono fun _ _ _ h => h.1
  · exact .typeName_bind .fail

theorem safe_callNamed {name : String} {nameSpan : Span} {d : Meaning}
    {intrinsicCall : Intrinsic → CompileM Slot} (hc : Ready r c) (hd : d.Usable r c.extent)
    (hnative : ∀ n, d = .native n → c.scopes.Offers n)
    (hintrinsic : ∀ i, Safe Extends (intrinsicCall i) c fun s c' => Held r c'.extent s)
    (hargs : Supplies r args) :
    Safe Extends (callNamed name nameSpan d intrinsicCall args argSpans span) c fun s c' =>
      Held r c'.extent s := by
  unfold callNamed
  split
  · exact safe_callFunction hc hargs hd.1.1 hd.1.2
  · exact safe_callNative hc hargs (hnative _ rfl)
  · exact safe_callValue hc (hd.2 _ rfl) hargs
  · exact .fail
  · exact .fail
  · exact hintrinsic _

theorem safe_callDispatched {owner : Ty} {name : String} {object : Place} (hc : Ready r c)
    (hobject : object.Held r c.extent) (htype : object.type = .pointer owner)
    (hargs : Supplies r args) :
    Safe Extends (callDispatched owner name object args argSpans span) c fun s c' =>
      Held r c'.extent s := by
  have howner : r.Knows owner := by
    have hknown := hobject.known
    rw [htype] at hknown
    exact hknown
  unfold callDispatched
  refine (safe_read hc hobject fun _ hd => by cases hd).bind
    fun receiver c₁ h₁ ⟨hreceiver, hrtype⟩ => ?_
  have hstorage := hreceiver.storage
  rw [hrtype, htype] at hstorage
  have hc₁ := hc.after h₁
  refine (hargs c₁ hc₁).bind fun as c₂ h₂ has => ?_
  have hc₂ := hc₁.after h₂
  refine (safe_selectMethod hc₂.registry).bind ?_
  rintro fit c₃ - ⟨rfl, k, hk, -, hparams⟩
  have hknown : r.KnowsAll fit.params := hparams ▸ (hc.sound.methodsNamed howner hk).1
  refine (safe_coerceArgs hc₂.registry has hknown).bind fun as c₄ h₄ has => ?_
  have hc₄ := hc₂.after h₄
  refine (safe_methodResult hc₄ howner).bind ?_
  rintro result c₅ - ⟨rfl, hresult⟩
  have hpointer := hstorage.mono (Steady.trans h₂ h₄).extent (Nat.le_refl _)
  refine (safe_emitCall hc₄ hresult (.dispatch _ hpointer) ?_ has).mono fun _ _ _ h => h.1
  intro a ha
  injection ha with ha
  exact ha ▸ .inl hpointer

theorem safe_callStatic {owner : Ty} {name : String} {receiver : Address} (hc : Ready r c)
    (howner : r.Knows owner) (hreceiver : Copyable c.extent r.pointerSize receiver)
    (hargs : Supplies r args) :
    Safe Extends (callStatic owner name receiver args argSpans span) c fun s c' =>
      Held r c'.extent s := by
  unfold callStatic
  refine (hargs c hc).bind fun as c₁ h₁ has => ?_
  have hc₁ := hc.after h₁
  refine (safe_selectMethod hc₁.registry).bind ?_
  rintro fit c₂ - ⟨rfl, k, hk, hkey, hparams⟩
  have hknown : r.KnowsAll fit.params := hparams ▸ (hc.sound.methodsNamed howner hk).1
  refine (safe_coerceArgs hc₁.registry has hknown).bind fun as c₃ h₃ has => ?_
  have hc₃ := hc₁.after h₃
  refine (safe_methodResult hc₃ howner).bind ?_
  rintro result c₄ - ⟨rfl, hresult⟩
  rw [hkey]
  refine (safe_implementation hc₃ howner hk).bind ?_
  rintro s c₅ - ⟨rfl, _⟩
  refine (safe_emitCall hc₃ hresult (.function _ _ _ _ _) ?_ has).mono fun _ _ _ h => h.1
  intro a ha
  injection ha with ha
  exact ha ▸ hreceiver.mono (Steady.trans h₁ h₃).extent

theorem safe_callMember {object : Place} {member : Ident} {fieldValue : CompileM Slot}
    (hc : Ready r c) (hobject : object.Held r c.extent)
    (hfield : ∀ c₁, Ready r c₁ → Safe Extends fieldValue c₁ fun s c' => Held r c'.extent s)
    (hargs : Supplies r args) :
    Safe Extends (callMember object member fieldValue args argSpans span) c fun s c' =>
      Held r c'.extent s := by
  -- A field that holds a callable, looked for in a class.
  have hfieldCall : ∀ owner : Option Ty, Safe Extends (do
      let r := (← get).registry
      if (owner.bind fun owner => r.field? owner member.name).isSome then
        callValue (← fieldValue) args argSpans span
      else fail (.unknownMethod member.name (r.typeName object.type)) member.span) c
      fun s c' => Held r c'.extent s := by
    intro owner
    refine .get_bind ?_
    dsimp only
    split
    · refine (hfield c hc).bind fun s c₁ h₁ hs => ?_
      exact safe_callValue (hc.after h₁) hs hargs
    · exact .fail
  unfold callMember
  dsimp only
  cases howner : object.type.pointeeClass? with
  | some owner =>
    obtain ⟨hpointer, _⟩ := eq_pointer_of_pointeeClass? howner
    have hclass : object.type.isClassLike = false := hpointer ▸ rfl
    simp only [hclass, Bool.false_eq_true, if_false]
    refine safe_hasMethod.bind ?_
    rintro found c₁ - rfl
    split
    · exact safe_callDispatched hc hobject hpointer hargs
    · exact hfieldCall _
  | none =>
    cases hclass : object.type.isClassLike with
    | false =>
      simp only [Bool.false_eq_true, if_false]
      exact hfieldCall _
    | true =>
      simp only [if_true]
      refine safe_hasMethod.bind ?_
      rintro found c₁ - rfl
      split
      · refine (safe_addressOf hc hobject fun _ hd => by cases hd).bind
          fun receiver c₂ h₂ ⟨hreceiver, htype⟩ => ?_
        have hstorage := hreceiver.storage
        rw [htype] at hstorage
        exact safe_callStatic (hc.after h₂) hobject.known (.inl hstorage) hargs
      · exact hfieldCall _

end Calls

/-! ## Receivers and methods as values -/

theorem safe_receiverIsImplicit {owner : Ty} :
    Safe Extends (receiverIsImplicit owner) c fun b c' =>
      c' = c ∧ (b = true → c.scopes.receiverClass?.isSome = true) := by
  unfold receiverIsImplicit
  refine .get_bind ?_
  split
  · rename_i current target hcurrent _
    refine .pure ⟨rfl, fun _ => ?_⟩
    obtain ⟨t, ht, _⟩ := Option.bind_eq_some_iff.mp hcurrent
    rw [ht]
    rfl
  · exact .pure ⟨rfl, fun h => by cases h⟩

theorem safe_scopedMethod {owner : TypeExpr} {member : Ident} (hc : Ready r c) :
    Safe Extends (scopedMethod owner member) c fun t _ => r.Knows t ∧ t.isClass = true := by
  unfold scopedMethod
  refine (safe_resolveClass_ready hc owner).bind fun type c₁ h₁ htype => ?_
  refine safe_hasMethod.bind ?_
  rintro found c₂ - rfl
  split
  · exact .pure htype
  · exact .typeName_bind .fail

theorem safe_scopedValue {owner : TypeExpr} {member : Ident} {span : Span} (hc : Ready r c) :
    Safe Extends (scopedValue owner member span) c fun s c' => Held r c'.extent s := by
  unfold scopedValue
  refine (safe_scopedMethod hc).bind fun type c₁ h₁ ⟨hknown, _⟩ => ?_
  have hc₁ := hc.after h₁
  refine .get_bind ?_
  rw [hc₁.registry]
  split
  · rename_i rank hrank
    have hmem : rank ∈ r.methodsNamed type member.name := hrank ▸ List.mem_cons_self
    obtain ⟨hparams, hresult, _⟩ := hc.sound.methodsNamed hknown hmem
    refine (safe_implementation hc₁ hknown hmem).bind ?_
    rintro s c₂ - ⟨rfl, _⟩
    refine safe_functionPointer hc₁.registry (Registry.knows_callable.mpr ⟨?_, hresult⟩) rfl
    exact Registry.knowsAll_cons.mpr ⟨hknown, hparams⟩
  · exact .fail

/-! ## Intrinsics -/

/-- The type of an operand, which is compiled for its type alone if it is no type. -/
theorem safe_sizedType {operand : Expr} {value : CompileM Slot} (hc : Ready r c)
    (hvalue : ∀ c₁, Ready r c₁ → Safe Extends value c₁ fun _ _ => True) :
    Safe Extends (sizedType operand value) c fun _ _ => True := by
  have hprobe : Safe Extends (do return (← probe value).type) c fun _ _ => True := by
    refine (safe_probe (P := fun _ => True) fun c₁ hw hx hregs => ?_).bind fun _ _ _ _ =>
      .pure trivial
    refine hvalue c₁ (hc.within hw ?_)
    rw [hregs]
    exact hc.registers
  unfold sizedType
  split
  · refine (safe_meaning? (Q := fun _ c' => c' = c) rfl).bind ?_
    rintro d c₁ - rfl
    split
    · exact .pure trivial
    · exact .pure trivial
    · exact hprobe
  · exact hprobe

/-- A natural number as a literal. -/
theorem safe_internNat {n : Nat} (hc : Ready r c) :
    Safe Extends (internNat n) c fun a c' => Held r c'.extent ⟨.int, a⟩ :=
  (safe_intern hc.literals).mono fun _ _ _ ha => ⟨ha, Registry.knows_prim _⟩

theorem safe_sizeOfOperand {operand : Expr} {value : CompileM Slot} (hc : Ready r c)
    (hvalue : ∀ c₁, Ready r c₁ → Safe Extends value c₁ fun _ _ => True) :
    Safe Extends (sizeOfOperand operand value) c fun s c' => Held r c'.extent s := by
  unfold sizeOfOperand
  refine (safe_sizedType hc hvalue).bind fun type c₁ h₁ _ => ?_
  refine .lengthOf_bind ?_
  refine (safe_internNat (hc.after h₁)).bind fun a c₂ _ ha => ?_
  exact .pure ha

theorem safe_lengthOfArray {array : Slot} {span : Span} (hc : Ready r c)
    (harray : Held r c.extent array) :
    Safe Extends (lengthOfArray array span) c fun s c' => Held r c'.extent s := by
  unfold lengthOfArray
  cases helement : array.type.element? with
  | none => exact .typeName_bind .fail_bind
  | some element =>
    have hstorage := harray.storage
    rw [eq_array_of_element? helement] at hstorage
    have hpointer : c.extent.Holds (array.address, r.pointerSize) := hstorage
    refine safe_alloc_fresh.bind fun dst c₁ h₁ hfresh => ?_
    have hc₁ := hc.after h₁
    refine (safe_withRegister (P := fun _ x => x.Holds (dst, Prim.int.size))
      (Nat.lt_of_lt_of_le Nat.zero_lt_two hc₁.registers) fun reg c₂ h₂ hx _ => ?_).bind
      fun _ c₃ _ hfresh₃ => .pure ⟨hfresh₃, Registry.knows_prim _⟩
    have hpointer₁ := hpointer.mono h₁.extent (Nat.le_refl _)
    rw [← hx] at hpointer₁ hfresh
    refine safe_emit_bind (List.forall_mem_singleton.mpr ?_) (List.forall_mem_nil _) trivial
      fun c₃ _ hx₃ => ?_
    · rw [h₂.registry, hc₁.registry]
      exact hpointer₁
    · rw [← hx₃] at hfresh
      refine (safe_emit (List.forall_mem_nil _) ?_ (by trivial)).mono fun _ c₄ h₄ _ =>
        hfresh.mono h₄.extent (Nat.le_refl _)
      exact List.forall_mem_singleton.mpr hfresh

end CompileM

end ClassLang
