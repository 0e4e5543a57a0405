import ClassLang.Compile
import ClassLang.Proofs.Dispatch.Vtable
import ClassLang.Proofs.Lowering.Emission
import ClassLang.Proofs.Ty.Storage
import Mathlib.Algebra.GroupWithZero.Nat

/-!
# When caller and callee agree on the frame of a virtual call

The caller of a virtual method lays out the callee's frame from the slot that the static class
sees: the return slot, the receiver, the arguments. The callee has laid it out from its own
signature. Both use the same offsets, one after another from the length of the result on.

All classes that see a slot store its parameters alike, and its result up to the difference
between numeric scalars: a method may override one that returns `int` or `float` by one that
returns `char` or `byte`, since that conversion is strong. This is the one case in which caller
and callee disagree, and then the receiver and all arguments are off.
-/

namespace ClassLang

open CompileM Registration

/-! ## Offsets in a call region -/

/-- Where values of given lengths start when they are stored one after another from `n` on. -/
def offsetsFrom : Nat → List Nat → List Nat
  | _, [] => []
  | n, l :: ls => n :: offsetsFrom (n + l) ls

/-- The offsets of the receiver and the parameters in the frame of a method: they follow the
return slot. -/
def Registry.regionOffsets (r : Registry) (result : Ty) (params : List Ty) : List Nat :=
  offsetsFrom (r.length result) (r.pointerSize :: params.map r.length)

theorem offsetsFrom_add (base n : Nat) (ls : List Nat) :
    offsetsFrom (base + n) ls = (offsetsFrom n ls).map (base + ·) := by
  induction ls generalizing n with
  | nil => rfl
  | cons l ls ih =>
    rw [offsetsFrom, offsetsFrom, List.map_cons, Nat.add_assoc, ih]

namespace Lowering

/-- The code that stores values, each at its offset from a base. -/
def storeAt (base : Nat) (values : List (Address × Nat)) (offsets : List Nat) : List Instr :=
  (values.zip offsets).flatMap fun x => moveCode (.frame (base + x.2)) x.1.1 x.1.2

theorem storeArgs_code {args : List Slot} :
    ∀ {c c' : Compilation} {u : Unit}, Yields (args.forM fun arg => do
        let length ← lengthOf arg.type
        move (← alloc length) arg.address length) c u c' →
      c'.registry = c.registry ∧ c'.frame.code.toList = c.frame.code.toList ++
        storeAt 0 (args.map fun a => (a.address, c.registry.length a.type))
          (offsetsFrom c.frame.top (args.map fun a => c.registry.length a.type)) ∧
      c'.frame.top = c.frame.top + (args.map fun a => c.registry.length a.type).sum := by
  induction args with
  | nil =>
    intro c c' u h
    rw [yields_forM_nil] at h
    subst h
    exact ⟨rfl, (List.append_nil _).symm, rfl⟩
  | cons a args ih =>
    intro c c' u h
    rw [yields_forM_cons] at h
    obtain ⟨_, c₁, hstep, hrest⟩ := h
    simp only [yields_bind, yields_lengthOf, yields_alloc, yields_move, and_assoc,
      exists_and_left, exists_eq_left] at hstep
    subst hstep
    obtain ⟨hreg, hcode, htop⟩ := ih hrest
    refine ⟨hreg, ?_, ?_⟩
    · rw [hcode]
      simp [storeAt, offsetsFrom, Frame.append_code]
    · rw [htop]
      simp [Nat.add_assoc]

/-- What the caller of a function stores: the receiver if there is one, and the arguments. -/
def storedValues (r : Registry) (receiver : Option Address) (args : List Slot) :
    List (Address × Nat) :=
  (receiver.map (·, r.pointerSize)).toList ++ args.map fun a => (a.address, r.length a.type)

/-- The caller stores the receiver and the arguments one after another behind the result, from the
top of its own frame on, and then calls. -/
theorem emitCall_stores {callee : Callee} {result : Ty} {receiver : Option Address}
    {args : List Slot} {c c' : Compilation} {value : Slot}
    (h : Yields (emitCall callee result receiver args) c value c') :
    value = ⟨result, .frame c.frame.top⟩ ∧ ∃ c₁ u,
      c₁.frame.code.toList = c.frame.code.toList ++
        storeAt c.frame.top (storedValues c.registry receiver args)
          (offsetsFrom (c.registry.length result)
            ((storedValues c.registry receiver args).map (·.2))) ∧
      c₁.frame.top = c.frame.top + (c.registry.length result +
        ((storedValues c.registry receiver args).map (·.2)).sum) ∧
      Yields (emitCallee callee receiver (.frame c.frame.top)
        (handedOver c.registry result receiver args)) c₁ u c' := by
  -- The offsets count from the new top, the places from the bottom of the frame.
  have hoffsets : ∀ n, offsetsFrom (c.frame.top + n) (args.map fun a => c.registry.length a.type) =
      (offsetsFrom n (args.map fun a => c.registry.length a.type)).map (c.frame.top + ·) :=
    fun n => offsetsFrom_add ..
  cases receiver with
  | none =>
    simp only [emitCall, yields_bind, yields_get, yields_allocFor, yields_fromRegistry, yields_pure,
      and_assoc, exists_and_left, exists_eq_left] at h
    obtain ⟨_, c₁, hargs, u, c₂, hcall, rfl, rfl⟩ := h
    obtain ⟨hreg, hcode, htop⟩ := storeArgs_code hargs
    refine ⟨rfl, c₁, u, ?_, ?_, hreg ▸ hcall⟩
    · rw [hcode]
      dsimp only
      simp only [Frame.grow_top, Frame.grow_code, storeAt, storedValues, Option.map_none,
        Option.toList_none, List.nil_append, List.map_map, Function.comp_def, Nat.zero_add,
        hoffsets, List.zip_map_right, List.flatMap_map, Prod.map_fst, Prod.map_snd, id_eq]
    · rw [htop]
      simp only [Frame.grow_top, storedValues, Option.map_none, Option.toList_none,
        List.nil_append, List.map_map, Function.comp_def, Nat.add_assoc]
  | some receiver =>
    simp only [emitCall, yields_bind, yields_get, yields_allocFor, yields_pointerSize,
      yields_alloc, yields_move, yields_fromRegistry, yields_pure, and_assoc, exists_and_left,
      exists_eq_left] at h
    obtain ⟨_, _, c₁, hargs, u, c₂, hcall, rfl, rfl⟩ := h
    obtain ⟨hreg, hcode, htop⟩ := storeArgs_code hargs
    refine ⟨rfl, c₁, u, ?_, ?_, hreg ▸ hcall⟩
    · rw [hcode]
      simp only [Compilation.add_frame, Compilation.add_registry, Frame.append_code,
        Frame.append_top, Frame.grow_top, Frame.grow_code, storeAt, storedValues, Option.map_some,
        Option.toList_some, List.cons_append, List.nil_append, List.map_cons, offsetsFrom,
        List.map_map, Function.comp_def, List.zip_cons_cons, List.flatMap_cons, Nat.zero_add,
        Nat.add_assoc, hoffsets, List.zip_map_right, List.flatMap_map, Prod.map_fst, Prod.map_snd,
        id_eq, List.append_assoc]
    · rw [htop]
      simp only [Compilation.add_frame, Compilation.add_registry, Frame.append_top, Frame.grow_top,
        storedValues, Option.map_some, Option.toList_some, List.cons_append, List.nil_append,
        List.map_cons, List.map_map, Function.comp_def, List.sum_cons, Nat.add_assoc]

/-- The caller of a method stores the receiver and the arguments at the offsets of the call
region, from the top of its own frame on, and then calls. -/
theorem emitCall_region {callee : Callee} {result : Ty} {receiver : Address} {args : List Slot}
    {c c' : Compilation} {value : Slot}
    (h : Yields (emitCall callee result (some receiver) args) c value c') :
    value = ⟨result, .frame c.frame.top⟩ ∧ ∃ c₁ u,
      c₁.frame.code.toList = c.frame.code.toList ++ storeAt c.frame.top
        ((receiver, c.registry.pointerSize) ::
          args.map fun a => (a.address, c.registry.length a.type))
        (c.registry.regionOffsets result (args.map (·.type))) ∧
      Yields (emitCallee callee receiver (.frame c.frame.top)
        (handedOver c.registry result receiver args)) c₁ u c' := by
  obtain ⟨hvalue, c₁, u, hcode, _, hcall⟩ := emitCall_stores h
  refine ⟨hvalue, c₁, u, ?_, hcall⟩
  rw [hcode]
  simp only [storedValues, Option.map_some, Option.toList_some, List.cons_append, List.nil_append,
    List.map_cons, List.map_map, Function.comp_def, Registry.regionOffsets]

end Lowering

namespace Bodies

/-- A variable that is defined is found in the innermost scope, and names that were found there
still are. -/
theorem defineVariable_current {s s' : Scopes} {name : String} {t : Ty} {a : Address}
    {isConst : Bool} {span : Span} (h : s.defineVariable name t a isConst span = .ok s') :
    s'.current.find? name = some ⟨.variable ⟨t, a, isConst, span⟩, span⟩ ∧
      ∀ n e, s.current.find? n = some e → s'.current.find? n = some e := by
  -- A variable is never an overload, so a name that is defined again is refused.
  have hscope : ∀ {k k' : Scope}, k.define name (.variable ⟨t, a, isConst, span⟩) span = .ok k' →
      k'.find? name = some ⟨.variable ⟨t, a, isConst, span⟩, span⟩ ∧
        ∀ n e, k.find? n = some e → k'.find? n = some e := by
    intro k k' hk
    unfold Scope.define at hk
    split at hk
    · rename_i hnone
      injection hk with hk
      subst hk
      refine ⟨Table.find?_insert_self .., ?_⟩
      intro n e hn
      have hne : name ≠ n := by
        rintro rfl
        rw [hnone] at hn
        cases hn
      exact (Table.find?_insert_of_ne _ hne _).trans hn
    · rename_i heq
      cases heq
    · cases hk
  unfold Scopes.defineVariable Scopes.define at h
  unfold Scopes.current
  split at h
  · rename_i hinner
    simp only [Scopes.defineGlobal, except_bind_eq_ok, except_pure_eq_ok] at h
    obtain ⟨k', hk', rfl⟩ := h
    rw [hinner]
    exact hscope hk'
  · rename_i hinner
    simp only [except_bind_eq_ok, except_pure_eq_ok] at h
    obtain ⟨k', hk', rfl⟩ := h
    rw [hinner]
    exact hscope hk'

/-- A name stands for a variable at an offset of the frame. -/
def PlacedAt (s : Scopes) (name : String) (offset : Nat) : Prop :=
  ∃ e b, s.current.find? name = some e ∧ e.meaning = .variable b ∧ b.address = .frame offset

theorem defineParams_places {names : List String} :
    ∀ {ts : List Ty} {ps : List Param} {c c' : Compilation} {u : Unit},
      names.length = ts.length → ts.length = ps.length →
      Yields (defineParams names ts ps) c u c' →
      List.Forall₂ (PlacedAt c'.scopes) names
        (offsetsFrom c.frame.top (ts.map c.registry.length)) ∧
      ∀ n e, c.scopes.current.find? n = some e → c'.scopes.current.find? n = some e := by
  induction names with
  | nil =>
    intro ts ps c c' u hts hps h
    have hnil := List.length_eq_zero_iff.mp hts.symm
    subst hnil
    obtain ⟨_, rfl⟩ := yields_pure.mp h
    exact ⟨.nil, fun _ _ he => he⟩
  | cons name names ih =>
    intro ts ps c c' u hts hps h
    obtain ⟨t, ts, rfl⟩ := List.exists_cons_of_length_eq_add_one hts.symm
    obtain ⟨p, ps, rfl⟩ := List.exists_cons_of_length_eq_add_one hps.symm
    simp only [defineParams, yields_bind, yields_allocFor, yields_updateScopes, and_assoc,
      exists_and_left, exists_eq_left] at h
    obtain ⟨_, _, ⟨s, hs, rfl⟩, hrest⟩ := h
    obtain ⟨hself, hold⟩ := defineVariable_current hs
    obtain ⟨hplaced, hkeeps⟩ := ih (Nat.succ.inj hts) (Nat.succ.inj hps) hrest
    refine ⟨.cons ⟨_, _, hkeeps _ _ hself, rfl, rfl⟩ hplaced, ?_⟩
    intro n e he
    exact hkeeps n e (hold n e he)

/-- A method finds its receiver and its parameters at the offsets of the call region. -/
theorem prologue_region {owner : TypeHash} {span : Span} {s : Signature} {ps : List Param}
    {c c' : Compilation} {u : Unit} (htop : c.frame.top = c.registry.length s.result)
    (hnames : s.paramNames.length = s.params.length) (hparams : s.params.length = ps.length)
    (h : Yields (do defineReceiver owner span; defineParams s.paramNames s.params ps) c u c') :
    List.Forall₂ (PlacedAt c'.scopes) ("this" :: s.paramNames)
      (c.registry.regionOffsets s.result s.params) := by
  simp only [defineReceiver, yields_bind, yields_pointerSize, yields_alloc, yields_updateScopes,
    and_assoc, exists_and_left, exists_eq_left] at h
  obtain ⟨_, _, ⟨_, c₁, htemplates, scopes, hscopes, rfl⟩, hrest⟩ := h
  have hreg : c₁.registry = c.registry := htemplates.keeps
  have hframe : c₁.frame = c.frame := htemplates.keeps
  obtain ⟨hself, _⟩ := defineVariable_current hscopes
  obtain ⟨hplaced, hkeeps⟩ := defineParams_places hnames hparams hrest
  unfold Registry.regionOffsets
  rw [offsetsFrom, ← htop, ← hreg, ← hframe]
  exact .cons ⟨_, _, hkeeps _ _ hself, rfl, rfl⟩ hplaced

end Bodies

namespace Dispatch

/-! ## One slot, one layout -/

/-- Two slots store their parameters alike, and their results up to the difference between
numeric scalars. -/
structure SameStorage (a b : Rank) : Prop where
  params : a.params.map Ty.storage = b.params.map Ty.storage
  result : a.result.storage.family = b.result.storage.family
  noParam : (∀ t ∈ a.params, t.isParam = false) ∧ a.result.isParam = false

theorem Descends.sameStorage {r : Registry} {h : TypeHash} {c base : Class}
    {own : List OwnMethod} {k k' k₀ : Rank} (hsigned : ∀ o ∈ own, Signed r h o)
    (hdesc : Descends r c own base k k') (hk : SameStorage k k₀) : SameStorage k' k₀ := by
  obtain ⟨hparams, hresult, hno, hnores⟩ := hk
  have hown : ∀ t ∈ k.params, (c.inOwnTerms base t).storage = t.storage :=
    fun t ht => (c.storage_inOwnTerms base (hno t ht)).1
  refine ⟨?_, ?_, ?_, ?_⟩
  · rw [hdesc.params, List.map_map, ← hparams]
    exact List.map_congr_left hown
  · rcases hdesc.result with ⟨hres, _⟩ | ⟨o, _, _, hres, hcheck⟩
    · rw [hres, (c.storage_inOwnTerms base hnores).1, hresult]
    · have hfamily := Registry.family_of_convertsStrongly (converts_of_checkOverride hcheck)
      rw [hres, hfamily, ← hresult]
      exact congrArg Storage.family (c.storage_inOwnTerms base hnores).1
  · intro t ht
    rw [hdesc.params] at ht
    obtain ⟨t₀, ht₀, rfl⟩ := List.mem_map.mp ht
    exact (c.storage_inOwnTerms base (hno t₀ ht₀)).2
  · rcases hdesc.result with ⟨hres, _⟩ | ⟨o, ho, _, hres, _⟩
    · rw [hres]
      exact (c.storage_inOwnTerms base hnores).2
    · rw [hres]
      exact (hsigned o ho).result

/-- Wherever a slot is seen, it is stored as it was where it was introduced. -/
theorem Tables.exists_sameStorage {r : Registry} (ht : Tables r) {h₁ h₂ : TypeHash} {c₁ c₂ : Class}
    (hc₁ : r.class? h₁ = some c₁) (hc₂ : r.class? h₂ = some c₂) {k₁ k₂ : Rank}
    (hk₁ : k₁ ∈ c₁.ranks) (hk₂ : k₂ ∈ c₂.ranks) (hslot : k₁.slot = k₂.slot) :
    ∃ k₀, SameStorage k₁ k₀ ∧ SameStorage k₂ k₀ :=
  ht.common_origin (R := SameStorage)
    (fun _ hsigned ho heq => by
      refine ⟨rfl, rfl, ?_, ?_⟩
      · rw [heq]
        exact (hsigned _ ho).params
      · rw [heq]
        exact (hsigned _ ho).result)
    (fun _ hsigned hdesc hR => hdesc.sameStorage hsigned hR) hc₁ hc₂ hk₁ hk₂ hslot

/-- Wherever a slot is seen, its parameters are stored alike, and so is its result up to the
difference between numeric scalars. -/
theorem Tables.sameStorage {r : Registry} (ht : Tables r) {h₁ h₂ : TypeHash} {c₁ c₂ : Class}
    (hc₁ : r.class? h₁ = some c₁) (hc₂ : r.class? h₂ = some c₂) {k₁ k₂ : Rank}
    (hk₁ : k₁ ∈ c₁.ranks) (hk₂ : k₂ ∈ c₂.ranks) (hslot : k₁.slot = k₂.slot) :
    k₁.params.map Ty.storage = k₂.params.map Ty.storage ∧
      k₁.result.storage.family = k₂.result.storage.family := by
  obtain ⟨k₀, h₁, h₂⟩ := ht.exists_sameStorage hc₁ hc₂ hk₁ hk₂ hslot
  exact ⟨h₁.params.trans h₂.params.symm, h₁.result.trans h₂.result.symm⟩

/-- The result of an override is narrower or wider than the one that the caller expects. -/
def WidthDiffers (a b : Ty) : Prop :=
  a.isNarrow = true ∧ b.isWide = true ∨ a.isWide = true ∧ b.isNarrow = true

/-- Equal offsets follow from equal lengths, and need them. -/
theorem regionOffsets_eq_iff {r : Registry} {a b : Ty} {as bs : List Ty}
    (h : as.map r.length = bs.map r.length) :
    r.regionOffsets a as = r.regionOffsets b bs ↔ r.length a = r.length b := by
  unfold Registry.regionOffsets
  rw [h]
  constructor
  · intro heq
    rw [offsetsFrom, offsetsFrom] at heq
    exact (List.cons.inj heq).1
  · intro heq
    rw [heq]

/-- The caller of a slot stores the receiver and the arguments at given offsets from the top of
its frame, and calls with a frame that starts there. -/
def CallerStoresAt (r : Registry) (k : Rank) (offsets : List Nat) : Prop :=
  ∀ {callee receiver} {args : List Slot} {c c' value}, c.registry = r →
    args.map (fun a => r.length a.type) = k.params.map r.length →
    Yields (Lowering.emitCall callee k.result (some receiver) args) c value c' →
    ∃ c₁ u, c₁.frame.code.toList = c.frame.code.toList ++ Lowering.storeAt c.frame.top
        ((receiver, r.pointerSize) :: args.map fun a => (a.address, r.length a.type)) offsets ∧
      Yields (Lowering.emitCallee callee receiver (.frame c.frame.top)
        (Lowering.handedOver r k.result receiver args)) c₁ u c'

/-- The body of a method, compiled after its return slot, finds its receiver and its parameters
at given offsets of its frame. -/
def CalleeFindsAt (r : Registry) (sig : Signature) (offsets : List Nat) : Prop :=
  ∀ {owner span} {ps : List Param} {c c' u}, c.registry = r → c.frame.top = r.length sig.result →
    sig.params.length = ps.length →
    Yields (do
      Bodies.defineReceiver owner span
      Bodies.defineParams sig.paramNames sig.params ps) c u c' →
    List.Forall₂ (Bodies.PlacedAt c'.scopes) ("this" :: sig.paramNames) offsets

/-- In an accepted program, let a slot of an ancestor of `D` be bound to a function. Its
parameters take the space that the ancestor's slot says. Its result does, and receiver and
arguments are where the caller puts them, unless one of the two results is `char` or `byte` and
the other `int` or `float`. -/
theorem call_frame_agrees_iff {o : Options} {p : Program} {r : Registry}
    (h : accepted? o p = some r) {d a : TypeHash} {D A : Class} (hD : r.class? d = some D)
    (ha : a ∈ D.mro) (hA : r.class? a = some A) {k : Rank} (hk : k ∈ A.ranks) {f : Nat}
    (hf : D.implementation? k.slot = some (some f)) :
    ∃ sig caller callee, r.function? f = some sig ∧
      k.params.map r.length = sig.params.map r.length ∧
      (r.length k.result = r.length sig.result ↔ ¬WidthDiffers k.result sig.result) ∧
      CallerStoresAt r k caller ∧ CalleeFindsAt r sig callee ∧
      (caller = callee ↔ ¬WidthDiffers k.result sig.result) := by
  have ht := tables_of_accepted? h
  have hsees := ht.sees_of_mem_mro hD ha hA (Class.sees_iff.mpr ⟨k, hk, rfl⟩)
  obtain ⟨m, hm, rfl⟩ := ht.firstDeclared_of_bound hD hsees hf
  obtain ⟨b, B, sig, _, hB, _, _, hsig, _, hnames, hrank⟩ := ht.firstDeclared_rank hm
  obtain ⟨hparams, hresult⟩ := ht.sameStorage hA hB hk hrank rfl
  have hlengths : k.params.map r.length = sig.params.map r.length := by
    have hmap : ∀ ts : List Ty, ts.map r.length = (ts.map Ty.storage).map r.storageLength := by
      intro ts
      rw [List.map_map]
      exact List.map_congr_left fun t _ => r.length_eq t
    rw [hmap, hmap, hparams]
  have hwidth := r.length_eq_iff_of_family hresult
  refine ⟨sig, r.regionOffsets k.result k.params, r.regionOffsets sig.result sig.params, hsig,
    hlengths, hwidth, ?_, ?_, (regionOffsets_eq_iff hlengths).trans hwidth⟩
  · intro callee receiver args c c' value hr hargs hcall
    obtain ⟨_, c₁, u, hcode, hrest⟩ := Lowering.emitCall_region hcall
    refine ⟨c₁, u, ?_, hr ▸ hrest⟩
    rw [hcode, hr]
    unfold Registry.regionOffsets
    rw [List.map_map, ← hargs]
    rfl
  · intro owner span ps c c' u hr htop hps hbody
    have hplaced := Bodies.prologue_region (hr ▸ htop) hnames hps hbody
    rwa [hr] at hplaced

set_option maxRecDepth 100000 in
theorem call_frame_agrees_diamond : ∃ r k f sig caller callee, accepted? {} diamond = some r ∧
    firstBinding? r (TypeHash.ofName "m$D") (TypeHash.ofName "m$A") = some (k, f) ∧
    r.function? f = some sig ∧ CallerStoresAt r k caller ∧ CalleeFindsAt r sig callee ∧
    (caller = callee ↔ ¬WidthDiffers k.result sig.result) := by
  have hrun : (((accepted? {} diamond).bind fun r =>
      firstBinding? r (TypeHash.ofName "m$D") (TypeHash.ofName "m$A")).map (·.2)) = some 1 := by
    decide +kernel
  obtain ⟨⟨k, f⟩, hrun, _⟩ := Option.map_eq_some_iff.mp hrun
  obtain ⟨r, hr, hbinding⟩ := Option.bind_eq_some_iff.mp hrun
  obtain ⟨D, A, hD, ha, hA, hk, hf⟩ := firstBinding?_eq_some hbinding
  obtain ⟨sig, caller, callee, hsig, _, _, hcaller, hcallee, hiff⟩ :=
    call_frame_agrees_iff hr hD ha hA hk hf
  exact ⟨r, k, f, sig, caller, callee, hr, hbinding, hsig, hcaller, hcallee, hiff⟩

/-- A method that returns `char` overrides one that returns `int`. -/
def narrowing : Program :=
  ⟨[⟨"m", [
    sampleClass "A" false [] [sampleMethod "f" false (some (.named "int" [] .unknown))],
    sampleClass "B" false ["A"] [sampleMethod "f" false (some (.named "char" [] .unknown))]]⟩]⟩

set_option maxRecDepth 100000 in
/-- Caller and callee can disagree on the length of the result. -/
theorem call_frame_can_differ : ¬∀ (o : Options) (p : Program) (r : Registry)
    (d a : TypeHash) (D A : Class) (k : Rank) (f : Nat), accepted? o p = some r →
    r.class? d = some D → a ∈ D.mro → r.class? a = some A → k ∈ A.ranks →
    D.implementation? k.slot = some (some f) →
    ∃ sig, r.function? f = some sig ∧ r.length k.result = r.length sig.result := by
  intro hall
  have hrun : ((accepted? {} narrowing).bind fun r =>
      (firstBinding? r (TypeHash.ofName "m$B") (TypeHash.ofName "m$A")).bind fun x =>
        (r.function? x.2).map fun sig => (r.length x.1.result, r.length sig.result)) =
      some (8, 1) := by
    decide +kernel
  obtain ⟨r, hr, hrun⟩ := Option.bind_eq_some_iff.mp hrun
  obtain ⟨⟨k, f⟩, hbinding, hrun⟩ := Option.bind_eq_some_iff.mp hrun
  obtain ⟨sig, hsig, hlengths⟩ := Option.map_eq_some_iff.mp hrun
  obtain ⟨D, A, hD, ha, hA, hk, hf⟩ := firstBinding?_eq_some hbinding
  obtain ⟨sig', hsig', heq⟩ := hall {} narrowing r _ _ D A k f hr hD ha hA hk hf
  rw [hsig] at hsig'
  injection hsig' with hsig'
  subst hsig'
  injection hlengths with h₁ h₂
  dsimp only at h₁
  omega

end Dispatch

end ClassLang
