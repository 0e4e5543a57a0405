import ClassLang.Proofs.Safety.Known
import ClassLang.Proofs.Safety.Steps

/-!
# States in which expressions can be compiled

Expressions are compiled against a registry that is complete: fields lie inside of their objects,
slots are bound, and all types in it are known. A state is *ready* for expressions if its registry
is such a one, two registers are free, and all that is in scope can be used: variables lie in the
storage, and functions and classes are registered. A step that changes the state as an expression
may leaves it ready.
-/

namespace ClassLang

open CompileM

/-! ## Complete registries -/

/-- What is in the registry can be relied on. -/
structure Registry.Sound (r : Registry) : Prop where
  pointer : r.pointerSize ≤ Prim.int.size
  templates : ∀ {h c}, r.class? h = some c → ∀ p ∈ c.templates, r.Has p.bound
  /-- Fields are not stored as template parameters, and lie inside of the object. -/
  fields : ∀ {h c}, r.class? h = some c → ∀ f ∈ c.fields,
    f.type.isParam = false ∧ r.Knows f.type ∧ f.offset + r.length f.type ≤ c.length
  /-- Slots are bound, to registered functions or to nothing. -/
  ranks : ∀ {h c}, r.class? h = some c → ∀ k ∈ c.ranks, r.KnowsAll k.params ∧ r.Knows k.result ∧
    ∃ f, c.implementation? k.slot = some f ∧ ∀ id ∈ f, id < r.functions.size
  functions : ∀ {id s}, r.function? id = some s →
    r.KnowsAll s.params ∧ r.Knows s.result ∧ ∀ h, s.owner = .classOf h → r.Has h

namespace Registry

variable {r : Registry}

theorem Has.getClass {h : TypeHash} (hh : r.Has h) :
    ∃ c, r.getClass h = .ok c ∧ r.class? h = some c := by
  obtain ⟨c, hc⟩ := hh
  exact ⟨c, Registry.getClass_eq_ok.mpr hc, hc⟩

theorem exists_getFunction {id : Nat} (h : id < r.functions.size) :
    ∃ s, r.getFunction id = .ok s ∧ r.function? id = some s := by
  have hs : r.function? id = some r.functions[id] := Array.getElem?_eq_getElem h
  refine ⟨_, ?_, hs⟩
  unfold getFunction
  rw [hs]

/-- Fields lie inside of the values that have them. -/
theorem Sound.field_fits (hr : r.Sound) {t type : Ty} {name : String} {offset : Nat}
    (h : r.field? t name = some (offset, type)) : offset + r.length type ≤ r.length t := by
  unfold Registry.field? at h
  obtain ⟨k, hk, h⟩ := Option.bind_eq_some_iff.mp h
  obtain ⟨c, hc, h⟩ := Option.bind_eq_some_iff.mp h
  obtain ⟨f, hf, h⟩ := Option.bind_eq_some_iff.mp h
  injection h with h
  injection h with hoffset htype
  subst hoffset htype
  obtain ⟨hparam, -, hle⟩ := hr.fields hc f (List.mem_of_find?_eq_some hf)
  have hlength : r.length t = c.length := by
    cases t with
    | classRef _ | applied _ _ | param _ _ =>
      injection hk with hk
      subst hk
      show ((r.class? _).map (·.length)).getD 0 = _
      rw [hc]
      rfl
    | _ => cases hk
  rw [hlength, r.length_eq, (Ty.storage_substitute _ _ hparam).1, ← r.length_eq]
  exact hle

theorem Sound.field? (hr : r.Sound) {t type : Ty} {name : String} {offset : Nat}
    (ht : r.Knows t) (h : r.field? t name = some (offset, type)) :
    r.Knows type ∧ offset + r.length type ≤ r.length t := by
  refine ⟨?_, hr.field_fits h⟩
  unfold Registry.field? at h
  obtain ⟨k, -, h⟩ := Option.bind_eq_some_iff.mp h
  obtain ⟨c, hc, h⟩ := Option.bind_eq_some_iff.mp h
  obtain ⟨f, hf, h⟩ := Option.bind_eq_some_iff.mp h
  injection h with h
  injection h with _ htype
  exact htype ▸ (hr.fields hc f (List.mem_of_find?_eq_some hf)).2.1.substitute ht.args

/-- The slots of a known type can be called. -/
theorem Sound.methodsNamed (hr : r.Sound) {t : Ty} {name : String} (ht : r.Knows t) {k : Rank}
    (hk : k ∈ r.methodsNamed t name) : r.KnowsAll k.params ∧ r.Knows k.result ∧
      ∃ h c f, t.classHash? = some h ∧ r.getClass h = .ok c ∧
        c.implementation? k.slot = some f ∧ ∀ id ∈ f, id < r.functions.size := by
  unfold Registry.methodsNamed at hk
  split at hk
  · exact absurd hk List.not_mem_nil
  · rename_i c hc
    obtain ⟨h, hh, hc⟩ := Option.bind_eq_some_iff.mp hc
    obtain ⟨k₀, hk₀, rfl⟩ := List.mem_map.mp hk
    obtain ⟨hparams, hresult, f, hf, hids⟩ := hr.ranks hc k₀ (List.mem_filter.mp hk₀).1
    exact ⟨hparams.substitute ht.args, hresult.substitute ht.args, h, c, f, hh,
      Registry.getClass_eq_ok.mpr hc, hf, hids⟩

end Registry

/-! ## What is in scope -/

/-- The slot lies in the storage, and its type is known. -/
structure Held (r : Registry) (x : Extent) (s : Slot) : Prop where
  storage : x.Holds (s.address, r.length s.type)
  known : r.Knows s.type

theorem Held.mono {r : Registry} {x y : Extent} {s : Slot} (h : Held r x s) (hle : x.Le y) :
    Held r y s := ⟨h.storage.mono hle (Nat.le_refl _), h.known⟩

/-- What a name stands for is registered. -/
def Meaning.Registered (r : Registry) : Meaning → Prop
  | .functions ids => ids ≠ [] ∧ ∀ id ∈ ids, id < r.functions.size
  | .classOf h => r.Has h
  | .typeParam t => r.Knows t
  | _ => True

/-- What a name stands for can be used. -/
def Meaning.Usable (r : Registry) (x : Extent) (m : Meaning) : Prop :=
  m.Registered r ∧ ∀ b, m = .variable b → Held r x ⟨b.type, b.address⟩

theorem Meaning.Usable.mono {r : Registry} {x y : Extent} {m : Meaning} (h : m.Usable r x)
    (hle : x.Le y) : m.Usable r y := ⟨h.1, fun b hb => (h.2 b hb).mono hle⟩

/-- The names that are visible are registered. -/
def Named (r : Registry) (c : Compilation) : Prop :=
  ∀ name e, c.scopes.find? name = some e → e.meaning.Registered r

/-- Expressions can be compiled. -/
structure Ready (r : Registry) (c : Compilation) : Prop where
  registry : c.registry = r
  sound : r.Sound
  registers : 2 ≤ c.frame.freeRegisters.length
  literals : c.literals.Inside
  names : ∀ name e, c.scopes.find? name = some e → e.meaning.Usable r c.extent
  /-- Inside of a method, what is called `this` is in the frame. -/
  receiver : c.scopes.receiverClass?.isSome = true → ∀ b span,
    c.scopes.find? "this" = some ⟨.variable b, span⟩ → ∃ k, b.address = .frame k
  /-- The frame starts with the result. -/
  result : ∀ f, c.scopes.function? = some f → Held r c.extent ⟨f.result, .frame 0⟩

/-- Expressions that do not mention the receiver can be compiled. -/
structure Furnished (r : Registry) (c : Compilation) : Prop where
  registry : c.registry = r
  sound : r.Sound
  registers : 2 ≤ c.frame.freeRegisters.length
  literals : c.literals.Inside
  names : ∀ name e, c.scopes.find? name = some e → e.meaning.Usable r c.extent
  result : ∀ f, c.scopes.function? = some f → Held r c.extent ⟨f.result, .frame 0⟩

theorem Furnished.ready {r : Registry} {c : Compilation} (hc : Furnished r c)
    (hreceiver : c.scopes.receiverClass?.isSome = true → ∀ b span,
      c.scopes.find? "this" = some ⟨.variable b, span⟩ → ∃ k, b.address = .frame k) : Ready r c :=
  ⟨hc.registry, hc.sound, hc.registers, hc.literals, hc.names, hreceiver, hc.result⟩

namespace Ready

variable {r : Registry} {c c' : Compilation}

theorem furnished (h : Ready r c) : Furnished r c :=
  ⟨h.registry, h.sound, h.registers, h.literals, h.names, h.result⟩

theorem named (h : Ready r c) : Named r c := fun name e he => (h.names name e he).1

/-- A state is ready if it differs from one that is in nothing but its storage. -/
theorem within (h : Ready r c) (hw : Within c c')
    (hregs : 2 ≤ c'.frame.freeRegisters.length) : Ready r c' where
  registry := hw.registry.trans h.registry
  sound := h.sound
  registers := hregs
  literals := hw.literals h.literals
  names name e he := (h.names name e (hw.scopes ▸ he)).mono hw.extent
  receiver hthis b span he := h.receiver (hw.scopes ▸ hthis) b span (hw.scopes ▸ he)
  result f hf := (h.result f (hw.scopes ▸ hf)).mono hw.extent

theorem after (h : Ready r c) (hx : Extends c c') : Ready r c' :=
  h.within hx.toWithin (hx.registers ▸ h.registers)

end Ready

end ClassLang
