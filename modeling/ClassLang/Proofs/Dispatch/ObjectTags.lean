import ClassLang.Lowering.Expr
import ClassLang.Proofs.Lowering.Emission
import ClassLang.Proofs.Registration.Layout
import ClassLang.Proofs.Safety.Names

/-!
# Which objects get their tag

Every object starts with the tag of its class, and dispatch reads it at the place that a pointer
leads to. An object may hold others by value, and each of these starts with a tag of its own, at the
offset of the field. Declaring a variable without an initializer and creating an object write one
tag each, at the start of the whole object. So all tags are written exactly if the object holds no
others; those it holds are left without a tag.
-/

namespace ClassLang

open CompileM

/-! ## The tags that code writes -/

namespace Instr

/-- Where a register points after an instruction, as far as it is known. -/
def aim (regs : Register → Option Location) : Instr → Register → Option Location
  | addr reg src, r => if r = reg then some (.fixed src) else regs r
  | ptr reg src, r => if r = reg then some (.through src 0) else regs r
  | offset reg n, r => if r = reg then (regs reg).map (·.shift n) else regs r
  | index reg .., r | vtable reg .., r => if r = reg then none else regs r
  | _, r => regs r

/-- The class tag that an instruction writes, and the register with its place. -/
def tag? : Instr → Option (Register × Nat)
  | setTag reg id => some (reg, id)
  | _ => none

end Instr

/-- The class tags that code writes, each with the place of its object. -/
def tagsFrom (regs : Register → Option Location) : List Instr → List (Location × Nat)
  | [] => []
  | i :: rest =>
    (i.tag?.bind fun (reg, id) => (regs reg).map (·, id)).toList ++ tagsFrom (i.aim regs) rest

/-- The class tags that code writes, whatever the registers are at its start. -/
def tags : List Instr → List (Location × Nat) := tagsFrom fun _ => none

theorem tagsFrom_of_none {code : List Instr} (h : ∀ i ∈ code, i.tag? = none) :
    ∀ regs, tagsFrom regs code = [] := by
  induction code with
  | nil => exact fun _ => rfl
  | cons i rest ih =>
    obtain ⟨hi, hrest⟩ := List.forall_mem_cons.mp h
    intro regs
    rw [tagsFrom, hi, ih hrest]
    rfl

/-- Code in front that writes no tag only moves the registers. -/
theorem tagsFrom_append {before : List Instr} (h : ∀ i ∈ before, i.tag? = none)
    (code : List Instr) : ∀ regs, ∃ regs', tagsFrom regs (before ++ code) = tagsFrom regs' code := by
  induction before with
  | nil => exact fun regs => ⟨regs, rfl⟩
  | cons i rest ih =>
    obtain ⟨hi, hrest⟩ := List.forall_mem_cons.mp h
    intro regs
    obtain ⟨regs', heq⟩ := ih hrest (i.aim regs)
    refine ⟨regs', ?_⟩
    rw [List.cons_append, tagsFrom, hi, heq]
    rfl

/-- A register is pointed to an object and the tag is written; the code around writes no tag. -/
theorem tags_eq_singleton {before after : List Instr} {i : Instr} {reg : Register} {l : Location}
    {id : Nat} (hbefore : ∀ j ∈ before, j.tag? = none) (hafter : ∀ j ∈ after, j.tag? = none)
    (hi : i.tag? = none) (haim : ∀ regs, i.aim regs reg = some l) :
    tags (before ++ i :: .setTag reg id :: after) = [(l, id)] := by
  obtain ⟨regs, heq⟩ := tagsFrom_append hbefore (i :: .setTag reg id :: after) fun _ => none
  have htag : ((Instr.setTag reg id).tag?.bind fun x => (i.aim regs x.1).map (·, x.2)) =
      some (l, id) := congrArg (Option.map (·, id)) (haim regs)
  rw [tags, heq, tagsFrom, hi, tagsFrom, htag, tagsFrom_of_none hafter]
  rfl

/-! ## The objects inside of an object -/

/-- An object of type `t` has an object of class `k` at an offset: itself, or one that it holds by
value, at any depth. -/
inductive Registry.Embeds (r : Registry) : Ty → Nat → TypeHash → Prop where
  | self {t : Ty} {k : TypeHash} : t.isClass = true → t.classHash? = some k → Embeds r t 0 k
  | field {t : Ty} {k h : TypeHash} {c : Class} {f : Field} {offset : Nat} : t.isClass = true →
      t.classHash? = some k → r.class? k = some c → f ∈ c.fields →
      Embeds r (f.type.substitute c.templateNames t.args) offset h →
      Embeds r t (f.offset + offset) h

/-- The code writes the tag of every object inside of one of type `t` at `l`. -/
def TagsAll (r : Registry) (t : Ty) (l : Location) (code : List Instr) : Prop :=
  ∀ offset k, r.Embeds t offset k → ∃ c, r.class? k = some c ∧ (l.shift offset, c.id) ∈ tags code

namespace CompileM

variable {α β : Type}

/-- The code that a step emits. -/
def emitted (m : CompileM α) (c : Compilation) : List Instr := (emissions m c).map (·.instr)

theorem emitted_bind {m : CompileM α} {f : α → CompileM β} {c c₁ : Compilation} {a : α}
    (h : Yields m c a c₁) : emitted (m >>= f) c = emitted m c ++ emitted (f a) c₁ := by
  unfold emitted
  rw [emissions_of_yields h, List.map_append]

/-! ## Steps that write no tag -/

/-- The step writes no class tag. -/
class Tagless (m : CompileM α) : Prop where
  none : ∀ c, ∀ i ∈ emitted m c, i.tag? = none

instance tagless_pure (a : α) : Tagless (pure a : CompileM α) :=
  ⟨fun _ _ hi => absurd hi List.not_mem_nil⟩

instance tagless_conclude (x : Except CompileError α) : Tagless (conclude x) :=
  ⟨fun _ _ hi => absurd hi List.not_mem_nil⟩

instance tagless_fail (cause : Cause) (span : Span) : Tagless (fail cause span : CompileM α) :=
  ⟨fun _ _ hi => absurd hi List.not_mem_nil⟩

instance tagless_throw (e : CompileError) : Tagless (throw e : CompileM α) :=
  ⟨fun _ _ hi => absurd hi List.not_mem_nil⟩

instance tagless_get : Tagless (get : CompileM Compilation) :=
  ⟨fun _ _ hi => absurd hi List.not_mem_nil⟩

instance tagless_modifyGet (g : Compilation → α × Compilation) :
    Tagless (modifyGet g : CompileM α) :=
  ⟨fun _ _ hi => absurd hi List.not_mem_nil⟩

instance tagless_modify (g : Compilation → Compilation) : Tagless (modify g : CompileM PUnit) :=
  tagless_modifyGet _

instance tagless_bind (m : CompileM α) (f : α → CompileM β) [hm : Tagless m]
    [hf : ∀ a, Tagless (f a)] : Tagless (m >>= f) where
  none c i hi := by
    obtain ⟨e, he, rfl⟩ := List.mem_map.mp hi
    rcases mem_emissions_bind he with he | ⟨a, c₁, _, he⟩
    · exact hm.none c _ (List.mem_map_of_mem he)
    · exact (hf a).none c₁ _ (List.mem_map_of_mem he)

/-- For a step that goes on by cases on what came before. -/
theorem Tagless.bind {m : CompileM α} {f : α → CompileM β} [Tagless m]
    (hf : ∀ a, Tagless (f a)) : Tagless (m >>= f) := tagless_bind m f

instance tagless_ite {p : Prop} [Decidable p] (m n : CompileM α) [Tagless m] [Tagless n] :
    Tagless (if p then m else n) := by
  split <;> infer_instance

instance tagless_forM (g : α → CompileM PUnit) (xs : List α) [∀ x, Tagless (g x)] :
    Tagless (xs.forM g) := by
  induction xs with
  | nil => exact tagless_pure _
  | cons x xs ih => exact tagless_bind _ _

instance (g : Registry → α) : Tagless (fromRegistry g) := by
  unfold fromRegistry
  infer_instance

instance (g : Registry → Except CompileError α) : Tagless (askRegistry g) := by
  unfold askRegistry
  infer_instance

theorem tagless_emit {i : Instr} {region : Nat} (h : i.tag? = none) : Tagless (emit i region) where
  none c j hj := by
    have hj : j ∈ [i] := hj
    rw [List.mem_singleton.mp hj]
    exact h

instance (dst src : Address) (n : Nat) : Tagless (emit (.mov dst src n)) := tagless_emit rfl
instance (dst : Address) (v : Int) (n : Nat) : Tagless (emit (.imm dst v n)) := tagless_emit rfl
instance (op : ConvertOp) (dst src : Address) : Tagless (emit (.convert op dst src)) :=
  tagless_emit rfl
instance (f : String) (base : Address) (region : Nat) : Tagless (emit (.callFn f base) region) :=
  tagless_emit rfl
instance (n : Nat) (base : Address) (region : Nat) : Tagless (emit (.callNative n base) region) :=
  tagless_emit rfl

instance (n : Nat) : Tagless (alloc n) := by
  unfold alloc updateFrame
  infer_instance

instance (t : Ty) : Tagless (lengthOf t) := by
  unfold lengthOf
  infer_instance

instance (t : Ty) : Tagless (typeName t) := by
  unfold typeName
  infer_instance

instance : Tagless pointerSize := by
  unfold pointerSize
  infer_instance

instance (t : Ty) : Tagless (allocFor t) := by
  unfold allocFor
  infer_instance

instance (l : Literal) : Tagless (intern l) := by
  unfold intern
  infer_instance

instance (n : Nat) : Tagless (internNat n) := by
  unfold internNat
  infer_instance

instance (caution : Caution) (span : Span) : Tagless (warn caution span) := by
  unfold warn
  infer_instance

end CompileM

namespace Lowering

instance (name : String) : Tagless (meaning? name) := by
  unfold meaning?
  infer_instance

instance (n : Native) (span : Span) : Tagless (requireNative n span) := by
  unfold requireNative
  infer_instance

instance (check : BoundCheck) : Tagless (checkOrDefer check) := by
  unfold checkOrDefer checkBound
  infer_instance

mutual

instance tagless_resolveType : ∀ t : TypeExpr, Tagless (resolveType t)
  | .named name args span => by
    have hargs := fun owner ps => tagless_resolveArgs owner ps args
    unfold resolveType
    split
    · infer_instance
    · refine Tagless.bind fun d => ?_
      split
      · dsimp only
        infer_instance
      all_goals infer_instance
  | .pointer inner _ => by
    have := tagless_resolveType inner
    unfold resolveType
    infer_instance
  | .array inner _ => by
    have := tagless_resolveType inner
    unfold resolveType
    infer_instance
  | .function params result _ => by
    have := tagless_resolveTypes params
    have := tagless_resolveType result
    unfold resolveType
    infer_instance

instance tagless_resolveTypes : ∀ ts : List TypeExpr, Tagless (resolveTypes ts)
  | [] => by
    unfold resolveTypes
    infer_instance
  | t :: ts => by
    have := tagless_resolveType t
    have := tagless_resolveTypes ts
    unfold resolveTypes
    infer_instance

instance tagless_resolveArgs (owner : String) :
    ∀ (ps : List TemplateParam) (ts : List TypeExpr), Tagless (resolveArgs owner ps ts)
  | p :: ps, t :: ts => by
    have := tagless_resolveType t
    have := tagless_resolveArgs owner ps ts
    unfold resolveArgs
    infer_instance
  | [], _ => by
    unfold resolveArgs
    infer_instance
  | _ :: _, [] => by
    unfold resolveArgs
    infer_instance

end

instance (t : TypeExpr) : Tagless (resolveClass t) := by
  unfold resolveClass
  infer_instance

instance (dst src : Address) (n : Nat) : Tagless (move dst src n) := by
  unfold move
  infer_instance

instance (dst src : Address) (n m : Nat) : Tagless (copyBits dst src n m) := by
  unfold copyBits
  infer_instance

instance (source target : Ty) (span : Span) : Tagless (checkConversion source target span) := by
  unfold checkConversion
  refine Tagless.bind fun c => ?_
  dsimp only
  split <;> infer_instance

instance (value dest : Slot) (k : Conversion) : Tagless (convertInto value dest k) := by
  unfold convertInto
  refine Tagless.bind fun _ => Tagless.bind fun _ => ?_
  dsimp only
  split <;> infer_instance

instance (value : Slot) (target : Ty) (span : Span) : Tagless (coerce value target span) := by
  unfold coerce
  infer_instance

instance tagless_coerceArgs : ∀ (args : List Slot) (params : List Ty) (spans : List Span),
    Tagless (coerceArgs args params spans)
  | arg :: args, param :: params, span :: spans => by
    have := tagless_coerceArgs args params spans
    unfold coerceArgs
    infer_instance
  | [], _, _ => by
    unfold coerceArgs
    infer_instance
  | _ :: _, [], _ => by
    unfold coerceArgs
    infer_instance
  | _ :: _, _ :: _, [] => by
    unfold coerceArgs
    infer_instance

instance (owner : Ty) (name : String) (args : List Slot) (span : Span) :
    Tagless (selectMethod owner name args span) := by
  unfold selectMethod select
  refine Tagless.bind fun c => ?_
  dsimp only
  split <;> infer_instance

instance (owner : Ty) (name : String) (slot : Nat) (span : Span) :
    Tagless (implementation owner name slot span) := by
  unfold implementation
  split
  · infer_instance
  · refine Tagless.bind fun c => ?_
    split <;> infer_instance

instance (owner : Ty) (name : String) : Tagless (hasMethod owner name) := by
  unfold hasMethod
  infer_instance

instance (f : String) (receiver : Option Address) (base : Address) (region : Nat) :
    Tagless (emitCallee (.function f) receiver base region) := by
  unfold emitCallee
  infer_instance

instance (n : Native) (receiver : Option Address) (base : Address) (region : Nat) :
    Tagless (emitCallee (.native n) receiver base region) := by
  unfold emitCallee
  infer_instance

instance (callee : Callee) (result : Ty) (receiver : Option Address) (args : List Slot)
    [∀ base region, Tagless (emitCallee callee receiver base region)] :
    Tagless (emitCall callee result receiver args) := by
  unfold emitCall
  refine Tagless.bind fun c => ?_
  dsimp only
  refine Tagless.bind fun a => ?_
  split <;> infer_instance

instance (type : Ty) (object : Slot) (args : CompileM (List Slot)) [Tagless args]
    (argSpans : List Span) (span : Span) :
    Tagless (constructObject type object args argSpans span) := by
  unfold constructObject
  dsimp only
  infer_instance

/-! ## What the steps write that make an object -/

/-- The step writes one tag, of the object at `l`: a register is pointed there and the tag is
written. -/
def TagsOne {α : Type} (m : CompileM α) (c : Compilation) (l : Location) (id : Nat) : Prop :=
  ∃ before i reg after, emitted m c = before ++ i :: .setTag reg id :: after ∧
    (∀ j ∈ before, j.tag? = none) ∧ (∀ j ∈ after, j.tag? = none) ∧ i.tag? = none ∧
    ∀ regs, i.aim regs reg = some l

namespace TagsOne

variable {α β : Type} {m : CompileM α} {f : α → CompileM β} {c c₁ c' : Compilation} {a : α} {b : β}
  {l : Location} {id : Nat}

theorem tags_eq (h : TagsOne m c l id) : tags (emitted m c) = [(l, id)] := by
  obtain ⟨before, i, reg, after, heq, hbefore, hafter, hi, haim⟩ := h
  rw [heq]
  exact tags_eq_singleton hbefore hafter hi haim

theorem right [hm : Tagless m] (ha : Yields m c a c₁) (h : TagsOne (f a) c₁ l id) :
    TagsOne (m >>= f) c l id := by
  obtain ⟨before, i, reg, after, heq, hbefore, hafter, hi, haim⟩ := h
  refine ⟨emitted m c ++ before, i, reg, after, ?_, ?_, hafter, hi, haim⟩
  · rw [emitted_bind ha, heq, List.append_assoc]
  · exact List.forall_mem_append.mpr ⟨hm.none c, hbefore⟩

theorem left [hf : ∀ a, Tagless (f a)] (ha : Yields m c a c₁) (h : TagsOne m c l id) :
    TagsOne (m >>= f) c l id := by
  obtain ⟨before, i, reg, after, heq, hbefore, hafter, hi, haim⟩ := h
  refine ⟨before, i, reg, after ++ emitted (f a) c₁, ?_, hbefore, ?_, hi, haim⟩
  · rw [emitted_bind ha, heq]
    simp
  · exact List.forall_mem_append.mpr ⟨hafter, (hf a).none c₁⟩

/-- A register is pointed somewhere and the tag is written there. -/
theorem point {i : Instr} {reg : Register} (hi : i.tag? = none)
    (haim : ∀ regs, i.aim regs reg = some l) :
    TagsOne (do emit i; emit (.setTag reg id)) c l id :=
  ⟨[], i, reg, [], rfl, List.forall_mem_nil _, List.forall_mem_nil _, hi, haim⟩

theorem withRegister {body : Register → CompileM α} (h : Yields (withRegister body) c a c')
    (hbody : ∀ reg c₀, TagsOne (body reg) c₀ l id) : TagsOne (withRegister body) c l id := by
  unfold CompileM.withRegister ofInternal modifyFrame at h ⊢
  obtain ⟨_, _, hget, h⟩ := yields_bind.mp h
  obtain ⟨⟨reg, frame⟩, _, hacquire, h⟩ := yields_bind.mp h
  obtain ⟨_, c₀, htake, h⟩ := yields_bind.mp h
  obtain ⟨_, _, hrun, _⟩ := yields_bind.mp h
  exact .right hget (.right hacquire (.right htake (.left hrun (hbody reg c₀))))

end TagsOne

theorem yields_classId {t : Ty} {c c' : Compilation} {id : Nat} :
    Yields (classId t) c id c' ↔ ∃ k d, t.classHash? = some k ∧ c.registry.class? k = some d ∧
      id = d.id ∧ c' = c := by
  unfold classId
  cases t.classHash? with
  | none => simp
  | some k =>
    simp only [yields_bind, yields_askRegistry, Registry.getClass_eq_ok, yields_pure]
    constructor
    · rintro ⟨d, _, ⟨hd, rfl⟩, rfl, rfl⟩
      exact ⟨k, d, rfl, hd, rfl, rfl⟩
    · rintro ⟨_, d, hk, hd, rfl, rfl⟩
      injection hk with hk
      exact ⟨d, c', ⟨hk ▸ hd, rfl⟩, rfl, rfl⟩

instance (t : Ty) : Tagless (classId t) := by
  unfold classId
  split <;> infer_instance

variable {c c' : Compilation} {t : Ty} {k : TypeHash} {d : Class}

/-- Clearing the storage of an object writes its tag. -/
theorem tagsOne_clear {a : Address} {u : Unit} (hclass : t.isClassLike = true)
    (hk : t.classHash? = some k) (hd : c.registry.class? k = some d)
    (h : Yields (clear ⟨t, a⟩) c u c') : TagsOne (clear ⟨t, a⟩) c (.fixed a) d.id := by
  unfold clear at h ⊢
  obtain ⟨_, c₁, hlength, h⟩ := yields_bind.mp h
  obtain ⟨_, c₂, himm, h⟩ := yields_bind.mp h
  have hkept : c₂.registry = c.registry := by
    rw [CompileM.yields_emit.mp himm, Compilation.add_registry, (yields_lengthOf.mp hlength).2]
  refine .right hlength (.right himm ?_)
  dsimp only at h ⊢
  rw [if_pos hclass] at h ⊢
  unfold tagObject at h ⊢
  obtain ⟨id, c₃, hid, h⟩ := yields_bind.mp h
  refine .right hid ?_
  obtain ⟨k', d', hk', hd', rfl, -⟩ := yields_classId.mp hid
  dsimp only at hk'
  rw [hk] at hk'
  injection hk' with hk'
  rw [hkept, ← hk', hd] at hd'
  injection hd' with hd'
  rw [← hd'] at h ⊢
  exact .withRegister h fun reg _ => .point rfl fun _ => if_pos rfl

/-- Allocating an object writes its tag, behind the pointer that is the result. -/
theorem tagsOne_allocateObject {id : Nat} {s : Slot} (h : Yields (allocateObject t id) c s c') :
    s.type = .pointer t ∧ TagsOne (allocateObject t id) c (.through s.address 0) id := by
  unfold allocateObject at h ⊢
  obtain ⟨_, _, hlength, h⟩ := yields_bind.mp h
  obtain ⟨_, _, hsize, h⟩ := yields_bind.mp h
  obtain ⟨block, _, hblock, h⟩ := yields_bind.mp h
  obtain ⟨_, _, htag, h⟩ := yields_bind.mp h
  obtain ⟨rfl, -⟩ := yields_pure.mp h
  refine ⟨rfl, .right hlength (.right hsize (.right hblock (.left htag ?_)))⟩
  exact .withRegister htag fun reg _ => .point rfl fun _ => if_pos rfl

/-- Creating an object writes its tag, behind the pointer that is the result. -/
theorem tagsOne_newObject {owner : TypeExpr} {args : CompileM (List Slot)} [Tagless args]
    {argSpans : List Span} {span : Span} {s : Slot}
    (h : Yields (newObject owner args argSpans span) c s c') :
    ∃ t k d, t.isClass = true ∧ t.classHash? = some k ∧ c.registry.class? k = some d ∧
      d.isAbstract = false ∧ s.type = .pointer t ∧
      TagsOne (newObject owner args argSpans span) c (.through s.address 0) d.id := by
  unfold newObject at h ⊢
  obtain ⟨t, c₁, htype, h⟩ := yields_bind.mp h
  have hclass := Registration.resolveClass_isClass htype
  have hkept : c₁.registry = c.registry := htype.keeps
  split at h
  · cases h
  · rename_i k hk
    obtain ⟨d, c₂, hd, h⟩ := yields_bind.mp h
    have hd' := Registry.getClass_eq_ok.mp (yields_askRegistry.mp hd).1
    dsimp only at h
    split at h
    · simp at h
    · rename_i hconcrete
      obtain ⟨_, c₃, hnative, h⟩ := yields_bind.mp h
      obtain ⟨object, c₄, halloc, h⟩ := yields_bind.mp h
      obtain ⟨_, c₅, hconstruct, h⟩ := yields_bind.mp h
      obtain ⟨rfl, -⟩ := yields_pure.mp h
      obtain ⟨hs, htags⟩ := tagsOne_allocateObject halloc
      -- Only the allocation writes a tag: not what comes before it, nor the constructor.
      refine ⟨t, k, d, hclass, hk, hkept ▸ hd', by simpa using hconcrete, hs, .right htype ?_⟩
      rw [hk]
      refine .right hd ?_
      dsimp only
      rw [if_neg hconcrete]
      exact .right hnative (.left halloc htags)

end Lowering

/-! ## When all tags are written -/

/-- A compilation starts with valid options only. -/
theorem Options.bits_of_start {o : Options} {c : Compilation} (h : Compilation.start o = .ok c) :
    o.bits = 64 ∨ o.bits = 32 := by
  unfold Compilation.start at h
  obtain ⟨_, hvalid, -⟩ := except_bind_eq_ok.mp h
  unfold Options.validate at hvalid
  split at hvalid
  · cases hvalid
  · rename_i hfault
    unfold Options.fault? at hfault
    split at hfault
    · cases hfault
    · rename_i hbits
      omega

/-- Every object starts with its tag, so an object that it holds does not start where it does. -/
theorem LayoutSound.offset_ne_zero {r : Registry} {c : Class} (h : LayoutSound r c)
    (hword : 0 < r.pointerSize) {f : Field} (hf : f ∈ c.fields) (hclass : f.type.isClass = true) :
    f.offset ≠ 0 := by
  obtain ⟨rest, hrest⟩ := List.head?_eq_some_iff.mp h.tagged
  have hfills := h.contiguous
  rw [hrest] at hfills hf
  rcases List.mem_cons.mp hf with rfl | hf
  · cases hclass
  · have hle := (hfills.2.within.2 f hf).1
    rw [Nat.zero_add] at hle
    exact Nat.ne_of_gt (Nat.lt_of_lt_of_le hword hle)

theorem Location.shift_zero (l : Location) : l.shift 0 = l := by
  rcases l with ⟨_ | _ | _⟩ | _ <;> rfl

theorem Location.shift_ne {l : Location} {n : Nat} (hn : n ≠ 0) : l.shift n ≠ l := by
  intro h
  rcases l with ⟨k | k | k⟩ | ⟨p, k⟩ <;>
    simp only [Location.shift, Address.shift, Location.fixed.injEq, Location.through.injEq,
      Address.frame.injEq, Address.global.injEq, Address.literal.injEq, true_and] at h <;> omega

theorem Registry.Embeds.isClass {r : Registry} {t : Ty} {offset : Nat} {k : TypeHash}
    (h : r.Embeds t offset k) : t.isClass = true := by
  cases h <;> assumption

/-- Substitution makes no object out of a type that is no parameter. -/
theorem Ty.isClass_substitute (names : List String) (args : List Ty) {t : Ty}
    (h : t.isParam = false) : (t.substitute names args).isClass = t.isClass := by
  cases t <;> first | rfl | cases h

theorem Registration.pos_pointerSize {o : Options} {p : Program} {r : Registry}
    (h : accepted? o p = some r) : 0 < r.pointerSize := by
  rw [Dispatch.pointerSize_of_accepted? h]
  obtain ⟨c, _, _, hstart, _⟩ := Dispatch.accepted?_eq_some h
  have hbits := Options.bits_of_start hstart
  unfold Options.pointerSize
  omega

/-- One tag is enough exactly for an object that holds no others. -/
theorem tagsAll_iff {r : Registry} {t : Ty} {k : TypeHash} {c : Class} {l : Location}
    {code : List Instr} (hsound : LayoutSound r c)
    (hparam : ∀ f ∈ c.fields, f.type.isParam = false) (hword : 0 < r.pointerSize)
    (hclass : t.isClass = true) (hk : t.classHash? = some k) (hc : r.class? k = some c)
    (hcode : tags code = [(l, c.id)]) :
    TagsAll r t l code ↔ ∀ f ∈ c.fields, f.type.isClass = false := by
  constructor
  · intro hall f hf
    by_contra hheld
    have hheld := Bool.not_eq_false _ ▸ hheld
    have hinner := (Ty.isClass_substitute c.templateNames t.args (hparam f hf)).trans hheld
    obtain ⟨h, hh⟩ := Option.isSome_iff_exists.mp (isClassLike_of_isClass hinner)
    -- An object in a field starts behind the tag of the object around it.
    obtain ⟨d, -, hmem⟩ := hall _ h (.field hclass hk hc hf (.self hinner hh))
    rw [hcode, List.mem_singleton, Nat.add_zero] at hmem
    exact Location.shift_ne (hsound.offset_ne_zero hword hf hheld) (Prod.mk.inj hmem).1
  · intro hnone offset h hembeds
    cases hembeds with
    | self _ hh =>
      rw [hk] at hh
      injection hh with hh
      subst hh
      refine ⟨c, hc, ?_⟩
      rw [hcode, Location.shift_zero]
      exact List.mem_singleton.mpr rfl
    | field _ hk' hc' hf hinner =>
      rw [hk] at hk'
      injection hk' with hk'
      subst hk'
      rw [hc] at hc'
      injection hc' with hc'
      subst hc'
      have hvalue := hinner.isClass
      rw [Ty.isClass_substitute _ _ (hparam _ hf), hnone _ hf] at hvalue
      cases hvalue

namespace Registration

/-- In a program that registration accepts, one tag is written for an object that is declared
without an initializer, or created: its own. So the objects inside of it get their tags exactly if
there are none. -/
theorem all_objects_tagged_iff {o : Options} {p : Program} {r : Registry}
    (h : accepted? o p = some r) {c : Compilation} (hc : c.registry = r) :
    (∀ {t k d a u c'}, t.isClass = true → t.classHash? = some k → r.class? k = some d →
      Yields (Lowering.clear ⟨t, a⟩) c u c' →
      (.fixed a, d.id) ∈ tags (emitted (Lowering.clear ⟨t, a⟩) c) ∧
      (TagsAll r t (.fixed a) (emitted (Lowering.clear ⟨t, a⟩) c) ↔
        ∀ f ∈ d.fields, f.type.isClass = false)) ∧
    (∀ {owner args argSpans span s c'}, Tagless args →
      Yields (Lowering.newObject owner args argSpans span) c s c' →
      ∃ t k d, t.isClass = true ∧ t.classHash? = some k ∧ r.class? k = some d ∧
        d.isAbstract = false ∧ s.type = .pointer t ∧
        (.through s.address 0, d.id) ∈ tags (emitted (Lowering.newObject owner args argSpans span) c) ∧
        (TagsAll r t (.through s.address 0)
            (emitted (Lowering.newObject owner args argSpans span) c) ↔
          ∀ f ∈ d.fields, f.type.isClass = false)) := by
  subst hc
  have hword := pos_pointerSize h
  have hiff : ∀ {t k d l code}, t.isClass = true → t.classHash? = some k →
      c.registry.class? k = some d → tags code = [(l, d.id)] →
      (l, d.id) ∈ tags code ∧
        (TagsAll c.registry t l code ↔ ∀ f ∈ d.fields, f.type.isClass = false) := by
    intro t k d l code hclass hk hd hcode
    refine ⟨hcode ▸ List.mem_singleton.mpr rfl, ?_⟩
    have htypes := (laidOut_of_accepted? h hd).types
    exact tagsAll_iff (layoutSound_of_accepted? h hd) (fun f hf => (htypes f hf).1) hword hclass hk hd
      hcode
  constructor
  · intro t k d a u c' hclass hk hd hclear
    exact hiff hclass hk hd
      (Lowering.tagsOne_clear (isClassLike_of_isClass hclass) hk hd hclear).tags_eq
  · intro owner args argSpans span s c' hargs hnew
    obtain ⟨t, k, d, hclass, hk, hd, hconcrete, hs, htags⟩ := Lowering.tagsOne_newObject hnew
    exact ⟨t, k, d, hclass, hk, hd, hconcrete, hs, hiff hclass hk hd htags.tags_eq⟩

/-- The classes of a program are registered and a variable of one of them is cleared. -/
def clearedIn? (p : Program) (k : TypeHash) (a : Address) : Option (Registry × Compilation × Class) :=
  (accepted? {} p).bind fun r =>
    (Compilation.start {}).toOption.bind fun c =>
      (r.class? k).bind fun d =>
        if ((Lowering.clear ⟨.classRef k, a⟩).run.run { c with registry := r }).1.isOk then
          some (r, { c with registry := r }, d)
        else none

theorem clearedIn?_eq_some {p : Program} {k : TypeHash} {a : Address} {r : Registry}
    {c : Compilation} {d : Class} (h : clearedIn? p k a = some (r, c, d)) :
    accepted? {} p = some r ∧ c.registry = r ∧ r.class? k = some d ∧
      ∃ c', Yields (Lowering.clear ⟨.classRef k, a⟩) c () c' := by
  obtain ⟨r', hr, h⟩ := Option.bind_eq_some_iff.mp h
  obtain ⟨c₀, -, h⟩ := Option.bind_eq_some_iff.mp h
  obtain ⟨d', hd, h⟩ := Option.bind_eq_some_iff.mp h
  split at h
  · rename_i hok
    injection h with h
    injection h with hr' h
    injection h with hc hd'
    subst hr' hc hd'
    exact ⟨hr, rfl, hd, _, yields_of_isOk hok⟩
  · cases h

set_option maxRecDepth 100000 in
theorem all_objects_tagged_inner : ∃ r c d c',
    accepted? {} nestedRecords = some r ∧ c.registry = r ∧
    r.class? (TypeHash.ofName "m$Inner") = some d ∧
    Yields (Lowering.clear ⟨.classRef (TypeHash.ofName "m$Inner"), .frame 0⟩) c () c' ∧
    TagsAll r (.classRef (TypeHash.ofName "m$Inner")) (.fixed (.frame 0))
      (emitted (Lowering.clear ⟨.classRef (TypeHash.ofName "m$Inner"), .frame 0⟩) c) := by
  have hrun : ((clearedIn? nestedRecords (TypeHash.ofName "m$Inner") (.frame 0)).map fun x =>
      x.2.2.fields.all fun f => !f.type.isClass) = some true := by
    decide +kernel
  obtain ⟨⟨r, c, d⟩, hcleared, hfields⟩ := Option.map_eq_some_iff.mp hrun
  obtain ⟨hr, hc, hd, c', hclear⟩ := clearedIn?_eq_some hcleared
  refine ⟨r, c, d, c', hr, hc, hd, hclear, ?_⟩
  refine (((all_objects_tagged_iff hr hc).1 rfl rfl hd hclear).2).mpr ?_
  intro f hf
  simpa using List.all_eq_true.mp hfields f hf

set_option maxRecDepth 100000 in
/-- A variable of a class that holds another object by value: the tag of the inner object is not
written. -/
theorem inner_object_can_be_untagged : ¬∀ (o : Options) (p : Program) (r : Registry)
    (c c' : Compilation) (t : Ty) (k : TypeHash) (d : Class) (a : Address),
    accepted? o p = some r → c.registry = r → t.isClass = true → t.classHash? = some k →
    r.class? k = some d → d.isAbstract = false → Yields (Lowering.clear ⟨t, a⟩) c () c' →
    TagsAll r t (.fixed a) (emitted (Lowering.clear ⟨t, a⟩) c) := by
  intro hall
  have hrun : ((clearedIn? nestedRecords (TypeHash.ofName "m$Outer") (.frame 0)).map fun x =>
      !x.2.2.isAbstract && x.2.2.fields.any fun f => f.type.isClass) = some true := by
    decide +kernel
  obtain ⟨⟨r, c, d⟩, hcleared, hfields⟩ := Option.map_eq_some_iff.mp hrun
  obtain ⟨hr, hc, hd, c', hclear⟩ := clearedIn?_eq_some hcleared
  simp only [Bool.and_eq_true, Bool.not_eq_true'] at hfields
  have htags := hall {} _ r c c' _ _ d (.frame 0) hr hc rfl rfl hd hfields.1 hclear
  have htypes := (laidOut_of_accepted? hr hd).types
  rw [tagsAll_iff (layoutSound_of_accepted? hr hd) (fun f hf => (htypes f hf).1) (pos_pointerSize hr)
    rfl rfl hd (Lowering.tagsOne_clear rfl rfl (hc ▸ hd) hclear).tags_eq] at htags
  obtain ⟨f, hf, hclass⟩ := List.any_eq_true.mp hfields.2
  rw [htags f hf] at hclass
  cases hclass

end Registration

end ClassLang
