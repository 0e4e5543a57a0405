import ClassLang.Lowering.Stmt
import ClassLang.Proofs.Lowering.Reports

/-!
# Properties of all steps of lowering

A property of steps that sequences keep, and that the smallest steps have, holds for every step that
lowers an expression. It is enough to look at what the smallest steps do and at the few constructs
that jump: the lazy operators, conditionals, switches and the loops that fill nested arrays.
Instructions that name a function are a matter of their own, since the name comes from the registry:
`Linked` lists the constructs that emit them. `Core`, `Linked` and `Whole` list these obligations;
there is one instance of `Has` for each function that lowers something, so that the fact about a
whole is found from those about its parts.
-/

-- The instances of long steps are large terms.
set_option synthInstance.maxSize 1000

namespace ClassLang

/-- Instructions without control flow of their own. -/
def Instr.isStraight : Instr → Bool
  | label _ | goto _ | ifTrue .. | ifFalse .. | ret => false
  | _ => true

/-- The function that an instruction names. -/
def Instr.link? : Instr → Option String
  | fnAddr _ f | callFn f _ => some f
  | _ => none

open CompileM

namespace Lowering

/-! ## Steps that look -/

instance (t : Ty) : Looks (typeName t) := by
  unfold typeName
  infer_instance

instance (t : Ty) : Looks (lengthOf t) := by
  unfold lengthOf
  infer_instance

instance : Looks pointerSize := by
  unfold pointerSize
  infer_instance

instance (name : String) : Looks (meaning? name) := by
  unfold meaning?
  infer_instance

instance (name : String) (span : Span) : Looks (meaning name span) := by
  unfold meaning
  refine .bind fun d => ?_
  split <;> infer_instance

instance (n : Native) (span : Span) : Looks (requireNative n span) := by
  unfold requireNative
  infer_instance

instance (span : Span) : Looks (receiverBinding span) := by
  have hthis : Looks (do
      match ← meaning? "this" with
      | some (.variable b) => return b
      | _ => fail (.outside .receiver) span : CompileM Binding) := by
    refine .bind fun d => ?_
    split <;> infer_instance
  unfold receiverBinding
  dsimp only
  infer_instance

instance (check : BoundCheck) : Looks (checkBound check) := by
  unfold checkBound
  infer_instance

instance (t : Ty) : Looks (classId t) := by
  unfold classId
  split <;> infer_instance

instance (e : Expr) (value : Slot) : Looks (requireValue e value) := by
  unfold requireValue
  dsimp only
  infer_instance

instance (t : Ty) (member : Ident) : Looks (fieldOf t member) := by
  unfold fieldOf
  refine .bind fun c => ?_
  dsimp only
  split <;> infer_instance

instance (array : Slot) (span : Span) : Looks (elementType array span) := by
  unfold elementType
  split <;> infer_instance

instance (target : Expr) (p : Place) (span : Span) : Looks (checkAssignable target p span) := by
  unfold checkAssignable
  dsimp only
  split <;> infer_instance

instance (types : List Ty) (span : Span) : Looks (commonType types span) := by
  unfold commonType
  refine .bind fun c => ?_
  dsimp only
  split <;> infer_instance

instance {κ : Type} (name : String) (candidates : List (Candidate κ)) (args : List Slot)
    (span : Span) : Looks (select name candidates args span) := by
  unfold select
  infer_instance

instance (ids : List Nat) : Looks (functionCandidates ids) := by
  unfold functionCandidates
  infer_instance

instance (owner : Ty) (name : String) (args : List Slot) (span : Span) :
    Looks (selectMethod owner name args span) := by
  unfold selectMethod
  refine .bind fun c => ?_
  dsimp only
  split <;> infer_instance

instance (owner : Ty) (name : String) (slot : Nat) : Looks (methodResult owner name slot) := by
  unfold methodResult
  infer_instance

instance (owner : Ty) (name : String) (slot : Nat) (span : Span) :
    Looks (implementation owner name slot span) := by
  unfold implementation
  split
  · infer_instance
  · refine .bind fun c => ?_
    split <;> infer_instance

instance (owner : Ty) (name : String) : Looks (hasMethod owner name) := by
  unfold hasMethod
  infer_instance

instance (owner : Ty) : Looks (receiverIsImplicit owner) := by
  unfold receiverIsImplicit
  refine .bind fun s => ?_
  split <;> infer_instance

instance (t : Ty) (span : Span) : Looks (requireConcrete t span) := by
  unfold requireConcrete
  split
  · split <;> infer_instance
  · infer_instance

/-! ## Steps with registers -/

/-- The step succeeds when `n` registers are free, and leaves them free. -/
class Sure (n : Nat) {α : Type} (m : CompileM α) : Prop where
  yields : ∀ c : Compilation, n ≤ c.frame.freeRegisters.length →
    ∃ a c', Yields m c a c' ∧ c'.frame.freeRegisters = c.frame.freeRegisters

section Sure

variable {n : Nat} {α β : Type}

instance sure_pure (a : α) : Sure n (pure a : CompileM α) :=
  ⟨fun c _ => ⟨a, c, yields_pure.mpr ⟨rfl, rfl⟩, rfl⟩⟩

instance sure_get : Sure n (get : CompileM Compilation) :=
  ⟨fun c _ => ⟨c, c, yields_get.mpr ⟨rfl, rfl⟩, rfl⟩⟩

instance sure_bind (m : CompileM α) (g : α → CompileM β) [hm : Sure n m]
    [hg : ∀ a, Sure n (g a)] : Sure n (m >>= g) where
  yields c hc := by
    obtain ⟨a, c₁, ha, hfree⟩ := hm.yields c hc
    obtain ⟨b, c', hb, hfree'⟩ := (hg a).yields c₁ (hfree ▸ hc)
    exact ⟨b, c', yields_bind.mpr ⟨a, c₁, ha, hb⟩, hfree'.trans hfree⟩

instance sure_ite {p : Prop} [Decidable p] (m k : CompileM α) [Sure n m] [Sure n k] :
    Sure n (if p then m else k) := by
  split <;> infer_instance

instance (i : Instr) (region : Nat) : Sure n (emit i region) := ⟨fun _ _ => ⟨_, _, rfl, rfl⟩⟩

instance (k : Nat) : Sure n (alloc k) := ⟨fun _ _ => ⟨_, _, yields_updateFrame.mpr ⟨rfl, rfl⟩, rfl⟩⟩

instance (t : Ty) : Sure n (lengthOf t) := ⟨fun _ _ => ⟨_, _, yields_lengthOf.mpr ⟨rfl, rfl⟩, rfl⟩⟩

instance : Sure n pointerSize := ⟨fun _ _ => ⟨_, _, yields_pointerSize.mpr ⟨rfl, rfl⟩, rfl⟩⟩

instance (t : Ty) : Sure n (allocFor t) := by
  unfold allocFor
  infer_instance

/-- A register that is taken is given back, since the step that has it succeeds. -/
instance sure_withRegister (body : Register → CompileM α) [hbody : ∀ reg, Sure n (body reg)] :
    Sure (n + 1) (withRegister body) where
  yields c hc := by
    cases hregs : c.frame.freeRegisters with
    | nil =>
      rw [hregs] at hc
      cases hc
    | cons reg rest =>
      rw [hregs, List.length_cons] at hc
      obtain ⟨a, c', ha, hfree⟩ := (hbody reg).yields
        { c with frame := { c.frame with freeRegisters := rest } } (Nat.le_of_succ_le_succ hc)
      refine ⟨a, { c' with frame := c'.frame.release reg }, ?_, congrArg (reg :: ·) hfree⟩
      have hacquire : c.frame.acquire = .ok (reg, { c.frame with freeRegisters := rest }) := by
        unfold Frame.acquire
        rw [hregs]
      simp only [withRegister, ofInternal, yields_bind, yields_get, yields_conclude,
        yields_modifyFrame, yields_pure]
      refine ⟨c, c, ⟨rfl, rfl⟩, (reg, { c.frame with freeRegisters := rest }), c, ?_, (), _, rfl,
        a, c', ha, (), _, rfl, rfl, rfl⟩
      rw [hacquire]
      exact ⟨rfl, rfl⟩

instance (t : Ty) (dest : Option Slot) : Sure n (resultAddress t dest) := by
  unfold resultAddress
  split <;> infer_instance

instance (reg : Register) : Sure n (spill reg) := by
  unfold spill
  infer_instance

instance (reg : Register) (l : Location) : Sure n (pointTo reg l) := by
  cases l <;> unfold pointTo <;> infer_instance

instance (reg : Register) (array position : Address) (k : Nat) :
    Sure n (pointToElement reg array position k) := by
  unfold pointToElement
  infer_instance

end Sure

/-! ## Properties of steps -/

/-- A step has a property. -/
class Has (P : (α : Type) → CompileM α → Prop) {α : Type} (m : CompileM α) : Prop where
  out : P α m

/-- A property that sequences keep and that steps have which look something up, or put a bound
off. -/
class Reading (P : (α : Type) → CompileM α → Prop) : Prop where
  reads {α : Type} (m : CompileM α) [Looks m] : P α m
  bind {α β : Type} {m : CompileM α} {g : α → CompileM β} :
    P α m → (∀ a, P β (g a)) → P β (m >>= g)
  defer (check : BoundCheck) :
    P PUnit (modify fun s => { s with deferred := s.deferred ++ [check] })

section Reading

variable {P : (α : Type) → CompileM α → Prop} [Reading P] {α β : Type}

instance (priority := low) has_of_looks (m : CompileM α) [Looks m] : Has P m :=
  ⟨Reading.reads m⟩

instance has_pure (a : α) : Has P (pure a : CompileM α) := inferInstance

instance has_bind (m : CompileM α) (g : α → CompileM β) [hm : Has P m]
    [hg : ∀ a, Has P (g a)] : Has P (m >>= g) := ⟨Reading.bind hm.out fun a => (hg a).out⟩

/-- For a step that goes on by cases on what came before. -/
theorem Has.bind {m : CompileM α} {g : α → CompileM β} [Has P m] (hg : ∀ a, Has P (g a)) :
    Has P (m >>= g) := has_bind m g

instance has_ite {p : Prop} [Decidable p] (m n : CompileM α) [Has P m] [Has P n] :
    Has P (if p then m else n) := by
  split <;> infer_instance

instance has_forM (g : α → CompileM PUnit) (xs : List α) [∀ x, Has P (g x)] :
    Has P (xs.forM g) := by
  induction xs with
  | nil => exact has_pure _
  | cons x xs ih => exact has_bind _ _

/-! ## Names and types -/

instance (check : BoundCheck) : Has P (checkOrDefer check) := by
  have hdefer : Has P
      (modify fun s => { s with deferred := s.deferred ++ [check] } : CompileM PUnit) :=
    ⟨Reading.defer check⟩
  unfold checkOrDefer
  infer_instance

mutual

instance has_resolveType : ∀ t : TypeExpr, Has P (resolveType t)
  | .named name args span => by
    have hargs := fun owner ps => has_resolveArgs owner ps args
    unfold resolveType
    split
    · infer_instance
    · refine Has.bind fun d => ?_
      split
      · dsimp only
        infer_instance
      all_goals infer_instance
  | .pointer inner _ => by
    have := has_resolveType inner
    unfold resolveType
    infer_instance
  | .array inner _ => by
    have := has_resolveType inner
    unfold resolveType
    infer_instance
  | .function params result _ => by
    have := has_resolveTypes params
    have := has_resolveType result
    unfold resolveType
    infer_instance

instance has_resolveTypes : ∀ ts : List TypeExpr, Has P (resolveTypes ts)
  | [] => by
    unfold resolveTypes
    infer_instance
  | t :: ts => by
    have := has_resolveType t
    have := has_resolveTypes ts
    unfold resolveTypes
    infer_instance

instance has_resolveArgs (owner : String) :
    ∀ (ps : List TemplateParam) (ts : List TypeExpr),
      Has P (resolveArgs owner ps ts)
  | p :: ps, t :: ts => by
    have := has_resolveType t
    have := has_resolveArgs owner ps ts
    unfold resolveArgs
    infer_instance
  | [], _ => by
    unfold resolveArgs
    infer_instance
  | _ :: _, [] => by
    unfold resolveArgs
    infer_instance

end

instance (t : TypeExpr) : Has P (resolveClass t) := by
  unfold resolveClass
  infer_instance

/-! ## Declared types -/

/-- Whether its type was written or found, a declaration has it checked. -/
theorem has_heldType (d : VarDecl) (type : Ty) : Has P (do
    match type with
    | .prim .void => fail (.typing (.voidVariable d.name.name)) d.span
    | .intrinsic .. => fail (.typing (.intrinsicVariable d.name.name)) d.span
    | .param n _ => fail (.typing (.parameterByValue n)) d.span
    | _ =>
      requireConcrete type d.span
      return type : CompileM Ty) := by
  split <;> infer_instance

theorem has_declaredType (d : VarDecl) (hprobe : ∀ e, d.init = some e → Has P (probeType e)) :
    Has P (declaredType d) := by
  unfold declaredType
  dsimp only
  split
  · exact .bind (has_heldType d)
  · rename_i e _ hinit
    have := hprobe e hinit
    exact .bind (has_heldType d)
  · exact .bind (has_heldType d)

end Reading

/-- A property that the smallest steps of lowering have if they neither jump nor name a function. -/
class Core (P : (α : Type) → CompileM α → Prop) : Prop extends Reading P where
  emit (i : Instr) (region : Nat) :
    i.isStraight = true → i.link? = none → P Unit (emit i region)
  alloc (n : Nat) : P Address (alloc n)
  intern (l : Literal) : P Address (intern l)
  warn (caution : Caution) (span : Span) : P Unit (warn caution span)
  /-- At most one more register is taken while there is one. -/
  withRegister {α : Type} {body : Register → CompileM α} : (∀ reg, Sure 1 (body reg)) →
    (∀ reg, P α (body reg)) → P α (withRegister body)
  withTemps {α : Type} {body : CompileM α} : P α body → P α (withTemps body)
  probe {α : Type} {body : CompileM α} : P α body → P α (probe body)

section Core

variable {P : (α : Type) → CompileM α → Prop} [Core P] {α β : Type}

/-- Instructions that neither jump nor name a function. -/
class Plain (i : Instr) : Prop where
  straight : i.isStraight = true
  unlinked : i.link? = none

instance (dst src : Address) (n : Nat) : Plain (.mov dst src n) := ⟨rfl, rfl⟩
instance (dst : Address) (v : Int) (n : Nat) : Plain (.imm dst v n) := ⟨rfl, rfl⟩
instance (op : IntOp) (dst l r : Address) : Plain (.int op dst l r) := ⟨rfl, rfl⟩
instance (op : FloatOp) (dst l r : Address) : Plain (.float op dst l r) := ⟨rfl, rfl⟩
instance (op : OneOp) (dst src : Address) : Plain (.unary op dst src) := ⟨rfl, rfl⟩
instance (op : ConvertOp) (dst src : Address) : Plain (.convert op dst src) := ⟨rfl, rfl⟩
instance (reg : Register) (src : Address) : Plain (.addr reg src) := ⟨rfl, rfl⟩
instance (reg : Register) (src : Address) : Plain (.ptr reg src) := ⟨rfl, rfl⟩
instance (reg : Register) (n : Nat) : Plain (.offset reg n) := ⟨rfl, rfl⟩
instance (reg : Register) (a : Address) (n k : Nat) : Plain (.index reg a n k) := ⟨rfl, rfl⟩
instance (dst : Address) (src : Memory) (n : Nat) : Plain (.load dst src n) := ⟨rfl, rfl⟩
instance (dst : Memory) (src : Address) (n : Nat) : Plain (.store dst src n) := ⟨rfl, rfl⟩
instance (dst : Address) (reg : Register) : Plain (.setPtr dst reg) := ⟨rfl, rfl⟩
instance (reg : Register) (id : Nat) : Plain (.setTag reg id) := ⟨rfl, rfl⟩
instance (dst : Address) (reg : Register) (id : Nat) : Plain (.instanceOf dst reg id) := ⟨rfl, rfl⟩
instance (dst object : Register) (slot : Nat) : Plain (.vtable dst object slot) := ⟨rfl, rfl⟩
instance (id : Nat) (base : Address) : Plain (.callNative id base) := ⟨rfl, rfl⟩
instance (reg : Register) (base : Address) : Plain (.callPtr reg base) := ⟨rfl, rfl⟩
instance (dst : Address) : Plain (.argv dst) := ⟨rfl, rfl⟩
instance : Plain .stop := ⟨rfl, rfl⟩

instance has_emit (i : Instr) (region : Nat) [hi : Plain i] : Has P (emit i region) :=
  ⟨Core.emit i region hi.straight hi.unlinked⟩

instance (n : Nat) : Has P (alloc n) := ⟨Core.alloc n⟩

instance (t : Ty) : Has P (allocFor t) := by
  unfold allocFor
  infer_instance

instance (l : Literal) : Has P (intern l) := ⟨Core.intern l⟩

instance (n : Nat) : Has P (internNat n) := by
  unfold internNat
  infer_instance

instance (caution : Caution) (span : Span) : Has P (warn caution span) :=
  ⟨Core.warn caution span⟩

instance (body : Register → CompileM α) [hsure : ∀ reg, Sure 1 (body reg)]
    [hbody : ∀ reg, Has P (body reg)] : Has P (withRegister body) :=
  ⟨Core.withRegister hsure fun reg => (hbody reg).out⟩

instance (body : CompileM α) [hbody : Has P body] : Has P (withTemps body) :=
  ⟨Core.withTemps hbody.out⟩

instance (body : CompileM α) [hbody : Has P body] : Has P (probe body) :=
  ⟨Core.probe hbody.out⟩

/-! ## Values and places -/

instance (dst src : Address) (n : Nat) : Has P (move dst src n) := by
  unfold move
  infer_instance

instance (dst src : Address) (n n' : Nat) : Has P (copyBits dst src n n') := by
  unfold copyBits
  infer_instance

instance (source target : Ty) (span : Span) :
    Has P (checkConversion source target span) := by
  unfold checkConversion
  refine Has.bind fun c => ?_
  dsimp only
  split <;> infer_instance

instance (value dest : Slot) (k : Conversion) :
    Has P (convertInto value dest k) := by
  unfold convertInto
  refine Has.bind fun _ => Has.bind fun _ => ?_
  dsimp only
  split <;> infer_instance

instance (value : Slot) (target : Ty) (span : Span) :
    Has P (coerce value target span) := by
  unfold coerce
  infer_instance

instance (value dest : Slot) (span : Span) : Has P (settle value dest span) := by
  unfold settle
  infer_instance

instance (value : Slot) : Has P (asWord value) := by
  unfold asWord
  infer_instance

instance (value : Slot) (span : Span) : Has P (condition value span) := by
  unfold condition
  dsimp only
  infer_instance

instance (t : Ty) (dest : Option Slot) : Has P (resultAddress t dest) := by
  unfold resultAddress
  split <;> infer_instance

instance (reg : Register) : Has P (spill reg) := by
  unfold spill
  infer_instance

instance (dest : Option Slot) (p : Place) : Has P (read dest p) := by
  unfold read
  split <;> infer_instance

instance (pointer : Address) (offset : Nat) (value : Slot) :
    Has P (storeThrough pointer offset value) := by
  unfold storeThrough
  infer_instance

instance (reg : Register) (l : Location) : Has P (pointTo reg l) := by
  cases l <;> unfold pointTo <;> infer_instance

instance (dest : Option Slot) (p : Place) : Has P (addressOf dest p) := by
  unfold addressOf
  dsimp only
  infer_instance

instance (object : Place) (member : Ident) :
    Has P (fieldPlace object member) := by
  unfold fieldPlace
  split
  · infer_instance
  · split <;> infer_instance

instance (pointer : Slot) (span : Span) : Has P (pointeePlace pointer span) := by
  unfold pointeePlace
  split
  · dsimp only
    infer_instance
  · infer_instance

instance (reg : Register) (array position : Address) (n : Nat) :
    Has P (pointToElement reg array position n) := by
  unfold pointToElement
  infer_instance

instance (array : Slot) (element : Ty) (position : Slot) (span : Span) :
    Has P (elementPlace array element position span) := by
  unfold elementPlace
  dsimp only
  infer_instance

instance (span : Span) : Has P (receiverPlace span) := by
  unfold receiverPlace
  infer_instance

instance (l : Literal) : Has P (literalSlot l) := by
  unfold literalSlot
  refine Has.bind fun a => ?_
  split <;> infer_instance

instance (p : Place) (leave : Slot → CompileM Unit) (stored : CompileM Slot)
    [∀ s, Has P (leave s)] [Has P stored] :
    Has P (writePlace p leave stored) := by
  unfold writePlace
  split <;> infer_instance

/-! ## Operators and joins -/

instance (op : OneOp) (src : Address) (t : Ty) (dest : Option Slot) :
    Has P (applyOne op src t dest) := by
  unfold applyOne
  infer_instance

instance (instr : OneOp) (op : UnaryOp) (value : Slot) (span : Span) (dest : Option Slot) :
    Has P (applyIntegral instr op value span dest) := by
  unfold applyIntegral
  dsimp only
  infer_instance

instance (value : Slot) (span : Span) (dest : Option Slot) :
    Has P (negate value span dest) := by
  unfold negate
  infer_instance

instance (operand : Expr) (p : Place) (span : Span) (dest : Option Slot) :
    Has P (addressOfOperand operand p span dest) := by
  unfold addressOfOperand
  dsimp only
  infer_instance

instance (op : IntOp) (lhs rhs : Address) (dest : Option Slot) :
    Has P (applyInt op lhs rhs dest) := by
  unfold applyInt
  infer_instance

instance (op : BinaryOp) (lhs rhs : Slot) (span : Span) (dest : Option Slot) :
    Has P (applyFloat op lhs rhs span dest) := by
  unfold applyFloat
  split
  · infer_instance
  · dsimp only
    infer_instance

instance (op : BinaryOp) (lhs rhs : Slot) (span : Span) (dest : Option Slot) :
    Has P (applyBinary op lhs rhs span dest) := by
  unfold applyBinary
  infer_instance

instance (value : Slot) (target : Ty) (span : Span) (dest : Option Slot) :
    Has P (castTo value target span dest) := by
  unfold castTo
  refine Has.bind fun c => ?_
  dsimp only
  split
  · infer_instance
  · split
    · split <;> infer_instance
    · infer_instance

instance (value : Slot) (valueSpan : Span) (owner : TypeExpr) (dest : Option Slot) :
    Has P (instanceTest value valueSpan owner dest) := by
  unfold instanceTest
  dsimp only
  infer_instance

instance (value dest : Slot) (span : Span) :
    Has P (joinInto value dest span) := by
  unfold joinInto
  infer_instance

/-! ## Calls -/

section Callee

variable (receiver : Option Address) (base : Address) (region : Nat)

instance (n : Native) : Has P (emitCallee (.native n) receiver base region) := by
  unfold emitCallee
  infer_instance

instance (slot : Address) : Has P (emitCallee (.pointer slot) receiver base region) := by
  unfold emitCallee
  infer_instance

instance (slot : Nat) : Has P (emitCallee (.dispatch slot) receiver base region) := by
  unfold emitCallee
  cases receiver <;> infer_instance

end Callee

instance (callee : Callee) (result : Ty) (receiver : Option Address) (args : List Slot)
    [∀ base region, Has P (emitCallee callee receiver base region)] :
    Has P (emitCall callee result receiver args) := by
  unfold emitCall
  refine Has.bind fun c => ?_
  dsimp only
  refine Has.bind fun a => ?_
  split <;> infer_instance

instance has_coerceArgs : ∀ (args : List Slot) (params : List Ty) (spans : List Span),
    Has P (coerceArgs args params spans)
  | arg :: args, param :: params, span :: spans => by
    have := has_coerceArgs args params spans
    unfold coerceArgs
    infer_instance
  | [], _, _ => by
    unfold coerceArgs
    infer_instance
  | _ :: _, [], _ => by
    unfold coerceArgs
    infer_instance
  | _ :: _, _ :: _, [] => by
    unfold coerceArgs
    infer_instance

section Arguments

variable (args : CompileM (List Slot)) [Has P args] (argSpans : List Span)
  (span : Span)

instance (name : String) (n : Native) :
    Has P (callNative name n args argSpans span) := by
  unfold callNative
  infer_instance

instance (callee : Slot) : Has P (callValue callee args argSpans span) := by
  unfold callValue
  split <;> infer_instance

instance (owner : Ty) (name : String) (object : Place) :
    Has P (callDispatched owner name object args argSpans span) := by
  unfold callDispatched
  infer_instance

end Arguments

instance (owner : TypeExpr) (member : Ident) :
    Has P (scopedMethod owner member) := by
  unfold scopedMethod
  infer_instance

instance (operand : Expr) (value : CompileM Slot) [Has P value] :
    Has P (sizedType operand value) := by
  unfold sizedType
  split
  · refine Has.bind fun d => ?_
    split <;> infer_instance
  · infer_instance

instance (operand : Expr) (value : CompileM Slot) [Has P value] :
    Has P (sizeOfOperand operand value) := by
  unfold sizeOfOperand
  infer_instance

instance (array : Slot) (span : Span) : Has P (lengthOfArray array span) := by
  unfold lengthOfArray
  dsimp only
  infer_instance

/-! ## Objects and arrays -/

instance (type : Ty) (id : Nat) : Has P (allocateObject type id) := by
  unfold allocateObject
  infer_instance

instance (count : Address) (element : Ty) :
    Has P (allocateBlock count element) := by
  unfold allocateBlock
  infer_instance

instance (array position : Address) (n : Nat) (value : Address) :
    Has P (storeElement array position n value) := by
  unfold storeElement
  infer_instance

instance (value : Slot) (span : Span) : Has P (dimension value span) := by
  unfold dimension
  dsimp only
  infer_instance

instance (element : Ty) (values : List Slot) :
    Has P (arrayOf element values) := by
  unfold arrayOf
  infer_instance

end Core

/-! ## Steps that name functions -/

/-- A property of the smallest steps that do not jump, whether they name a function or not. -/
class Basic (P : (α : Type) → CompileM α → Prop) : Prop extends Core P where
  link (i : Instr) (region : Nat) : i.isStraight = true → P Unit (CompileM.emit i region)

/-- A property that the constructs have that name functions, when their parts do. -/
class Linked (P : (α : Type) → CompileM α → Prop) : Prop extends Core P where
  namePlace (name : String) (span : Span) : P Place (namePlace name span)
  callNamed {name : String} {nameSpan span : Span} {intrinsicCall : Intrinsic → CompileM Slot}
    {args : CompileM (List Slot)} {argSpans : List Span} : (∀ i, P Slot (intrinsicCall i)) →
    P (List Slot) args → P Slot (meaning name nameSpan >>= fun d =>
      callNamed name nameSpan d intrinsicCall args argSpans span)
  callStatic {owner : Ty} {name : String} {receiver : Address} {args : CompileM (List Slot)}
    {argSpans : List Span} {span : Span} : P (List Slot) args →
    P Slot (callStatic owner name receiver args argSpans span)
  scopedValue (owner : TypeExpr) (member : Ident) (span : Span) :
    P Slot (scopedValue owner member span)
  constructObject {type : Ty} {object : Slot} {args : CompileM (List Slot)} {argSpans : List Span}
    {span : Span} : P (List Slot) args → P Unit (constructObject type object args argSpans span)

section Basic

variable {P : (α : Type) → CompileM α → Prop} [Basic P]

instance (dst : Address) (f : String) : Has P (emit (.fnAddr dst f)) := ⟨Basic.link _ _ rfl⟩

instance (f : String) (base : Address) (region : Nat) : Has P (emit (.callFn f base) region) :=
  ⟨Basic.link _ _ rfl⟩

instance (t : Ty) (mangled : String) : Has P (functionPointer t mangled) := by
  unfold functionPointer
  infer_instance

instance (name : String) (ids : List Nat) (span : Span) :
    Has P (functionValue name ids span) := by
  unfold functionValue
  split <;> infer_instance

instance (f : String) (receiver : Option Address) (base : Address) (region : Nat) :
    Has P (emitCallee (.function f) receiver base region) := by
  unfold emitCallee
  infer_instance

section Arguments

variable (args : CompileM (List Slot)) [Has P args] (argSpans : List Span) (span : Span)

instance (name : String) (ids : List Nat) :
    Has P (callFunction name ids args argSpans span) := by
  unfold callFunction
  infer_instance

instance has_callNamed (name : String) (nameSpan : Span) (d : Meaning)
    (intrinsicCall : Intrinsic → CompileM Slot) [∀ i, Has P (intrinsicCall i)] :
    Has P (callNamed name nameSpan d intrinsicCall args argSpans span) := by
  unfold callNamed
  split <;> infer_instance

theorem has_callStatic (owner : Ty) (name : String) (receiver : Address) :
    Has P (callStatic owner name receiver args argSpans span) := by
  unfold callStatic
  infer_instance

theorem has_constructObject (type : Ty) (object : Slot) :
    Has P (constructObject type object args argSpans span) := by
  unfold constructObject
  dsimp only
  infer_instance

end Arguments

theorem has_namePlace (name : String) (span : Span) : Has P (namePlace name span) := by
  unfold namePlace
  refine Has.bind fun d => ?_
  split <;> infer_instance

theorem has_scopedValue (owner : TypeExpr) (member : Ident) (span : Span) :
    Has P (scopedValue owner member span) := by
  unfold scopedValue
  refine Has.bind fun owner => Has.bind fun c => ?_
  split <;> infer_instance

instance : Linked P where
  namePlace name span := (has_namePlace name span).out
  callNamed {_ _ _ _ args _} hintrinsic hargs :=
    have : Has P args := ⟨hargs⟩
    have := fun i => Has.mk (hintrinsic i)
    Has.out
  callStatic {_ _ _ args _ _} hargs :=
    have : Has P args := ⟨hargs⟩
    (has_callStatic ..).out
  scopedValue owner member span := (has_scopedValue owner member span).out
  constructObject {_ _ args _ _} hargs :=
    have : Has P args := ⟨hargs⟩
    (has_constructObject ..).out

end Basic

section Linked

variable {P : (α : Type) → CompileM α → Prop} [Linked P]

instance (name : String) (span : Span) : Has P (namePlace name span) :=
  ⟨Linked.namePlace name span⟩

instance (owner : TypeExpr) (member : Ident) (span : Span) : Has P (scopedValue owner member span) :=
  ⟨Linked.scopedValue owner member span⟩

variable (args : CompileM (List Slot)) [hargs : Has P args] (argSpans : List Span) (span : Span)

instance (name : String) (nameSpan : Span) (intrinsicCall : Intrinsic → CompileM Slot)
    [hintrinsic : ∀ i, Has P (intrinsicCall i)] : Has P (meaning name nameSpan >>= fun d =>
      callNamed name nameSpan d intrinsicCall args argSpans span) :=
  ⟨Linked.callNamed (fun i => (hintrinsic i).out) hargs.out⟩

instance (owner : Ty) (name : String) (receiver : Address) :
    Has P (callStatic owner name receiver args argSpans span) := ⟨Linked.callStatic hargs.out⟩

instance (object : Place) (member : Ident) (fieldValue : CompileM Slot) [Has P fieldValue] :
    Has P (callMember object member fieldValue args argSpans span) := by
  unfold callMember
  dsimp only
  split <;> infer_instance

instance (type : Ty) (object : Slot) :
    Has P (constructObject type object args argSpans span) := ⟨Linked.constructObject hargs.out⟩

instance (owner : TypeExpr) : Has P (newObject owner args argSpans span) := by
  unfold newObject
  refine Has.bind fun type => ?_
  split
  · infer_instance
  · dsimp only
    infer_instance

end Linked

/-! ## Constructs with jumps -/

/-- A conditional, from the steps that compile its condition and its branches. -/
def conditional (test : CompileM Address) (yes no : CompileM Slot) (yesSpan noSpan span : Span)
    (dest : Option Slot) : CompileM Slot := do
  let otherwise ← freshLabel .otherwise
  let done ← freshLabel .endIf
  let join ← freshLabel .general
  emit (.ifFalse (← test) otherwise)
  let yesValue ← yes
  emitGoto join
  emitLabel otherwise
  let noValue ← no
  let type ← commonType [yesValue.type, noValue.type] span
  let result : Slot := ⟨type, ← resultAddress type dest⟩
  joinInto noValue result noSpan
  emitGoto done
  emitLabel join
  joinInto yesValue result yesSpan
  emitLabel done
  return result

/-- A switch, from the steps that compile its subject and its default. -/
def switch (subject default : CompileM Slot) (arms : List Arm) (defaultSpan span : Span)
    (dest : Option Slot) : CompileM Slot := do
  let subject ← subject
  let done ← freshLabel .endCase
  let bodies ← armTests subject arms
  let join ← freshLabel .general
  let value ← default
  emitGoto join
  let branches := ⟨value, join, defaultSpan⟩ :: (← armBodies dest arms bodies)
  let type ← commonType (branches.map (·.value.type)) span
  let result : Slot := ⟨type, ← resultAddress type dest⟩
  joinAll result done branches
  emitLabel done
  return result

theorem place_conditional (dest : Option Slot) (c yes no : Expr) (span : Span) :
    place dest (.conditional c yes no span) =
      slotPlace (conditional (asCondition c (place none c)) (asValue yes (place dest yes) dest)
        (asValue no (place dest no) dest) yes.span no.span span dest) := by
  rw [place]
  rfl

theorem place_switch (dest : Option Slot) (subject : Expr) (arms : List Arm) (default : Expr)
    (span : Span) :
    place dest (.switch subject arms default span) =
      slotPlace (switch (asValue subject (place none subject) none)
        (asValue default (place dest default) dest) arms default.span span dest) := by
  rw [place]
  rfl

/-! ## Loops with parts that may be missing -/

/-- Run a step for a part of a statement, if it is there. -/
def optionally {α : Type} (step : α → CompileM Unit) : Option α → CompileM Unit
  | some a => step a
  | none => pure ()

theorem stmt_forLoop (init : Option Stmt) (condition step : Option Expr) (body : List Stmt)
    (span : Span) :
    stmt (.forLoop init condition step body span) = inScope .block (do
      optionally stmt init
      let top ← freshLabel .loop
      let done ← freshLabel .endLoop
      let next ← freshLabel .general
      emitLabel top
      optionally (jumpUnless · done) condition
      inScope (.loop done next) (stmts body)
      emitLabel next
      optionally effect step
      emitGoto top
      emitLabel done) := by
  cases init <;> cases condition <;> cases step <;> simp [stmt, optionally]

/-- A property that the constructs with jumps have, too, when their parts do. -/
class Whole (P : (α : Type) → CompileM α → Prop) : Prop extends Linked P where
  lazyOperator {isAnd : Bool} {left : CompileM Address} {right : Slot → CompileM Unit}
    {dest : Option Slot} : P Address left → (∀ s, P Unit (right s)) →
    P Slot (lazyOperator isAnd left right dest)
  conditional {test : CompileM Address} {yes no : CompileM Slot} {yesSpan noSpan span : Span}
    {dest : Option Slot} : P Address test → P Slot yes → P Slot no →
    P Slot (conditional test yes no yesSpan noSpan span dest)
  switch {subject default : CompileM Slot} {arms : List Arm} {defaultSpan span : Span}
    {dest : Option Slot} : P Slot subject → P Slot default →
    (∀ arm ∈ arms, (∀ e ∈ arm.values, P Slot (asValue e (place none e) none)) ∧
      P Slot (asValue arm.result (place dest arm.result) dest)) →
    P Slot (switch subject default arms defaultSpan span dest)
  fillNested {array count : Address} {inner : CompileM Address} : P Address inner →
    P Unit (fillNested array count inner)

/-! ## Steps that jump -/

/-- A property of the smallest steps, also of those that jump. -/
class Jumps (P : (α : Type) → CompileM α → Prop) : Prop extends Linked P where
  freshLabel (k : LabelKind) : P Label (CompileM.freshLabel k)
  jump (i : Instr) : i.link? = none → P Unit (CompileM.emit i)

section Jumps

variable {P : (α : Type) → CompileM α → Prop} [Jumps P]

instance (k : LabelKind) : Has P (freshLabel k) := ⟨Jumps.freshLabel k⟩

instance (l : Label) : Has P (emitLabel l) := ⟨Jumps.jump _ rfl⟩

instance (l : Label) : Has P (emitGoto l) := ⟨Jumps.jump _ rfl⟩

instance (a : Address) (l : Label) : Has P (emit (.ifTrue a l)) := ⟨Jumps.jump _ rfl⟩

instance (a : Address) (l : Label) : Has P (emit (.ifFalse a l)) := ⟨Jumps.jump _ rfl⟩

instance : Has P (emit .ret) := ⟨Jumps.jump _ rfl⟩

theorem has_tests (subject : Slot) (target : Label) : ∀ es : List Expr,
    (∀ e ∈ es, Has P (asValue e (place none e) none)) → Has P (tests subject target es)
  | [], _ => by
    unfold tests
    infer_instance
  | e :: es, h => by
    have hfirst := h e List.mem_cons_self
    have hrest := has_tests subject target es fun e he => h e (List.mem_cons_of_mem _ he)
    unfold tests jumpIfEqual
    infer_instance

theorem has_armTests (subject : Slot) : ∀ arms : List Arm,
    (∀ arm ∈ arms, ∀ e ∈ arm.values, Has P (asValue e (place none e) none)) →
      Has P (armTests subject arms)
  | [], _ => by
    unfold armTests
    infer_instance
  | .mk vs result span :: arms, h => by
    have hfirst := fun l => has_tests subject l vs (h _ List.mem_cons_self)
    have hrest := has_armTests subject arms fun arm harm => h arm (List.mem_cons_of_mem _ harm)
    unfold armTests
    infer_instance

theorem has_armBodies (dest : Option Slot) : ∀ (arms : List Arm) (ls : List Label),
    (∀ arm ∈ arms, Has P (asValue arm.result (place dest arm.result) dest)) →
      Has P (armBodies dest arms ls)
  | .mk vs result span :: arms, l :: ls, h => by
    have hfirst : Has P (asValue result (place dest result) dest) := h _ List.mem_cons_self
    have hrest := has_armBodies dest arms ls fun arm harm => h arm (List.mem_cons_of_mem _ harm)
    unfold armBodies
    infer_instance
  | [], _, _ => by
    unfold armBodies
    infer_instance
  | .mk _ _ _ :: _, [], _ => by
    unfold armBodies
    infer_instance

theorem has_fillNested (array count : Address) (inner : CompileM Address) [Has P inner] :
    Has P (fillNested array count inner) := by
  unfold fillNested
  refine .bind fun _ => .bind fun _ => .bind fun _ => .bind fun _ => .bind fun _ => ?_
  refine .bind fun _ => .bind fun _ => .bind fun _ => .bind fun _ => .bind fun _ => ?_
  infer_instance

theorem has_lazyOperator (isAnd : Bool) (left : CompileM Address) (right : Slot → CompileM Unit)
    (dest : Option Slot) [Has P left] [∀ s, Has P (right s)] :
    Has P (lazyOperator isAnd left right dest) := by
  unfold lazyOperator
  dsimp only
  refine .bind fun _ => .bind fun _ => .bind fun _ => .bind fun _ => .bind fun _ => ?_
  infer_instance

theorem has_conditional (test : CompileM Address) (yes no : CompileM Slot)
    (yesSpan noSpan span : Span) (dest : Option Slot) [Has P test] [Has P yes] [Has P no] :
    Has P (conditional test yes no yesSpan noSpan span dest) := by
  unfold conditional
  refine .bind fun _ => .bind fun _ => .bind fun _ => .bind fun _ => .bind fun _ => ?_
  refine .bind fun _ => .bind fun _ => .bind fun _ => .bind fun _ => .bind fun _ => ?_
  dsimp only
  infer_instance

theorem has_switch (subject default : CompileM Slot) (arms : List Arm) (defaultSpan span : Span)
    (dest : Option Slot) [Has P subject] [Has P default]
    (harms : ∀ arm ∈ arms, (∀ e ∈ arm.values, P Slot (asValue e (place none e) none)) ∧
      P Slot (asValue arm.result (place dest arm.result) dest)) :
    Has P (switch subject default arms defaultSpan span dest) := by
  have htests := fun v => has_armTests (P := P) v arms fun arm harm e he =>
    ⟨(harms arm harm).1 e he⟩
  have hbodies := fun ls => has_armBodies (P := P) dest arms ls fun arm harm =>
    ⟨(harms arm harm).2⟩
  unfold switch joinAll
  dsimp only
  refine .bind fun _ => .bind fun _ => .bind fun _ => .bind fun _ => .bind fun _ => ?_
  infer_instance

instance : Whole P where
  lazyOperator {_ left _ _} hleft hright :=
    have : Has P left := ⟨hleft⟩
    have := fun s => Has.mk (hright s)
    (has_lazyOperator ..).out
  conditional {test yes no _ _ _ _} htest hyes hno :=
    have : Has P test := ⟨htest⟩
    have : Has P yes := ⟨hyes⟩
    have : Has P no := ⟨hno⟩
    (has_conditional ..).out
  switch {subject default _ _ _ _} hsubject hdefault harms :=
    have : Has P subject := ⟨hsubject⟩
    have : Has P default := ⟨hdefault⟩
    (has_switch _ _ _ _ _ _ harms).out
  fillNested {_ _ inner} hinner :=
    have : Has P inner := ⟨hinner⟩
    (has_fillNested ..).out

end Jumps

/-! ## What the constructs are parts of -/

section Whole

variable {P : (α : Type) → CompileM α → Prop} [Whole P]

instance (array count : Address) (inner : CompileM Address) [hi : Has P inner] :
    Has P (fillNested array count inner) := ⟨Whole.fillNested hi.out⟩

instance has_allocateNested : ∀ (type : Ty) (counts : List Address),
    Has P (allocateNested type counts)
  | _, [] => by
    unfold allocateNested
    infer_instance
  | type, count :: rest => by
    have := fun element => has_allocateNested element rest
    unfold allocateNested
    split <;> infer_instance

instance (isAnd : Bool) (left : CompileM Address) (right : Slot → CompileM Unit)
    (dest : Option Slot) [hl : Has P left] [hr : ∀ s, Has P (right s)] :
    Has P (lazyOperator isAnd left right dest) :=
  ⟨Whole.lazyOperator hl.out fun s => (hr s).out⟩

instance (element : TypeExpr) (dims : List Expr) (values : CompileM (List Address))
    [Has P values] (span : Span) :
    Has P (newArray element dims values span) := by
  unfold newArray
  split
  · infer_instance
  · dsimp only
    infer_instance

/-! ## Expressions -/

instance (p : CompileM Place) (dest : Option Slot) [Has P p] :
    Has P (asSlot p dest) := by
  unfold asSlot
  infer_instance

instance (e : Expr) (p : CompileM Place) (dest : Option Slot) [Has P p] :
    Has P (asValue e p dest) := by
  unfold asValue
  infer_instance

instance (e : Expr) (p : CompileM Place) [Has P p] :
    Has P (asCondition e p) := by
  unfold asCondition
  infer_instance

instance (s : CompileM Slot) [Has P s] :
    Has P (slotPlace s) := by
  unfold slotPlace
  infer_instance

instance (intrinsic : Intrinsic) (operand : Expr) (p : CompileM Place)
    [Has P p] :
    Has P (intrinsicCall intrinsic operand p) := by
  unfold intrinsicCall
  split <;> infer_instance

-- The variables are used through the recursion.
set_option linter.unusedSectionVars false

mutual

theorem has_place : ∀ (dest : Option Slot) (e : Expr), Has P (place dest e)
  | dest, .literal l _ => by
    unfold place
    infer_instance
  | dest, .name n span => by
    unfold place
    infer_instance
  | dest, .receiver span => by
    unfold place
    infer_instance
  | dest, .binary op l r span => by
    have hl := fun d => has_place d l
    have hr := fun d => has_place d r
    unfold place
    infer_instance
  | dest, .unary op e span => by
    have he := fun d => has_place d e
    unfold place
    split <;> infer_instance
  | dest, .assign target value span => by
    have ht := fun d => has_place d target
    have hv := fun d => has_place d value
    unfold place
    dsimp only
    infer_instance
  | dest, .call callee args span => by
    have hargs := has_values args
    have hcallee := fun d => has_place d callee
    unfold place
    cases callee with
    | name n nameSpan =>
      have hone : ∀ i : Intrinsic, Has P (match args with
          | [operand] => intrinsicCall i operand (place none operand)
          | _ => fail (.argumentCount i.name 1 args.length) span) := by
        intro i
        match args with
        | [] => infer_instance
        | [operand] =>
          have := has_place none operand
          infer_instance
        | _ :: _ :: _ => infer_instance
      infer_instance
    | member object member memberSpan =>
      have := fun d => has_place d object
      infer_instance
    | scopedName owner member memberSpan =>
      match args with
      | [] => infer_instance
      | first :: rest =>
        have := has_place none first
        have := has_values rest
        infer_instance
    | _ => infer_instance
  | dest, .member object member _ => by
    have := fun d => has_place d object
    unfold place
    infer_instance
  | dest, .scopedName owner member span => by
    unfold place
    infer_instance
  | dest, .index object position _ => by
    have := fun d => has_place d object
    have := fun d => has_place d position
    unfold place
    infer_instance
  | dest, .newObject owner args span => by
    have := has_values args
    unfold place
    infer_instance
  | dest, .newArray element dims span => by
    have := has_dimensions dims
    unfold place
    infer_instance
  | dest, .array [] span => by
    unfold place
    infer_instance
  | dest, .array (first :: rest) span => by
    have := fun d => has_place d first
    have := fun t => has_coerced t rest
    unfold place
    infer_instance
  | dest, .cast e target span => by
    have := fun d => has_place d e
    unfold place
    infer_instance
  | dest, .instanceOf e owner _ => by
    have := fun d => has_place d e
    unfold place
    infer_instance
  | dest, .conditional c yes no span => by
    have hc := has_place none c
    have hyes := has_place dest yes
    have hno := has_place dest no
    rw [place_conditional]
    have : Has P (conditional (asCondition c (place none c)) (asValue yes (place dest yes) dest)
        (asValue no (place dest no) dest) yes.span no.span span dest) :=
      ⟨Whole.conditional Has.out Has.out Has.out⟩
    infer_instance
  | dest, .switch subject arms default span => by
    have hsubject := has_place none subject
    have hdefault := has_place dest default
    have harms := has_arms dest arms
    rw [place_switch]
    have : Has P (switch (asValue subject (place none subject) none)
        (asValue default (place dest default) dest) arms default.span span dest) :=
      ⟨Whole.switch Has.out Has.out harms⟩
    infer_instance
  | dest, .placeholder n span => by
    unfold place
    infer_instance

theorem has_values : ∀ es : List Expr, Has P (values es)
  | [] => by
    unfold values
    infer_instance
  | e :: es => by
    have := fun d => has_place d e
    have := has_values es
    unfold values
    infer_instance

theorem has_dimensions : ∀ es : List Expr, Has P (dimensions es)
  | [] => by
    unfold dimensions
    infer_instance
  | e :: es => by
    have := fun d => has_place d e
    have := has_dimensions es
    unfold dimensions
    infer_instance

theorem has_coerced (element : Ty) : ∀ es : List Expr,
    Has P (coerced element es)
  | [] => by
    unfold coerced
    infer_instance
  | e :: es => by
    have := fun d => has_place d e
    have := has_coerced element es
    unfold coerced
    infer_instance

theorem has_all (dest : Option Slot) : ∀ es : List Expr, ∀ e ∈ es, Has P (place dest e)
  | [], _, he => absurd he List.not_mem_nil
  | e :: es, e', he => by
    have hfirst := has_place dest e
    have hrest := has_all dest es
    rcases List.mem_cons.mp he with rfl | he
    · exact hfirst
    · exact hrest e' he

theorem has_arms (dest : Option Slot) : ∀ arms : List Arm, ∀ arm ∈ arms,
    (∀ e ∈ arm.values, P Slot (asValue e (place none e) none)) ∧
      P Slot (asValue arm.result (place dest arm.result) dest)
  | [], _, harm => absurd harm List.not_mem_nil
  | .mk vs result span :: arms, arm, harm => by
    have hvalues := has_all none vs
    have hplace := has_place dest result
    have hresult : Has P (asValue result (place dest result) dest) := inferInstance
    have hrest := has_arms dest arms
    rcases List.mem_cons.mp harm with rfl | harm
    · refine ⟨?_, hresult.out⟩
      intro e he
      have := hvalues e he
      exact Has.out
    · exact hrest arm harm

end

attribute [instance] has_place has_values has_dimensions has_coerced

instance (e : Expr) (dest : Option Slot) : Has P (expr e dest) := by
  unfold expr
  infer_instance

instance (e : Expr) : Has P (probeType e) := by
  unfold probeType
  infer_instance

instance (d : VarDecl) : Has P (declaredType d) := has_declaredType d fun _ _ => inferInstance

/-! ## Statements without control flow -/

instance (e : Expr) : Has P (value e) := by
  unfold value
  infer_instance

instance (e : Expr) (dest : Slot) : Has P (into e dest) := by
  unfold into
  infer_instance

instance (e : Expr) : Has P (effect e) := by
  unfold effect
  infer_instance

instance (object : Slot) : Has P (tagObject object) := by
  unfold tagObject
  infer_instance

instance (dest : Slot) : Has P (clear dest) := by
  unfold clear
  infer_instance

instance (d : VarDecl) (dest : Slot) : Has P (storeInitial d dest) := by
  unfold storeInitial
  split <;> infer_instance

instance (target : Slot) (targetSpan span : Span) :
    Has P (deleteObject target targetSpan span) := by
  have hdestructor : Has P (do
      if let some owner := target.type.pointeeClass? then
        let name := Class.destructorName
        if ← hasMethod owner name then
          let fit ← selectMethod owner name [] span
          let result ← methodResult owner name fit.key
          let _ ← emitCall (.dispatch fit.key) result (some target.address) []
      let _ ← emitCall (.native .free) .void none [⟨.voidPointer, target.address⟩] :
        CompileM Unit) := by
    split <;> infer_instance
  unfold deleteObject
  dsimp only
  infer_instance

instance (target : Expr) (span : Span) : Has P (delete target span) := by
  unfold delete
  infer_instance

instance (e : Expr) (result : Ty) : Has P (returnValue e result) := by
  unfold returnValue
  refine Has.bind fun v => Has.bind fun c => ?_
  dsimp only
  split <;> infer_instance

end Whole

end Lowering

end ClassLang
