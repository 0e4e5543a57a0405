import ClassLang.Lowering.Operation
import ClassLang.Overload

/-!
# Calls

The caller lays out the callee's frame at the top of its own: the return slot, the receiver
of a method, the arguments. The callee sees this region as the start of its frame, and the
caller finds the result at its base. Functions are called by name and natives by number;
methods are called through the dispatch table of the object that a pointer points to, and by
name when the class is known exactly.

Steps that compile the arguments are handed in, because they run between the steps here.
-/

namespace ClassLang

/-- How a call reaches its callee. -/
inductive Callee where
  | function (mangled : String)
  | native (native : Native)
  /-- A function pointer in a slot. -/
  | pointer (slot : Address)
  /-- The function in a dispatch slot of the receiver. -/
  | dispatch (slot : Nat)

open CompileM

namespace Lowering

/-! ## The call itself -/

/-- The bytes that the caller lays out for the callee: the result, the receiver of a method and
the arguments. -/
def handedOver (r : Registry) (result : Ty) (receiver : Option Address) (args : List Slot) : Nat :=
  r.length result + (receiver.elim 0 fun _ => r.pointerSize) + r.lengths (args.map (·.type))

/-- The call instructions, for a callee frame at `base` of which the caller has laid out `region`
bytes. -/
def emitCallee (callee : Callee) (receiver : Option Address) (base : Address) (region : Nat) :
    CompileM Unit :=
  match callee with
  | .function mangled => emit (.callFn mangled base) region
  | .native n => emit (.callNative n.id base) region
  | .pointer slot => withRegister fun reg => do
    emit (.ptr reg slot)
    emit (.callPtr reg base) region
  | .dispatch slot =>
    match receiver with
    | none => throw (.internal .noReceiver)
    | some receiver => withRegister fun object => withRegister fun function => do
      emit (.ptr object receiver)
      emit (.vtable function object slot)
      emit (.callPtr function base) region

/-- Lay out the callee's frame and call. The arguments must have the parameter types. -/
def emitCall (callee : Callee) (result : Ty) (receiver : Option Address) (args : List Slot) :
    CompileM Slot := do
  let base := (← get).frame.topAddress
  let _ ← allocFor result
  if let some receiver := receiver then
    let size ← pointerSize
    move (← alloc size) receiver size
  args.forM fun arg => do
    let length ← lengthOf arg.type
    move (← alloc length) arg.address length
  let region ← fromRegistry (handedOver · result receiver args)
  emitCallee callee receiver base region
  return ⟨result, base⟩

/-! ## Choosing what to call -/

/-- Choose among candidates for given arguments. -/
def select {κ : Type} (name : String) (candidates : List (Candidate κ)) (args : List Slot)
    (span : Span) : CompileM (Fit κ) :=
  askRegistry fun r => Overload.resolve r name candidates (args.map (·.type)) span

/-- Convert each argument to the parameter at its position; `spans` are the positions of the
arguments. -/
def coerceArgs : List Slot → List Ty → List Span → CompileM (List Slot)
  | arg :: args, param :: params, span :: spans => do
    let arg ← coerce arg param span
    return arg :: (← coerceArgs args params spans)
  | _, _, _ => return []

/-- The candidates of an overloaded function. -/
def functionCandidates (ids : List Nat) : CompileM (List (Candidate Nat)) :=
  ids.mapM fun id => do
    let s ← askRegistry (·.getFunction id)
    return ⟨id, s.params⟩

/-- Choose among the slots of a given name on a class; the key is the slot. -/
def selectMethod (owner : Ty) (name : String) (args : List Slot) (span : Span) :
    CompileM (Fit Nat) := do
  let r := (← get).registry
  match r.methodsNamed owner name with
  | [] => fail (.unknownMethod name (r.typeName owner)) span
  | ranks =>
    select (r.typeName owner ++ "." ++ name) (ranks.map fun k => ⟨k.slot, k.params⟩) args span

/-- The result of the method in a slot of a class. -/
def methodResult (owner : Ty) (name : String) (slot : Nat) : CompileM Ty :=
  fromRegistry fun r =>
    (((r.methodsNamed owner name).find? (·.slot == slot)).map (·.result)).getD .void

/-- The function that a slot of a class is bound to. -/
def implementation (owner : Ty) (name : String) (slot : Nat) (span : Span) :
    CompileM Signature := do
  match owner.classHash? with
  | none => throw (.internal (.notAClassType "static call on"))
  | some hash =>
    let c ← askRegistry (·.getClass hash)
    match c.implementation? slot with
    | some (some id) => askRegistry (·.getFunction id)
    | some none => fail (.rule (.abstractCall c.name name)) span
    | none => throw (.internal (.slotUnbound slot c.name))

/-- Whether a class-like type has a method of a given name. -/
def hasMethod (owner : Ty) (name : String) : CompileM Bool :=
  fromRegistry fun r => !(r.methodsNamed owner name).isEmpty

/-! ## Calls by form of the callee -/

/-- Call one of several overloads of a function. -/
def callFunction (name : String) (ids : List Nat) (args : CompileM (List Slot))
    (argSpans : List Span) (span : Span) : CompileM Slot := do
  let args ← args
  let fit ← select name (← functionCandidates ids) args span
  let args ← coerceArgs args fit.params argSpans
  let s ← askRegistry (·.getFunction fit.key)
  emitCall (.function s.mangled) s.result none args

/-- Call a native. -/
def callNative (name : String) (n : Native) (args : CompileM (List Slot))
    (argSpans : List Span) (span : Span) : CompileM Slot := do
  let args ← args
  let fit ← select name [⟨n, n.params⟩] args span
  let args ← coerceArgs args fit.params argSpans
  emitCall (.native n) n.result none args

/-- Call a callable value. The receiver of a method value is its first argument. -/
def callValue (callee : Slot) (args : CompileM (List Slot)) (argSpans : List Span)
    (span : Span) : CompileM Slot := do
  match callee.type with
  | .callable _ params result =>
    let args ← args
    let fit ← select "function value" [⟨(), params⟩] args span
    let args ← coerceArgs args fit.params argSpans
    emitCall (.pointer callee.address) result none args
  | other => fail (.typing (.notCallable (← typeName other))) span

/-- Call what a name stands for; `intrinsicCall` compiles the call of an intrinsic. -/
def callNamed (name : String) (nameSpan : Span) (d : Meaning)
    (intrinsicCall : Intrinsic → CompileM Slot) (args : CompileM (List Slot))
    (argSpans : List Span) (span : Span) : CompileM Slot :=
  match d with
  | .functions ids => callFunction name ids args argSpans span
  | .native native => callNative name native args argSpans span
  | .variable b => callValue ⟨b.type, b.address⟩ args argSpans span
  | .classOf _ | .typeParam _ => fail (.typing (.typeCalled name)) nameSpan
  | .intrinsic intrinsic => intrinsicCall intrinsic

/-- Call a method of the object that a pointer points to. -/
def callDispatched (owner : Ty) (name : String) (object : Place) (args : CompileM (List Slot))
    (argSpans : List Span) (span : Span) : CompileM Slot := do
  let receiver ← read none object
  let args ← args
  let fit ← selectMethod owner name args span
  let args ← coerceArgs args fit.params argSpans
  let result ← methodResult owner name fit.key
  emitCall (.dispatch fit.key) result (some receiver.address) args

/-- Call the method that a class sees, on a receiver. -/
def callStatic (owner : Ty) (name : String) (receiver : Address) (args : CompileM (List Slot))
    (argSpans : List Span) (span : Span) : CompileM Slot := do
  let args ← args
  let fit ← selectMethod owner name args span
  let args ← coerceArgs args fit.params argSpans
  let result ← methodResult owner name fit.key
  let s ← implementation owner name fit.key span
  emitCall (.function s.mangled) result (some receiver) args

/-- `object.member(args)`. If no method has the name, a field that holds a callable may;
`fieldValue` compiles it. -/
def callMember (object : Place) (member : Ident) (fieldValue : CompileM Slot)
    (args : CompileM (List Slot)) (argSpans : List Span) (span : Span) : CompileM Slot := do
  let name := member.name
  if let some owner := object.type.pointeeClass? then
    if ← hasMethod owner name then
      return ← callDispatched owner name object args argSpans span
  if object.type.isClassLike then
    if ← hasMethod object.type name then
      let receiver ← addressOf none object
      return ← callStatic object.type name receiver.address args argSpans span
  let r := (← get).registry
  let owner := object.type.pointeeClass?.or
    (if object.type.isClassLike then some object.type else none)
  if (owner.bind fun owner => r.field? owner name).isSome then
    callValue (← fieldValue) args argSpans span
  else fail (.unknownMethod name (r.typeName object.type)) member.span

/-- Whether a call of a method of `owner` has `this` as its receiver: inside a method of
`owner` or of one of its subclasses. -/
def receiverIsImplicit (owner : Ty) : CompileM Bool := do
  let s ← get
  match s.scopes.receiverClass?.bind (·.classHash?), owner.classHash? with
  | some current, some target => return s.registry.isSubclass current target
  | _, _ => return false

/-- The class and the name of a `Class::member`, which must be a method. -/
def scopedMethod (owner : TypeExpr) (member : Ident) : CompileM Ty := do
  let owner ← resolveClass owner
  if ← hasMethod owner member.name then return owner
  else fail (.unknownMethod member.name (← typeName owner)) member.span

/-- `Class::method` as a value, to be called with an explicit receiver. -/
def scopedValue (owner : TypeExpr) (member : Ident) (span : Span) : CompileM Slot := do
  let owner ← scopedMethod owner member
  match (← get).registry.methodsNamed owner member.name with
  | [rank] =>
    let s ← implementation owner member.name rank.slot span
    functionPointer (.callable .method (.pointer owner :: rank.params) rank.result) s.mangled
  | _ => fail (.typing (.overloadedMethodValue member.name)) span

/-! ## Intrinsics -/

/-- The type of the operand of `sizeof`, which may name a class or a template parameter; any
other operand is compiled for its type alone. -/
def sizedType (operand : Expr) (value : CompileM Slot) : CompileM Ty := do
  match operand with
  | .name name _ =>
    match ← meaning? name with
    | some (.classOf hash) => return .classRef hash
    | some (.typeParam t) => return t
    | _ => return (← probe value).type
  | _ => return (← probe value).type

/-- `sizeof(operand)` -/
def sizeOfOperand (operand : Expr) (value : CompileM Slot) : CompileM Slot := do
  let type ← sizedType operand value
  return ⟨.int, ← internNat (← lengthOf type)⟩

/-- `len(array)`, the first word of the array. -/
def lengthOfArray (array : Slot) (span : Span) : CompileM Slot := do
  if array.type.element?.isNone then
    fail (.typing (.lengthOf (← typeName array.type))) span
  let dst ← alloc Prim.int.size
  withRegister fun reg => do
    emit (.ptr reg array.address)
    emit (.load dst ⟨reg, 0⟩ Prim.int.size)
  return ⟨.int, dst⟩

end Lowering

end ClassLang
