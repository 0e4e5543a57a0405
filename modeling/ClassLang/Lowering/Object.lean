import ClassLang.Lowering.Call

/-!
# Objects and arrays on the heap

`new` allocates, writes the class tag and runs the constructor; `del` runs the destructor and
releases. Every level of an array is a block of its own, so the outer levels of a nested array
hold pointers to the inner ones and are filled by a loop.
-/

namespace ClassLang

open CompileM

namespace Lowering

/-! ## Objects -/

/-- Allocate an object of a class and write its tag; the result is a pointer to it. -/
def allocateObject (type : Ty) (id : Nat) : CompileM Slot := do
  let size : Slot := ⟨.int, ← internNat (← lengthOf type)⟩
  let block ← emitCall (.native .malloc) .voidPointer none [size]
  withRegister fun reg => do
    emit (.ptr reg block.address)
    emit (.setTag reg id)
  return ⟨.pointer type, block.address⟩

/-- Run the constructor of a new object; a class without one takes no arguments. -/
def constructObject (type : Ty) (object : Slot) (args : CompileM (List Slot))
    (argSpans : List Span) (span : Span) : CompileM Unit := do
  let name := Class.constructorName
  if ← hasMethod type name then
    let args ← args
    let fit ← selectMethod type name args span
    let args ← coerceArgs args fit.params argSpans
    let s ← implementation type name fit.key span
    let _ ← emitCall (.function s.mangled) s.result (some object.address) args
  else if !argSpans.isEmpty then
    fail (.argumentCount ((← typeName type) ++ "." ++ name) 0 argSpans.length) span

/-- `new owner(args)` -/
def newObject (owner : TypeExpr) (args : CompileM (List Slot)) (argSpans : List Span)
    (span : Span) : CompileM Slot := do
  let type ← resolveClass owner
  match type.classHash? with
  | none => throw (.internal (.notAClassType "new of"))
  | some hash =>
    let c ← askRegistry (·.getClass hash)
    if c.isAbstract then fail (.abstractInstantiation c.name) span
    requireNative .malloc span
    let object ← allocateObject type c.id
    constructObject type object args argSpans span
    return object

/-- `del target`: run the destructor, if there is one, and release the memory. -/
def deleteObject (target : Slot) (targetSpan span : Span) : CompileM Unit := do
  if !target.type.isPointerLike || target.type.isCallable then
    fail (.typing (.deleted (← typeName target.type))) targetSpan
  requireNative .free span
  if let some owner := target.type.pointeeClass? then
    let name := Class.destructorName
    if ← hasMethod owner name then
      let fit ← selectMethod owner name [] span
      let result ← methodResult owner name fit.key
      let _ ← emitCall (.dispatch fit.key) result (some target.address) []
  let _ ← emitCall (.native .free) .void none [⟨.voidPointer, target.address⟩]

/-! ## Arrays -/

/-- The type of arrays nested to some depth. -/
def nestedArray (element : Ty) : Nat → Ty
  | 0 => element
  | n + 1 => .array (nestedArray element n)

/-- Allocate a block of elements. -/
def allocateBlock (count : Address) (element : Ty) : CompileM Address := do
  let length ← internNat (← lengthOf element)
  let block ← emitCall (.native .heapArray) .voidPointer none [⟨.int, count⟩, ⟨.int, length⟩]
  return block.address

/-- Store a value as an element of an array. -/
def storeElement (array position : Address) (elementLength : Nat) (value : Address) :
    CompileM Unit :=
  withRegister fun reg => do
    pointToElement reg array position elementLength
    emit (.store ⟨reg, 0⟩ value elementLength)

/-- Fill an array whose elements are arrays, in a loop; `inner` allocates one of them. -/
def fillNested (array count : Address) (inner : CompileM Address) : CompileM Unit := do
  let size ← pointerSize
  let one ← internNat 1
  let position ← alloc Prim.int.size
  let inside ← alloc Prim.int.size
  let top ← freshLabel .loop
  let done ← freshLabel .endLoop
  emit (.imm position 0 Prim.int.size)
  emitLabel top
  emit (.int .lt inside position count)
  emit (.ifFalse inside done)
  withTemps do
    let element ← inner
    storeElement array position size element
  emit (.int .add position position one)
  emitGoto top
  emitLabel done

/-- Allocate an array of a type with the given dimensions, outermost first: one block, and the
blocks that its elements point to. -/
def allocateNested (type : Ty) : List Address → CompileM Address
  | [] => throw (.internal .levelWithoutDimension)
  | count :: rest =>
    match type.element? with
    | none => throw (.internal .levelWithoutElement)
    | some element => do
      let array ← allocateBlock count element
      if !rest.isEmpty then fillNested array count (allocateNested element rest)
      return array

/-- One dimension of an array allocation, as an `int`. -/
def dimension (value : Slot) (span : Span) : CompileM Address := do
  if !value.type.isIntegral then
    fail (.typing (.dimensionNotInteger (← typeName value.type))) span
  return (← coerce value .int span).address

/-- `new element[d0][d1]`, from the written dimensions and a step that compiles them. -/
def newArray (element : TypeExpr) (dims : List Expr) (values : CompileM (List Address))
    (span : Span) : CompileM Slot := do
  match dims with
  | [] => fail (.form .arrayWithoutDimension) span
  | outer :: _ =>
    if !outer.isIntLiteral then fail (.rule .dimensionNotConstant) outer.span
    requireNative .heapArray span
    let type ← resolveType element
    if type.isVoid then fail (.typing .arrayOfVoid) element.span
    let type := nestedArray type dims.length
    return ⟨type, ← allocateNested type (← values)⟩

/-- An array that holds the given values, all of one type. -/
def arrayOf (element : Ty) (values : List Slot) : CompileM Slot := do
  let count ← internNat values.length
  let array ← allocateBlock count element
  let length ← lengthOf element
  values.zipIdx.forM fun (value, i) => do
    let position ← internNat i
    storeElement array position length value.address
  return ⟨.array element, array⟩

end Lowering

end ClassLang
