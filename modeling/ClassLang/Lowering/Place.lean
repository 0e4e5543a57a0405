import ClassLang.Lowering.Convert

/-!
# Places

A place is where an expression that can be read, written or pointed to lives: in a slot
known when the program is compiled, or at some distance from a pointer that is held in one.
Any other expression is put into a slot and is a place of the first kind. Reading a place of
the second kind copies it into a slot, writing it stores through the pointer.
-/

namespace ClassLang

/-- Where a place is. -/
inductive Location where
  | fixed (address : Address)
  /-- Some bytes behind the pointer stored at `pointer`. -/
  | through (pointer : Address) (offset : Nat)
  deriving DecidableEq

/-- The location some bytes further on. -/
def Location.shift (amount : Nat) : Location → Location
  | fixed a => fixed (a.shift amount)
  | through p offset => through p (offset + amount)

/-- A typed place; `name` is the variable that it is, or is a part of. -/
structure Place where
  type : Ty
  location : Location
  isConst : Bool
  name : Option String
  deriving DecidableEq

/-- The place of a value without a name. -/
def Place.ofSlot (s : Slot) : Place := ⟨s.type, .fixed s.address, false, none⟩

/-- A place behind a pointer. -/
def Place.behind (type : Ty) (pointer : Address) (offset : Nat) : Place :=
  ⟨type, .through pointer offset, false, none⟩

/-- The place of a variable. -/
def Binding.place (b : Binding) (name : String) : Place :=
  ⟨b.type, .fixed b.address, b.isConst, some name⟩

open CompileM

namespace Lowering

/-! ## Reading, writing, pointing -/

/-- The value in a place. -/
def read (dest : Option Slot) (p : Place) : CompileM Slot := do
  match p.location with
  | .fixed a => return ⟨p.type, a⟩
  | .through pointer offset =>
    let dst ← resultAddress p.type dest
    let length ← lengthOf p.type
    withRegister fun reg => do
      emit (.ptr reg pointer)
      emit (.load dst ⟨reg, offset⟩ length)
    return ⟨p.type, dst⟩

/-- Store a value behind a pointer. -/
def storeThrough (pointer : Address) (offset : Nat) (value : Slot) : CompileM Unit := do
  let length ← lengthOf value.type
  withRegister fun reg => do
    emit (.ptr reg pointer)
    emit (.store ⟨reg, offset⟩ value.address length)

/-- Refuse to assign to a name that is no variable, and to a constant. -/
def checkAssignable (target : Expr) (p : Place) (span : Span) : CompileM Unit := do
  if let .name n nameSpan := target then
    if p.name.isNone then fail (.typing (.assignToName n)) nameSpan
  if p.isConst then fail (.assignToConst (p.name.getD "value")) span

/-- Write a place, from a step that leaves the value in a given slot and one that yields it
converted; the result is the value written. -/
def writePlace (p : Place) (leave : Slot → CompileM Unit) (stored : CompileM Slot) :
    CompileM Slot := do
  match p.location with
  | .fixed a =>
    let result : Slot := ⟨p.type, a⟩
    leave result
    return result
  | .through pointer offset =>
    let value ← stored
    storeThrough pointer offset value
    return value

/-- Let a register point to a place. -/
def pointTo (reg : Register) : Location → CompileM Unit
  | .fixed a => emit (.addr reg a)
  | .through pointer offset => do
    emit (.ptr reg pointer)
    if offset > 0 then emit (.offset reg offset)

/-- A pointer to a place. -/
def addressOf (dest : Option Slot) (p : Place) : CompileM Slot := do
  let type := Ty.pointer p.type
  withRegister fun reg => do
    pointTo reg p.location
    let dst ← resultAddress type dest
    emit (.setPtr dst reg)
    return ⟨type, dst⟩

/-- Write the class tag of the object in a slot. -/
def tagObject (object : Slot) : CompileM Unit := do
  let id ← classId object.type
  withRegister fun reg => do
    emit (.addr reg object.address)
    emit (.setTag reg id)

/-- Clear fresh storage; objects also get their class tag. -/
def clear (dest : Slot) : CompileM Unit := do
  emit (.imm dest.address 0 (← lengthOf dest.type))
  if dest.type.isClassLike then tagObject dest

/-! ## Parts of places -/

/-- The offset and type of a field of a class-like type. -/
def fieldOf (t : Ty) (member : Ident) : CompileM (Nat × Ty) := do
  let r := (← get).registry
  match r.field? t member.name with
  | some f => return f
  | none => fail (.unknownField member.name (r.typeName t)) member.span

/-- A field of an object, or of the object behind a pointer. -/
def fieldPlace (object : Place) (member : Ident) : CompileM Place := do
  if object.type.isClassLike then
    let (offset, type) ← fieldOf object.type member
    return { object with type := type, location := object.location.shift offset }
  else
    match object.type.pointeeClass? with
    | some owner =>
      let (offset, type) ← fieldOf owner member
      let pointer ← read none object
      return .behind type pointer.address offset
    | none => fail (.unknownField member.name (← typeName object.type)) member.span

/-- What a pointer points to. -/
def pointeePlace (pointer : Slot) (span : Span) : CompileM Place := do
  match pointer.type with
  | .pointer inner =>
    if inner.isVoid then fail (.typing (.notAPointer (← typeName pointer.type))) span
    return .behind inner pointer.address 0
  | other => fail (.typing (.notAPointer (← typeName other))) span

/-- The element type of an array. -/
def elementType (array : Slot) (span : Span) : CompileM Ty := do
  match array.type.element? with
  | some t => return t
  | none => fail (.typing (.notAnArray (← typeName array.type))) span

/-- Let a register point to an element of an array. -/
def pointToElement (reg : Register) (array position : Address) (elementLength : Nat) :
    CompileM Unit := do
  emit (.ptr reg array)
  emit (.index reg position elementLength Ty.arrayHeader)

/-- An element of an array. -/
def elementPlace (array : Slot) (element : Ty) (position : Slot) (span : Span) :
    CompileM Place := do
  if !position.type.isIntegral then
    fail (.typing (.indexNotInteger (← typeName position.type))) span
  let position ← coerce position .int span
  let length ← lengthOf element
  let slot ← withRegister fun reg => do
    pointToElement reg array.address position.address length
    spill reg
  return .behind element slot 0

/-! ## Names as places -/

/-- The address of a function as a value of a given type. -/
def functionPointer (type : Ty) (mangled : String) : CompileM Slot := do
  let dst ← alloc (← pointerSize)
  emit (.fnAddr dst mangled)
  return ⟨type, dst⟩

/-- A free function as a value; it must not be overloaded. -/
def functionValue (name : String) (ids : List Nat) (span : Span) : CompileM Slot := do
  match ids with
  | [id] =>
    let s ← askRegistry (·.getFunction id)
    functionPointer s.callableType s.mangled
  | _ => fail (.typing (.overloadedFunctionValue name)) span

/-- What a name is as a place. -/
def namePlace (name : String) (span : Span) : CompileM Place := do
  match ← meaning name span with
  | .variable b => return b.place name
  | .functions ids => return .ofSlot (← functionValue name ids span)
  | .classOf _ | .typeParam _ => fail (.typing (.typeAsValue name)) span
  | .native _ | .intrinsic _ => fail (.typing (.onlyCallable name)) span

/-- The receiver as a place; it cannot be assigned to. -/
def receiverPlace (span : Span) : CompileM Place := do
  let b ← receiverBinding span
  return { b.place "this" with isConst := true }

/-- A literal; a string is a pointer to its block in the pool. -/
def literalSlot (l : Literal) : CompileM Slot := do
  let a ← intern l
  match l with
  | .int _ => return ⟨.int, a⟩
  | .float _ => return ⟨.float, a⟩
  | .char _ => return ⟨.char, a⟩
  | .str _ =>
    let slot ← withRegister fun reg => do
      emit (.addr reg a)
      spill reg
    return ⟨.string, slot⟩

end Lowering

end ClassLang
