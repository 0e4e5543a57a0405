import ClassLang.Lowering.Place

/-!
# Operators, casts and joins

Arithmetic on two numbers is done in `float` if one of them is a float and in `int`
otherwise; comparisons yield an `int`. Pointer-like values can be compared for equality.
Branches of a conditional are joined at a type that all of them convert to.
-/

namespace ClassLang

/-- The integer instruction of an operator. The lazy operators never get here: they are
lowered to branches. -/
def BinaryOp.intOp : BinaryOp → IntOp
  | add => .add
  | sub => .sub
  | mul => .mul
  | div => .div
  | mod => .mod
  | equal => .eq
  | notEqual => .ne
  | less => .lt
  | lessEqual => .le
  | greater => .gt
  | greaterEqual => .ge
  | bitAnd | and => .and
  | bitOr | or => .or
  | bitXor => .xor
  | shiftLeft => .shl
  | shiftRight => .shr

/-- The float instruction of an operator, if floats have it. -/
def BinaryOp.floatOp? : BinaryOp → Option FloatOp
  | add => some .add
  | sub => some .sub
  | mul => some .mul
  | div => some .div
  | mod => some .mod
  | equal => some .eq
  | notEqual => some .ne
  | less => some .lt
  | lessEqual => some .le
  | greater => some .gt
  | greaterEqual => some .ge
  | _ => none

open CompileM

namespace Lowering

/-! ## Unary operators -/

/-- Apply a one-operand instruction. -/
def applyOne (op : OneOp) (src : Address) (type : Ty) (dest : Option Slot) : CompileM Slot := do
  let dst ← resultAddress type dest
  emit (.unary op dst src)
  return ⟨type, dst⟩

/-- Apply a one-operand integer instruction to an integral value. -/
def applyIntegral (instr : OneOp) (op : UnaryOp) (value : Slot) (span : Span)
    (dest : Option Slot) : CompileM Slot := do
  if !value.type.isIntegral then
    fail (.typing (.unaryOperand op.spelling (← typeName value.type))) span
  let value ← coerce value .int span
  applyOne instr value.address .int dest

/-- `-value` -/
def negate (value : Slot) (span : Span) (dest : Option Slot) : CompileM Slot :=
  if value.type.isFloat then applyOne .floatNeg value.address .float dest
  else applyIntegral .intNeg .neg value span dest

/-- The address of an operand that has been compiled as a place. -/
def addressOfOperand (operand : Expr) (p : Place) (span : Span) (dest : Option Slot) :
    CompileM Slot := do
  if !operand.isAddressable || (operand.isName && p.name.isNone) then
    fail (.typing (.addressOf operand.form)) span
  addressOf dest p

/-! ## Binary operators -/

/-- Apply an integer instruction to two words. -/
def applyInt (op : IntOp) (lhs rhs : Address) (dest : Option Slot) : CompileM Slot := do
  let dst ← resultAddress .int dest
  emit (.int op dst lhs rhs)
  return ⟨.int, dst⟩

/-- Apply an operator to two numbers of which one is a float. -/
def applyFloat (op : BinaryOp) (lhs rhs : Slot) (span : Span) (dest : Option Slot) :
    CompileM Slot := do
  match op.floatOp? with
  | none => fail (.typing (.floatOperator op.spelling)) span
  | some floatOp =>
    let lhs ← coerce lhs .float span
    let rhs ← coerce rhs .float span
    let type := if floatOp.isComparison then Ty.int else Ty.float
    let dst ← resultAddress type dest
    emit (.float floatOp dst lhs.address rhs.address)
    return ⟨type, dst⟩

/-- Apply an operator that is not lazy. -/
def applyBinary (op : BinaryOp) (lhs rhs : Slot) (span : Span) (dest : Option Slot) :
    CompileM Slot := do
  if lhs.type.isNumeric && rhs.type.isNumeric then
    if lhs.type.isFloat || rhs.type.isFloat then applyFloat op lhs rhs span dest
    else
      let lhs ← coerce lhs .int span
      let rhs ← coerce rhs .int span
      applyInt op.intOp lhs.address rhs.address dest
  else if op.isEquality && lhs.type.isPointerLike && rhs.type.isPointerLike then
    let lhs ← asWord lhs
    let rhs ← asWord rhs
    applyInt op.intOp lhs.address rhs.address dest
  else
    let r := (← get).registry
    fail (.typing (.binaryOperands op.spelling (r.typeName lhs.type) (r.typeName rhs.type))) span

/-- Jump to `target` if the subject of a switch equals a candidate. -/
def jumpIfEqual (subject candidate : Slot) (target : Label) (span : Span) : CompileM Unit := do
  let equal ← applyBinary .equal subject candidate span none
  emit (.ifTrue equal.address target)

/-- `left and right` or `left or right`, from a step that yields the left operand as a
condition and one that leaves the right operand in a given slot. The first reads as
`if left then right else 0`, the second as `if left then 1 else right`. -/
def lazyOperator (isAnd : Bool) (left : CompileM Address) (right : Slot → CompileM Unit)
    (dest : Option Slot) : CompileM Slot := do
  let result : Slot := ⟨.int, ← resultAddress .int dest⟩
  let otherwise ← freshLabel .otherwise
  let done ← freshLabel .endIf
  emit (.ifFalse (← left) otherwise)
  if isAnd then
    withTemps (right result)
    emitGoto done
    emitLabel otherwise
    emit (.imm result.address 0 Prim.int.size)
  else
    emit (.imm result.address 1 Prim.int.size)
    emitGoto done
    emitLabel otherwise
    withTemps (right result)
  emitLabel done
  return result

/-! ## Casts -/

/-- Whether a cast just copies bits: between pointers to objects or `void`, and between `int`
and `*void`. -/
def isReinterpretation : Ty → Ty → Bool
  | .pointer a, .pointer b => (a.isVoid || a.isClassLike) && (b.isVoid || b.isClassLike)
  | .prim p, .pointer b => b.isVoid && p == .int
  | .pointer a, .prim p => a.isVoid && p == .int
  | _, _ => false

/-- `value as target` -/
def castTo (value : Slot) (target : Ty) (span : Span) (dest : Option Slot) : CompileM Slot := do
  let r := (← get).registry
  if value.type = target then return value
  else if value.type.isNumeric && target.isNumeric then
    match r.conversion? value.type target with
    | none => throw (.internal .numericWithoutConversion)
    | some c =>
      let result : Slot := ⟨target, ← resultAddress target dest⟩
      convertInto value result c
      return result
  else if isReinterpretation value.type target then
    let result : Slot := ⟨target, ← resultAddress target dest⟩
    copyBits result.address value.address (r.length value.type) (r.length target)
    return result
  else fail (.invalidCast (r.typeName value.type) (r.typeName target)) span

/-- `value instanceof owner`, a test of the class tag of the object pointed to. -/
def instanceTest (value : Slot) (valueSpan : Span) (owner : TypeExpr) (dest : Option Slot) :
    CompileM Slot := do
  if value.type.pointeeClass?.isNone then
    fail (.typing (.instanceOfValue (← typeName value.type))) valueSpan
  let id ← classId (← resolveClass owner)
  let dst ← resultAddress .int dest
  withRegister fun reg => do
    emit (.ptr reg value.address)
    emit (.instanceOf dst reg id)
  return ⟨.int, dst⟩

/-! ## Joins -/

/-- The first type that all types convert to, strong conversions preferred. -/
def commonType? (r : Registry) (types : List Ty) : Option Ty :=
  (types.find? fun c => types.all (r.convertsStrongly · c)).or
    (types.find? fun c => types.all (r.converts · c))

/-- The type at which branches are joined. -/
def commonType (types : List Ty) (span : Span) : CompileM Ty := do
  let r := (← get).registry
  match commonType? r types with
  | some t => return t
  | none => fail (.typing (.branchTypes (r.typeNames types))) span

/-- Convert the value of a branch into the slot in which the branches are joined. -/
def joinInto (value dest : Slot) (span : Span) : CompileM Unit := do
  convertInto value dest (← checkConversion value.type dest.type span)

/-- A branch that has been compiled: its value, the label of its join block, its position. -/
structure Branch where
  value : Slot
  join : Label
  span : Span

/-- Join branches one after the other; each ends with a jump to `done`. -/
def joinAll (dest : Slot) (done : Label) (branches : List Branch) : CompileM Unit :=
  branches.forM fun b => do
    emitLabel b.join
    joinInto b.value dest b.span
    emitGoto done

end Lowering

end ClassLang
