import ClassLang.Lowering.Object

/-!
# Expressions

One function compiles every expression to a place. Callers may offer a destination; a node
whose result has the right type writes its result there. An expression that is no place of
its own is left in a slot, so its place is fixed and reading it costs nothing. The recursion
follows the tree.
-/

namespace ClassLang

open CompileM

namespace Lowering

/-- The slot of an expression that is compiled as a place. -/
def asSlot (p : CompileM Place) (dest : Option Slot) : CompileM Slot := do read dest (← p)

/-- The slot of `e`, compiled as a place, which must have a value. -/
def asValue (e : Expr) (p : CompileM Place) (dest : Option Slot) : CompileM Slot := do
  requireValue e (← asSlot p dest)

/-- The place of `e`, compiled as a place, used as a condition. -/
def asCondition (e : Expr) (p : CompileM Place) : CompileM Address := do
  condition (← asSlot p none) e.span

/-- A fixed place for a result. -/
def slotPlace (s : CompileM Slot) : CompileM Place := return .ofSlot (← s)

/-- A call of an intrinsic, whose operand is compiled as a place. -/
def intrinsicCall (intrinsic : Intrinsic) (operand : Expr) (p : CompileM Place) : CompileM Slot := do
  match intrinsic with
  | .sizeOf => sizeOfOperand operand (asSlot p none)
  | .len => lengthOfArray (← asValue operand p none) operand.span

mutual

/-- Compile an expression to a place. -/
def place (dest : Option Slot) : Expr → CompileM Place
  | .literal l _ => slotPlace (literalSlot l)
  | .name n span => namePlace n span
  | .receiver span => receiverPlace span
  | .binary op l r span =>
    if op.isLazy then
      slotPlace (lazyOperator (op == .and) (asCondition l (place none l))
        (fun result => do settle (← asSlot (place (some result) r) (some result)) result r.span)
        dest)
    else slotPlace do
      let lhs ← asValue l (place none l) none
      let rhs ← asValue r (place none r) none
      applyBinary op lhs rhs span dest
  | .unary op e span =>
    match op with
    | .neg => slotPlace do negate (← asValue e (place none e) none) span dest
    | .not => slotPlace do applyOne .logicalNot (← asCondition e (place none e)) .int dest
    | .bitNot => slotPlace do
      applyIntegral .bitNot .bitNot (← asValue e (place none e) none) span dest
    | .deref => do pointeePlace (← asSlot (place none e) none) e.span
    | .addrOf => slotPlace do addressOfOperand e (← place none e) span dest
  | .assign target value span => slotPlace do
    if !target.isAssignable then fail (.typing (.assignToForm target.form)) span
    let p ← place none target
    checkAssignable target p span
    writePlace p
      (fun result => do settle (← asSlot (place (some result) value) (some result)) result value.span)
      (do coerce (← asValue value (place none value) none) p.type value.span)
  | .call callee args span => slotPlace do
    let argSpans := args.map (·.span)
    match callee with
    | .name n nameSpan =>
      callNamed n nameSpan (← meaning n nameSpan)
        (fun intrinsic =>
          match args with
          | [operand] => intrinsicCall intrinsic operand (place none operand)
          | _ => fail (.argumentCount intrinsic.name 1 args.length) span)
        (values args) argSpans span
    | .member object member memberSpan =>
      let p ← place none object
      callMember p member
        (do
          let field ← fieldPlace (← place none object) member
          requireValue (.member object member memberSpan) (← read none field))
        (values args) argSpans span
    | .scopedName owner member _ =>
      let owner ← scopedMethod owner member
      if ← receiverIsImplicit owner then
        let receiver ← receiverBinding span
        callStatic owner member.name receiver.address (values args) argSpans span
      else
        match args with
        | [] => fail (.argumentCount ((← typeName owner) ++ "::" ++ member.name) 1 0) span
        | first :: rest =>
          let receiver ← coerce (← asValue first (place none first) none) (.pointer owner)
            first.span
          callStatic owner member.name receiver.address (values rest) (argSpans.drop 1) span
    | callee =>
      callValue (← asValue callee (place none callee) none) (values args) argSpans span
  | .member object member _ => do fieldPlace (← place none object) member
  | .scopedName owner member span => slotPlace (scopedValue owner member span)
  | .index object position _ => do
    let array ← asSlot (place none object) none
    let element ← elementType array object.span
    let index ← asSlot (place none position) none
    elementPlace array element index position.span
  | .newObject owner args span =>
    slotPlace (newObject owner (values args) (args.map (·.span)) span)
  | .newArray element dims span => slotPlace (newArray element dims (dimensions dims) span)
  | .array elements span => slotPlace do
    match elements with
    | [] => fail (.typing .emptyArray) span
    | first :: rest =>
      requireNative .heapArray span
      let first ← asValue first (place none first) none
      let rest ← coerced first.type rest
      arrayOf first.type (first :: rest)
  | .cast e target span => slotPlace do
    let value ← asValue e (place none e) none
    castTo value (← resolveType target) span dest
  | .instanceOf e owner _ => slotPlace do
    instanceTest (← asValue e (place none e) none) e.span owner dest
  | .conditional c yes no span => slotPlace do
    let otherwise ← freshLabel .otherwise
    let done ← freshLabel .endIf
    let join ← freshLabel .general
    emit (.ifFalse (← asCondition c (place none c)) otherwise)
    let yesValue ← asValue yes (place dest yes) dest
    emitGoto join
    emitLabel otherwise
    let noValue ← asValue no (place dest no) dest
    let type ← commonType [yesValue.type, noValue.type] span
    let result : Slot := ⟨type, ← resultAddress type dest⟩
    joinInto noValue result no.span
    emitGoto done
    emitLabel join
    joinInto yesValue result yes.span
    emitLabel done
    return result
  | .switch subject arms default span => slotPlace do
    let subject ← asValue subject (place none subject) none
    let done ← freshLabel .endCase
    let bodies ← armTests subject arms
    let join ← freshLabel .general
    let value ← asValue default (place dest default) dest
    emitGoto join
    let branches := ⟨value, join, default.span⟩ :: (← armBodies dest arms bodies)
    let type ← commonType (branches.map (·.value.type)) span
    let result : Slot := ⟨type, ← resultAddress type dest⟩
    joinAll result done branches
    emitLabel done
    return result
  | .placeholder n span => fail (.notCompilable n) span

/-- Compile expressions that must have values, in order. -/
def values : List Expr → CompileM (List Slot)
  | [] => return []
  | e :: es => do
    let value ← asValue e (place none e) none
    return value :: (← values es)

/-- Compile the dimensions of an array, in order. -/
def dimensions : List Expr → CompileM (List Address)
  | [] => return []
  | e :: es => do
    let length ← dimension (← asValue e (place none e) none) e.span
    return length :: (← dimensions es)

/-- Compile the elements of an array after the first, each converted to the type of the
first. -/
def coerced (element : Ty) : List Expr → CompileM (List Slot)
  | [] => return []
  | e :: es => do
    let value ← coerce (← asValue e (place none e) none) element e.span
    return value :: (← coerced element es)

/-- Compile the tests of one arm or case: a jump for each value that equals the subject. -/
def tests (subject : Slot) (target : Label) : List Expr → CompileM Unit
  | [] => return ()
  | e :: es => do
    withTemps do
      jumpIfEqual subject (← asValue e (place none e) none) target e.span
    tests subject target es

/-- Compile the tests of all arms; the result is the labels of their bodies. -/
def armTests (subject : Slot) : List Arm → CompileM (List Label)
  | [] => return []
  | .mk vs _ _ :: arms => do
    let body ← freshLabel .caseBody
    tests subject body vs
    return body :: (← armTests subject arms)

/-- Compile the results of all arms, each behind the label of its body. -/
def armBodies (dest : Option Slot) : List Arm → List Label → CompileM (List Branch)
  | .mk _ result _ :: arms, body :: bodies => do
    emitLabel body
    let join ← freshLabel .general
    let value ← asValue result (place dest result) dest
    emitGoto join
    return ⟨value, join, result.span⟩ :: (← armBodies dest arms bodies)
  | _, _ => return []

end

/-- Compile an expression to a slot. -/
def expr (e : Expr) (dest : Option Slot) : CompileM Slot := asSlot (place dest e) dest

/-- Compile an expression that must have a value. -/
def value (e : Expr) : CompileM Slot := asValue e (place none e) none

/-- Compile an expression and leave its value, converted, in a destination. -/
def into (e : Expr) (dest : Slot) : CompileM Unit := do
  settle (← expr e (some dest)) dest e.span

/-- The type of an expression, without keeping any code. -/
def probeType (e : Expr) : CompileM Ty := do return (← probe (expr e none)).type

end Lowering

end ClassLang
