import ClassLang.Lowering.Expr

/-!
# Statements

Every statement gives its temporaries back. Loops and cases open scopes that tell `break`,
`continue` and `fallthrough` where to go. The recursion follows the tree.
-/

namespace ClassLang

open CompileM

namespace Lowering

/-! ## Simple statements -/

/-- Evaluate an expression for its effects. -/
def effect (e : Expr) : CompileM Unit := withTemps do
  let _ ← expr e none

/-- Jump to `target` if a condition does not hold. -/
def jumpUnless (e : Expr) (target : Label) : CompileM Unit := withTemps do
  emit (.ifFalse (← asCondition e (place none e)) target)

/-- `del target` -/
def delete (target : Expr) (span : Span) : CompileM Unit := withTemps do
  deleteObject (← value target) target.span span

/-- `break` -/
def leave (span : Span) : CompileM Unit := do
  match (← get).scopes.loop? with
  | some (target, _) => emitGoto target
  | none => fail (.outside .leave) span

/-- `continue` -/
def again (span : Span) : CompileM Unit := do
  match (← get).scopes.loop? with
  | some (_, target) => emitGoto target
  | none => fail (.outside .again) span

/-- `fallthrough` -/
def fallInto (span : Span) : CompileM Unit := do
  match (← get).scopes.case? with
  | some (some target) => emitGoto target
  | some none => fail (.rule .fallthroughFromLast) span
  | none => fail (.outside .fallthrough) span

/-! ## Declarations -/

/-- The class of a class type, which must not be abstract if values of it are to be held. -/
def requireConcrete (t : Ty) (span : Span) : CompileM Unit := do
  if t.isClass then
    if let some hash := t.classHash? then
      let c ← askRegistry (·.getClass hash)
      if c.isAbstract then fail (.abstractInstantiation c.name) span

/-- The type of a declaration: as written, or that of its initializer. -/
def declaredType (d : VarDecl) : CompileM Ty := do
  let type ← match d.type, d.init with
    | some t, _ => resolveType t
    | none, some e => probeType e
    | none, none => fail (.form (.variableWithoutType d.name.name)) d.span
  match type with
  | .prim .void => fail (.typing (.voidVariable d.name.name)) d.span
  | .intrinsic .. => fail (.typing (.intrinsicVariable d.name.name)) d.span
  | .param n _ => fail (.typing (.parameterByValue n)) d.span
  | _ =>
    requireConcrete type d.span
    return type

/-- Give fresh storage its initial value. -/
def storeInitial (d : VarDecl) (dest : Slot) : CompileM Unit :=
  match d.init with
  | some e => withTemps (into e dest)
  | none =>
    if d.isConst then fail (.form (.constantWithoutInitializer d.name.name)) d.span
    else clear dest

/-- Compile a local declaration; the name is visible from here on. -/
def declare (d : VarDecl) : CompileM Unit := do
  let type ← declaredType d
  let address ← allocFor type
  storeInitial d ⟨type, address⟩
  define d.name.name (.variable ⟨type, address, d.isConst, d.span⟩) d.span

/-! ## Returning -/

/-- Where a function leaves its result. -/
def returnAddress : Address := .frame 0

/-- Convert a returned value to the result type. Even a safe conversion is warned about. -/
def returnValue (e : Expr) (result : Ty) : CompileM Unit := do
  let v ← value e
  let r := (← get).registry
  match r.conversion? v.type result with
  | none => fail (.invalidConversion (r.typeName v.type) (r.typeName result)) e.span
  | some c =>
    if c.isStrong && !c.isExact then
      warn (.returnWidening (r.typeName v.type) (r.typeName result)) e.span
    else if !c.isStrong then
      warn (.conversion (r.typeName v.type) (r.typeName result)) e.span
    convertInto v ⟨result, returnAddress⟩ c

/-- `return` or `return value` -/
def ret (e : Option Expr) (span : Span) : CompileM Unit := do
  match (← get).scopes.function? with
  | none => fail (.outside .ret) span
  | some f =>
    match e with
    | some e =>
      if f.result.isVoid then fail (.typing (.valueFromVoid f.name)) span
      withTemps (returnValue e f.result)
    | none =>
      if !f.result.isVoid then
        fail (.typing (.returnWithoutValue f.name (← typeName f.result))) span
    emit .ret

/-! ## Control flow -/

/-- Compile the tests of all cases; `targets` are the labels of their bodies. -/
def caseTests (subject : Slot) : List Case → List Label → CompileM Unit
  | c :: cs, target :: targets => do
    tests subject target c.values
    caseTests subject cs targets
  | _, _ => return ()

/-- Make a label for each case. -/
def caseLabels : List Case → CompileM (List Label)
  | [] => return []
  | _ :: cs => do
    let l ← freshLabel .caseBody
    return l :: (← caseLabels cs)

mutual

/-- Compile a statement. -/
def stmt : Stmt → CompileM Unit
  | .expr e _ => effect e
  | .declare d => declare d
  | .block body _ => inScope .block (stmts body)
  | .branch c yes no _ => do
    let otherwise ← freshLabel .otherwise
    jumpUnless c otherwise
    inScope .block (stmts yes)
    match no with
    | some s =>
      let done ← freshLabel .endIf
      emitGoto done
      emitLabel otherwise
      stmt s
      emitLabel done
    | none => emitLabel otherwise
  | .whileLoop c body _ => do
    let top ← freshLabel .loop
    let done ← freshLabel .endLoop
    emitLabel top
    jumpUnless c done
    inScope (.loop done top) (stmts body)
    emitGoto top
    emitLabel done
  | .forLoop init c step body _ => inScope .block do
    match init with
    | some s => stmt s
    | none => pure ()
    let top ← freshLabel .loop
    let done ← freshLabel .endLoop
    let next ← freshLabel .general
    emitLabel top
    if let some c := c then jumpUnless c done
    inScope (.loop done next) (stmts body)
    emitLabel next
    if let some step := step then effect step
    emitGoto top
    emitLabel done
  | .switch subject cs default _ => inScope .block do
    let subject ← value subject
    let done ← freshLabel .endCase
    let bodies ← caseLabels cs
    match default with
    | some body =>
      let otherwise ← freshLabel .default
      caseTests subject cs bodies
      emitGoto otherwise
      caseBodies done cs bodies
      emitLabel otherwise
      inScope (.caseBody none) (stmts body)
    | none =>
      caseTests subject cs bodies
      emitGoto done
      caseBodies done cs bodies
    emitLabel done
  | .ret e span => ret e span
  | .leave span => leave span
  | .again span => again span
  | .fallthrough span => fallInto span
  | .delete target span => delete target span

/-- Compile statements in order, in the current scope. -/
def stmts : List Stmt → CompileM Unit
  | [] => return ()
  | s :: rest => do
    stmt s
    stmts rest

/-- Compile the bodies of all cases; each can fall into the next one. -/
def caseBodies (done : Label) : List Case → List Label → CompileM Unit
  | .mk _ body _ :: cs, label :: labels => do
    emitLabel label
    inScope (.caseBody labels.head?) (stmts body)
    emitGoto done
    caseBodies done cs labels
  | _, _ => return ()

end

end Lowering

end ClassLang
