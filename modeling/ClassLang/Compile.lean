import ClassLang.Registration.Members

/-!
# Compiling programs

After registration every queued body is compiled in the order of discovery, each into a frame
of its own: the return slot, the receiver of a method, the parameters, then locals and
temporaries. The entry section initializes the globals in order, calls the entry point and
stops. The first error ends the compilation and is reported with the module it arose in.
-/

namespace ClassLang

open CompileM

/-- A compiled program. -/
structure CompiledProgram where
  text : String
  warnings : List Warning
  registry : Registry

namespace Bodies

/-! ## Functions -/

/-- Take the storage of parameters and make them visible. -/
def defineParams : List String → List Ty → List Param → CompileM Unit
  | name :: names, t :: ts, p :: ps => do
    let address ← allocFor t
    updateScopes (·.defineVariable name t address false p.span)
    defineParams names ts ps
  | _, _, _ => return ()

/-- Take the storage of the receiver and make it visible, with the template parameters of its
class. -/
def defineReceiver (owner : TypeHash) (span : Span) : CompileM Unit := do
  Lowering.defineTemplates owner
  let address ← alloc (← pointerSize)
  updateScopes (·.defineVariable "this" (.pointer (.classRef owner)) address true span)

/-- The scope of a function body. -/
def bodyScope (s : Signature) (owner : Option TypeHash) : ScopeKind :=
  match owner with
  | some hash => .method s.name s.result (.classRef hash)
  | none => .function s.name s.result

/-- Compile a body after its return slot: receiver, parameters, statements. -/
def bodyCode (s : Signature) (body : PendingBody) (block : List Stmt) : CompileM Unit :=
  inScope (bodyScope s body.owner) do
    if let some owner := body.owner then defineReceiver owner body.decl.span
    defineParams s.paramNames s.params body.decl.params
    emit (.args (← get).frame.top)
    Lowering.stmts block

/-- End a body: a function without a result returns at its end, any other must have returned
before. -/
def finishBody (s : Signature) (block : List Stmt) (span : Span) : CompileM Unit := do
  if s.result.isVoid then
    if (← get).frame.code.back? ≠ some .ret then emit .ret
  else if !Stmt.blockReturns block then fail (.missingReturn s.name) span

/-- Compile a queued body. -/
def compileBody (id : Nat) (body : PendingBody) : CompileM Unit := do
  let s ← askRegistry (·.getFunction id)
  match body.decl.body with
  | none => throw (.internal (.queuedWithoutBody s.name))
  | some block =>
    let code ← inModule body.path do
      modifyFrame (·.beginFunction)
      let _ ← allocFor s.result
      bodyCode s body block
      finishBody s block body.decl.span
      updateFrame (·.takeCode)
    modify fun st => { st with listing := st.listing.addFunction ⟨id, s.mangled, code⟩ }

/-- Compile the queued bodies among given functions; the result is their number. -/
def compileBodies : List Nat → CompileM Nat
  | [] => return 0
  | id :: rest => do
    match (← get).bodies.find? id with
    | none => compileBodies rest
    | some body =>
      compileBody id body
      return 1 + (← compileBodies rest)

/-! ## The entry section -/

/-- Initialize a global variable. -/
def initGlobal (g : PendingGlobal) : CompileM Unit :=
  inModule g.path <| withTemps <|
    match g.init with
    | some e => Lowering.into e ⟨g.type, g.address⟩
    | none => Lowering.clear ⟨g.type, g.address⟩

/-- Whether a function can be started with: a free function that takes nothing or the program
arguments. -/
def canStart (s : Signature) : Bool :=
  !s.isMethod && (s.params.isEmpty || s.params = [.programArguments])

/-- The function that the program starts with. -/
def entryPoint : CompileM Signature := do
  let name := (← get).options.entryPoint
  match (← get).scopes.find? name with
  | none => fail (.unknownName name) .unknown
  | some ⟨.functions ids, span⟩ =>
    let overloads ← ids.mapM fun id => askRegistry (·.getFunction id)
    match overloads.filter canStart with
    | [s] => return s
    | [] => fail (.rule (.entryArguments name)) span
    | _ => fail (.rule (.entryAmbiguous name)) span
  | some ⟨_, span⟩ => fail (.rule (.entryNotFunction name)) span

/-- Compile the entry section. -/
def compileEntry : CompileM Unit := do
  modifyFrame (·.beginFunction)
  (← get).globals.forM initGlobal
  let s ← entryPoint
  let base := (← get).frame.topAddress
  let _ ← allocFor s.result
  if !s.params.isEmpty then
    emit (.argv (← alloc (← pointerSize)))
  let region ← fromRegistry fun r => r.length s.result + r.lengths s.params
  emit (.callFn s.mangled base) region
  emit .stop
  let code ← updateFrame (·.takeCode)
  modify fun st => { st with listing := { st.listing with entry := code } }

/-- Compile all queued bodies and the entry section; the result is the number of bodies. -/
def run : CompileM Nat := do
  let ids := (← get).registry.functions.toList.map (·.id)
  let count ← compileBodies ids
  compileEntry
  return count

end Bodies

/-! ## Programs -/

/-- Register and compile a program. -/
def compileProgram (p : Program) : CompileM Unit := do
  let _ ← Registration.run p
  let _ ← Bodies.run

namespace Compilation

/-- The text of what has been compiled. -/
def render (c : Compilation) : String :=
  c.listing.render c.options c.registry c.literals c.frame.globalLength

/-- The outcome of a compilation. -/
def finish (c : Compilation) : CompiledProgram := ⟨c.render, c.warnings.toList, c.registry⟩

end Compilation

/-- Compile a program. -/
def compile (o : Options) (p : Program) : Except Failure CompiledProgram :=
  match Compilation.start o with
  | .error e => .error ⟨"", e⟩
  | .ok c =>
    match (compileProgram p).run.run c with
    | (.ok (), c) => .ok c.finish
    | (.error e, c) => .error ⟨c.failedPath.getD "", e⟩

end ClassLang
