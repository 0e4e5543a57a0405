import ClassLang.Class.Dispatch
import ClassLang.Class.Layout
import ClassLang.LinkName
import ClassLang.Lowering.Stmt
import ClassLang.Registration.Headers

/-!
# Fields, signatures and globals

The later steps of registration: inherited template arguments, the layout of objects,
signatures in source order, method tables, linkable names and globals. A class is laid out
after its bases and after the classes that it holds by value.
-/

namespace ClassLang

open CompileM

namespace Registration

/-! ## Inherited template arguments -/

/-- Keep what is known about an ancestor and add what is not. -/
def addUnknown (known : Table TypeHash (List Ty)) (ancestor : TypeHash) (args : List Ty) :
    Table TypeHash (List Ty) :=
  if known.contains ancestor then known else known.insert ancestor args

/-- Add what a base says about template arguments: its own, and those of its ancestors. -/
def addInherited (base : Class) (t : Ty) (known : Table TypeHash (List Ty)) :
    Table TypeHash (List Ty) :=
  let known := if t.args.isEmpty then known else known.insert base.hash t.args
  base.inherited.entries.foldl
    (fun known (ancestor, args) =>
      addUnknown known ancestor (Ty.substituteAll base.templateNames t.args args))
    known

/-- The template arguments of every generic ancestor, from those of the bases. -/
def inheritedArgs (r : Registry) : List Ty → Table TypeHash (List Ty) →
    Except CompileError (Table TypeHash (List Ty))
  | [], known => .ok known
  | t :: rest, known =>
    match t.classHash? with
    | none => inheritedArgs r rest known
    | some hash => do
      let base ← r.getClass hash
      inheritedArgs r rest (addInherited base t known)

/-- Record the template arguments of the generic ancestors of a class. -/
def inheritArgs (p : PendingClass) : CompileM Unit := do
  let c ← askRegistry (·.getClass p.hash)
  let inherited ← askRegistry (inheritedArgs · c.bases .empty)
  modifyClass p.hash fun c => { c with inherited := inherited }

/-! ## Layout -/

/-- Refuse types that a field or parameter cannot hold. -/
def requireStorable (t : Ty) (name : String) (span : Span) : CompileM Unit := do
  match t with
  | .prim .void => fail (.typing (.voidMember name)) span
  | .param n _ => fail (.typing (.parameterByValue n)) span
  | _ => Lowering.requireConcrete t span

/-- Resolve a field. -/
def resolveField (f : FieldDecl) : CompileM OwnField := do
  let type ← Lowering.resolveType f.type
  requireStorable type f.name f.span
  return ⟨f.name, type, f.span⟩

/-- A class and its own fields. -/
structure LayoutPlan where
  pending : PendingClass
  fields : List OwnField

/-- Resolve the fields of a class. -/
def layoutPlan (p : PendingClass) : CompileM LayoutPlan := do
  let fields ← inModule p.path (Lowering.inClass p.hash (p.decl.fields.mapM resolveField))
  return ⟨p, fields⟩

/-- The classes that must be laid out before a class: its bases, and the classes of the fields
that it holds by value. -/
def layoutDependencies (c : Class) (fields : List OwnField) : List TypeHash :=
  c.bases.filterMap (·.classHash?) ++
    (fields.filter (·.type.isClass)).filterMap (·.type.classHash?)

/-- Lay out a class whose dependencies are laid out. -/
def layOutClass (plan : LayoutPlan) : CompileM Unit := do
  let hash := plan.pending.hash
  let (fields, length) ← inModule plan.pending.path do
    askRegistry fun r => do Layout.layOut r (← r.getClass hash) plan.fields
  modifyClass hash fun c => { c with fields := fields, length := length }

/-- Lay out a class after its dependencies, unless that is done. `visiting` are the classes
that wait for this one; the result is the classes that are laid out. -/
def layOutWithin (plans : Table TypeHash LayoutPlan) :
    Nat → List TypeHash → List TypeHash → TypeHash → CompileM (List TypeHash)
  | 0, _, done, _ => return done
  | bound + 1, visiting, done, hash => do
    if done.contains hash then return done
    match plans.find? hash with
    | none => return done
    | some plan =>
      let decl := plan.pending.decl
      if visiting.contains hash then
        inModule plan.pending.path (fail (.rule (.containsItself decl.name.name)) decl.span)
      let c ← askRegistry (·.getClass hash)
      let done ← (layoutDependencies c plan.fields).foldlM
        (layOutWithin plans bound (hash :: visiting)) done
      layOutClass plan
      return hash :: done

/-- Lay out all classes. A chain of classes waiting for each other has no repetition, so it is
no longer than the number of classes; the class that closes a cycle is one more. -/
def layOutAll (classes : List PendingClass) : CompileM Unit := do
  let plans ← classes.mapM layoutPlan
  let table := plans.foldl (fun t plan => t.insert plan.pending.hash plan) .empty
  let _ ← (classes.map (·.hash)).foldlM (layOutWithin table (classes.length + 1) []) []

/-! ## Signatures -/

/-- Resolve a parameter. -/
def resolveParam (p : Param) : CompileM Ty := do
  let type ← Lowering.resolveType p.type
  requireStorable type p.name p.span
  return type

/-- Resolve parameters and result of a function. -/
def resolveSignature (d : FunctionDecl) : CompileM (List Ty × Ty) := do
  let params ← d.params.mapM resolveParam
  let result ← match d.result with
    | some t => Lowering.resolveType t
    | none => pure .void
  if let .param n _ := result then fail (.typing (.parameterReturned n)) d.span
  return (params, result)

/-- Add the signature of a declaration to the registry. -/
def addSignature (d : FunctionDecl) (owner : Owner) (params : List Ty) (result : Ty)
    (isAbstract : Bool) : CompileM Nat :=
  updateRegistry (·.addFunction {
    id := 0
    name := d.name.name
    mangled := ""
    owner := owner
    params := params
    paramNames := d.params.map (·.name)
    result := result
    isAbstract := isAbstract
    isConst := d.isConst
    slot := none
    span := d.span })

/-- Queue a body for compilation. -/
def queueBody (id : Nat) (body : PendingBody) : CompileM Unit :=
  modify fun s => { s with bodies := s.bodies.insert id body }

/-- Refuse a function that has the parameters of one of the given functions. -/
def checkOverload (name : String) (params : List Ty) (span : Span) :
    List Nat → CompileM Unit
  | [] => return ()
  | id :: rest => do
    let existing ← askRegistry (·.getFunction id)
    if existing.params = params then fail (.redefinition name existing.span) span
    checkOverload name params span rest

/-- Register a free function. -/
def registerFunction (path : String) (d : FunctionDecl) : CompileM Unit := do
  let name := d.name.name
  if d.isAbstract then fail (.form (.abstractFunction name)) d.span
  if d.body.isNone then fail (.form (.functionWithoutBody name)) d.span
  let (params, result) ← resolveSignature d
  if let some ⟨.functions ids, _⟩ := (← get).scopes.current.find? name then
    checkOverload name params d.span ids
  let id ← addSignature d (.module path) params result false
  queueBody id ⟨d, none, path⟩
  defineTopLevel name (.functions [id]) d.span

/-- Register a method. -/
def registerMethod (path : String) (owner : TypeHash) (d : FunctionDecl) :
    CompileM OwnMethod := do
  let name := d.name.name
  if d.isAbstract && d.body.isSome then fail (.form (.abstractMethodWithBody name)) d.span
  if !d.isAbstract && d.body.isNone then fail (.form (.methodWithoutBody name)) d.span
  let (params, result) ← Lowering.inClass owner (resolveSignature d)
  let id ← addSignature d (.classOf owner) params result d.isAbstract
  if d.body.isSome then queueBody id ⟨d, some owner, path⟩
  return ⟨id, name, params, result, d.isConst, d.isAbstract, d.span⟩

/-- The class that a declaration in the current module introduced. -/
def declaredClass (d : ClassDecl) : CompileM TypeHash := do
  match (← get).scopes.current.find? d.name.name with
  | some ⟨.classOf hash, _⟩ => return hash
  | _ => throw (.internal (.undeclaredClass d.name.name))

/-- The functions and methods of one item: how many there are, and the methods by class. -/
def registerItem (path : String) : Item → CompileM (List (TypeHash × OwnMethod) × Nat)
  | .function d => do
    registerFunction path d
    return ([], 1)
  | .classDecl d => do
    let hash ← declaredClass d
    let methods ← d.methods.mapM (registerMethod path hash)
    return (methods.map fun m => (hash, m), methods.length)
  | _ => return ([], 0)

/-- Register the functions and methods of items in order. -/
def registerItems (path : String) :
    List Item → CompileM (List (TypeHash × OwnMethod) × Nat)
  | [] => return ([], 0)
  | item :: rest => do
    let (methods, count) ← registerItem path item
    let (more, total) ← registerItems path rest
    return (methods ++ more, count + total)

/-- Register the functions and methods of all modules in order. -/
def registerModules : List Module → CompileM (List (TypeHash × OwnMethod) × Nat)
  | [] => return ([], 0)
  | m :: rest => do
    let (methods, count) ← inModule m.path (registerItems m.path m.items)
    let (more, total) ← registerModules rest
    return (methods ++ more, count + total)

/-! ## Method tables -/

/-- Build the method table of a class from its own methods. -/
def buildMethodTable (p : PendingClass) (own : List OwnMethod) : CompileM Unit := do
  let c ← askRegistry (·.getClass p.hash)
  let table ← inModule p.path do
    conclude (← updateRegistry fun r => Dispatch.methodTable r c own)
  table.methods.forM fun m =>
    modifyRegistry (·.modifyFunction m.function fun s => { s with slot := some m.slot })
  modifyClass p.hash fun c =>
    { c with methods := table.methods, ranks := table.ranks, vtable := table.vtable }

/-- Build the method tables of classes, bases first. -/
def buildMethodTables (methods : List (TypeHash × OwnMethod)) (classes : List PendingClass) :
    CompileM Unit :=
  classes.forM fun p =>
    buildMethodTable p ((methods.filter fun m => m.1 = p.hash).map (·.2))

/-- Give every function its linkable name. -/
def assignLinkNames : CompileM Unit := do
  let r ← askRegistry LinkName.assignAll
  modifyRegistry fun _ => r

/-! ## Globals -/

/-- Register a global variable; its initializer runs in the entry section. -/
def registerGlobal (path : String) (d : VarDecl) : CompileM Unit := do
  if d.isConst && d.init.isNone then
    fail (.form (.constantWithoutInitializer d.name.name)) d.span
  let type ← Lowering.declaredType d
  let length ← lengthOf type
  let address ← updateFrame (·.allocGlobal length)
  defineTopLevel d.name.name (.variable ⟨type, address, d.isConst, d.span⟩) d.span
  modify fun s => { s with globals := s.globals ++ [⟨address, type, d.init, path⟩] }

/-- Register the globals among some items; the result is their number. -/
def registerGlobals (path : String) : List Item → CompileM Nat
  | [] => return 0
  | .global d :: rest => do
    registerGlobal path d
    return 1 + (← registerGlobals path rest)
  | _ :: rest => registerGlobals path rest

/-- Register the globals of all modules. -/
def registerAllGlobals : List Module → CompileM Nat
  | [] => return 0
  | m :: rest => do
    let count ← inModule m.path (registerGlobals m.path m.items)
    return count + (← registerAllGlobals rest)

/-! ## The whole registration -/

/-- How much was registered. -/
structure Counts where
  classes : Nat
  functions : Nat
  globals : Nat
  deriving DecidableEq, Repr

/-- Register everything that a program declares. -/
def run (p : Program) : CompileM Counts := do
  let classes ← declareModules p.modules
  resolveHeaders classes
  linearizeAll classes
  checkDeferred
  let ordered ← fromRegistry (byAncestry · classes)
  ordered.forM inheritArgs
  layOutAll classes
  let (methods, functions) ← registerModules p.modules
  buildMethodTables methods ordered
  assignLinkNames
  let globals ← registerAllGlobals p.modules
  return ⟨classes.length, functions, globals⟩

/-- What is registered for a program, if the program is accepted. -/
def accepted? (o : Options) (p : Program) : Option Registry :=
  match Compilation.start o with
  | .error _ => none
  | .ok c =>
    match (run p).run.run c with
    | (.ok _, c) => some c.registry
    | (.error _, _) => none

end Registration

end ClassLang
