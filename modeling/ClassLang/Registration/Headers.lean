import ClassLang.Class.Linearization
import ClassLang.Lowering.Names

/-!
# Class names, headers and hierarchies

The first steps of registration, each over all modules before the next one starts: the names
of required natives and of classes; template parameters; bases; linearizations. A base or a
bound may name a class that is declared later or elsewhere, so the bounds of template
arguments are only checked when every hierarchy is linearized.
-/

namespace ClassLang

/-- A declared class on its way through registration. -/
structure PendingClass where
  hash : TypeHash
  decl : ClassDecl
  path : String

open CompileM

namespace Registration

/-! ## Names -/

/-- Make a native visible in the current module. Requiring it again changes nothing. -/
def requireNative (name : Ident) : CompileM Unit := do
  match Native.ofName? name.name with
  | none => fail (.unknownName name.name) name.span
  | some n =>
    let existing := (← get).scopes.current.find? name.name
    if existing.map (·.meaning) ≠ some (.native n) then
      define name.name (.native n) name.span

/-- Register the name of a class and make it visible everywhere. -/
def declareClass (path : String) (d : ClassDecl) : CompileM PendingClass := do
  let c := Class.declared d.name.name path d.span d.isAbstract
  if let some existing := (← get).registry.class? c.hash then
    fail (.redefinition d.name.name existing.span) d.span
  modifyRegistry (·.addClass c)
  defineTopLevel d.name.name (.classOf c.hash) d.span
  return ⟨c.hash, d, path⟩

/-- Register the names that some items of a module introduce. -/
def declareItems (path : String) : List Item → CompileM (List PendingClass)
  | [] => return []
  | .require name :: rest => do
    requireNative name
    declareItems path rest
  | .classDecl d :: rest => do
    let p ← declareClass path d
    return p :: (← declareItems path rest)
  | _ :: rest => declareItems path rest

/-- Register the names of all modules; the result is the classes in order of declaration. -/
def declareModules : List Module → CompileM (List PendingClass)
  | [] => return []
  | m :: rest => do
    let classes ← inModule m.path (declareItems m.path m.items)
    return classes ++ (← declareModules rest)

/-! ## Template parameters and bases -/

/-- A template parameter; its bound must be a class without template arguments. -/
def templateParam (t : TemplateDecl) : CompileM TemplateParam := do
  match t.bound with
  | none => return ⟨t.name, Class.rootHash⟩
  | some bound =>
    match ← Lowering.resolveClass bound with
    | .classRef hash => return ⟨t.name, hash⟩
    | other => fail (.typing (.boundNotPlainClass t.name (← typeName other))) bound.span

/-- Resolve the template parameters of a class. -/
def resolveTemplates (p : PendingClass) : CompileM Unit := inModule p.path do
  let templates ← p.decl.templates.mapM templateParam
  modifyClass p.hash fun c => { c with templates := templates }

/-- The first base whose class was listed before it. -/
def repeatedBase? : List Ty → List Ty → Option Ty
  | _, [] => none
  | earlier, t :: rest =>
    if earlier.any fun e => e.classHash? = t.classHash? then some t
    else repeatedBase? (earlier ++ [t]) rest

/-- Resolve the bases of a class. -/
def resolveBases (p : PendingClass) : CompileM Unit := inModule p.path do
  let written ← Lowering.inClass p.hash (p.decl.bases.mapM Lowering.resolveClass)
  let bases := if written.isEmpty then [Ty.classRef Class.rootHash] else written
  if let some t := repeatedBase? [] bases then
    fail (.rule (.repeatedBase p.decl.name.name (← typeName t))) p.decl.span
  modifyClass p.hash fun c => { c with bases := bases }

/-- Resolve the headers of all classes: template parameters first, so that a base may
instantiate a generic class declared after it. Bounds of template arguments are put off. -/
def resolveHeaders (classes : List PendingClass) : CompileM Unit := do
  modify fun s => { s with deferring := true }
  let result ← attempt do
    classes.forM resolveTemplates
    classes.forM resolveBases
  modify fun s => { s with deferring := false }
  conclude result

/-! ## Linearization -/

/-- The direct bases of the given classes. -/
def directBases (r : Registry) (classes : List PendingClass) :
    Except CompileError Linearization.Bases :=
  classes.foldlM
    (fun bases p => do
      let c ← r.getClass p.hash
      return bases.insert p.hash (c.bases.filterMap (·.classHash?)))
    .empty

/-- What is wrong with a hierarchy, in terms of class names. -/
def hierarchyCause (r : Registry) : HierarchyError → Cause
  | .inconsistent owner remaining =>
    .inconsistentHierarchy (r.className owner) (remaining.map r.className)
  | .circular owner => .circularInheritance (r.className owner)

/-- Linearize classes in order, remembering what was found. -/
def linearizeFrom (bases : Linearization.Bases) :
    List PendingClass → Linearization.Memo → CompileM Unit
  | [], _ => return ()
  | p :: rest, memo => do
    match Linearization.linearize bases p.hash memo with
    | (.error e, _) =>
      let cause ← fromRegistry (hierarchyCause · e)
      inModule p.path (fail cause p.decl.span)
    | (.ok mro, memo) =>
      modifyClass p.hash fun c => { c with mro := mro }
      linearizeFrom bases rest memo

/-- Linearize all classes. -/
def linearizeAll (classes : List PendingClass) : CompileM Unit := do
  let bases ← askRegistry (directBases · classes)
  linearizeFrom bases classes .empty

/-- Check the bounds that were put off. -/
def checkDeferred : CompileM Unit := do
  let checks := (← get).deferred
  modify fun s => { s with deferred := [] }
  checks.forM fun check => inModule check.path (Lowering.checkBound check)

/-- The length of the linearization of a class. -/
def ancestry (r : Registry) (p : PendingClass) : Nat :=
  ((r.class? p.hash).map (·.mro.length)).getD 0

/-- Put a class in front of the first one whose linearization is no shorter. -/
def insertByAncestry (r : Registry) (p : PendingClass) : List PendingClass → List PendingClass
  | [] => [p]
  | q :: rest =>
    if ancestry r p ≤ ancestry r q then p :: q :: rest else q :: insertByAncestry r p rest

/-- Ancestors before descendants: an ancestor has the shorter linearization. Classes of equal
length stay in order of declaration. -/
def byAncestry (r : Registry) (classes : List PendingClass) : List PendingClass :=
  classes.foldr (insertByAncestry r) []

end Registration

end ClassLang
