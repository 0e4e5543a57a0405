import ClassLang.Lowering.State
import ClassLang.Ty.Conversion

/-!
# What names and written types mean

Names are resolved in the current scope. A generic class that is named without arguments
leaves its parameters open; with arguments it must have the right number of them, and each
must satisfy the bound of its parameter. While class hierarchies are still being read,
bounds cannot be checked yet and are put off.
-/

namespace ClassLang

open CompileM

namespace Lowering

/-! ## Names -/

/-- What a name stands for, if it is visible. -/
def meaning? (name : String) : CompileM (Option Meaning) := do
  return ((← get).scopes.find? name).map (·.meaning)

/-- What a name stands for. A native that exists but was not required is told apart. -/
def meaning (name : String) (span : Span) : CompileM Meaning := do
  match ← meaning? name with
  | some d => return d
  | none =>
    if (Native.ofName? name).isSome then fail (.nativeNotRequired name) span
    else fail (.unknownName name) span

/-- Fail unless the current module required a native. -/
def requireNative (n : Native) (span : Span) : CompileM Unit := do
  if (← meaning? n.name) ≠ some (.native n) then fail (.nativeNotRequired n.name) span

/-- The variable that holds the receiver, inside a method. -/
def receiverBinding (span : Span) : CompileM Binding := do
  if (← get).scopes.receiverClass?.isNone then fail (.outside .receiver) span
  match ← meaning? "this" with
  | some (.variable b) => return b
  | _ => fail (.outside .receiver) span

/-! ## Types -/

/-- Check that a template argument satisfies its bound. -/
def checkBound (check : BoundCheck) : CompileM Unit := do
  let r := (← get).registry
  if !(check.arg.isClassLike && (r.upcastDistance? check.arg check.bound).isSome) then
    fail (.typing (.boundViolated (r.typeName check.arg) (r.typeName check.bound) check.param
      check.owner)) check.span

/-- Check a bound, now or later. -/
def checkOrDefer (check : BoundCheck) : CompileM Unit := do
  if (← get).deferring then modify fun s => { s with deferred := s.deferred ++ [check] }
  else checkBound check

mutual

/-- The meaning of a written type. -/
def resolveType : TypeExpr → CompileM Ty
  | .named name args span => do
    match Prim.ofName? name with
    | some p =>
      if args.isEmpty then return .prim p
      else fail (.typing (.primitiveWithArguments name)) span
    | none =>
      match ← meaning? name with
      | some (.classOf hash) =>
        if args.isEmpty then return .classRef hash
        let c ← askRegistry (·.getClass hash)
        if c.templates.length ≠ args.length then
          fail (.typing (.templateArity c.name c.templates.length args.length)) span
        return .applied hash (← resolveArgs c.name c.templates args)
      | some (.typeParam t) =>
        if args.isEmpty then return t
        else fail (.typing (.notAType (TypeExpr.named name args span).render)) span
      | some _ => fail (.typing (.notAType (TypeExpr.named name args span).render)) span
      | none => fail (.unknownType name) span
  | .pointer inner _ => do return .pointer (← resolveType inner)
  | .array inner _ => do return .array (← resolveType inner)
  | .function params result _ => do
    let params ← resolveTypes params
    return .callable .func params (← resolveType result)

/-- The meaning of several types. -/
def resolveTypes : List TypeExpr → CompileM (List Ty)
  | [] => return []
  | t :: ts => do
    let t ← resolveType t
    return t :: (← resolveTypes ts)

/-- The meaning of template arguments, each checked against the parameter at its position. -/
def resolveArgs (owner : String) : List TemplateParam → List TypeExpr → CompileM (List Ty)
  | p :: ps, t :: ts => do
    let arg ← resolveType t
    checkOrDefer ⟨arg, .classRef p.bound, p.name, owner, (← get).path, t.span⟩
    return arg :: (← resolveArgs owner ps ts)
  | _, _ => return []

end

/-- The meaning of a written type that must be a class. -/
def resolveClass (t : TypeExpr) : CompileM Ty := do
  let type ← resolveType t
  if type.isClass then return type
  else fail (.typing (.notAClass (← typeName type))) t.span

/-- The class tag of a class-like type. -/
def classId (t : Ty) : CompileM Nat := do
  match t.classHash? with
  | some hash => return (← askRegistry (·.getClass hash)).id
  | none => throw (.internal (.notAClassType "class id of"))

/-! ## Template parameters of a class -/

/-- Make the template parameters of a class visible in the current scope. -/
def defineTemplates (hash : TypeHash) : CompileM Unit := do
  let c ← askRegistry (·.getClass hash)
  c.templates.forM fun p => define p.name (.typeParam (.param p.name p.bound)) c.span

/-- Run a step where the template parameters of a class are visible. -/
def inClass {α : Type} (hash : TypeHash) (body : CompileM α) : CompileM α :=
  inScope .block do
    defineTemplates hash
    body

end Lowering

end ClassLang
