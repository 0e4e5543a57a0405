import ClassLang.Class.Basic
import ClassLang.Diagnostic

/-!
# The registry of classes and functions

Classes are found by hash and remembered in the order in which they were added; the
position of a class in that order is its class tag. Functions are numbered in the order of
discovery. Dispatch slots come from one counter, so a slot number means the same method on
every class that can see it.
-/

namespace ClassLang

/-- Where a function is declared. -/
inductive Owner where
  | module (path : String)
  | classOf (hash : TypeHash)
  deriving DecidableEq

/-- The signature of a function or method. Parameter types leave the receiver out. -/
structure Signature where
  id : Nat
  name : String
  /-- The linkable name, known once all overloads are. -/
  mangled : String
  owner : Owner
  params : List Ty
  paramNames : List String
  result : Ty
  isAbstract : Bool
  isConst : Bool
  /-- The dispatch slot of a method. -/
  slot : Option Nat
  span : Span

namespace Signature

def isMethod (s : Signature) : Bool :=
  match s.owner with
  | .classOf _ => true
  | .module _ => false

/-- The type of the function as a value; a method takes its receiver first. -/
def callableType (s : Signature) : Ty :=
  match s.owner with
  | .module _ => .callable .func s.params s.result
  | .classOf owner => .callable .method (.pointer (.classRef owner) :: s.params) s.result

end Signature

/-- All classes and functions of a compilation. -/
structure Registry where
  classes : Table TypeHash Class
  order : List TypeHash
  functions : Array Signature
  nextSlot : Nat
  pointerSize : Nat

namespace Registry

/-! ## Classes -/

/-- Add a class, which gets the next class tag. Adding a class again replaces it. -/
def addClass (r : Registry) (c : Class) : Registry :=
  { r with
    classes := r.classes.insert c.hash { c with id := r.order.length }
    order := r.order ++ [c.hash] }

/-- The registry that holds only the root class. -/
def initial (pointerSize : Nat) : Registry :=
  addClass ⟨.empty, [], #[], 0, pointerSize⟩ (Class.root pointerSize)

def class? (r : Registry) (hash : TypeHash) : Option Class := r.classes.find? hash

/-- A class that must be registered. -/
def getClass (r : Registry) (hash : TypeHash) : Except CompileError Class :=
  match r.class? hash with
  | some c => .ok c
  | none => .error (.internal (.unregisteredClass hash))

/-- Change a registered class. -/
def modifyClass (r : Registry) (hash : TypeHash) (f : Class → Class) : Registry :=
  { r with classes := r.classes.modify hash f }

/-- What is found after one class is changed. -/
theorem class?_modifyClass (r : Registry) (hash h : TypeHash) (f : Class → Class) :
    (r.modifyClass hash f).class? h =
      if h = hash then (r.class? hash).map f else r.class? h :=
  Table.find?_modify r.classes hash h f

/-- What is found after a class is added. -/
theorem class?_addClass (r : Registry) (c : Class) (h : TypeHash) :
    (r.addClass c).class? h =
      if h = c.hash then some { c with id := r.order.length } else r.class? h := by
  unfold addClass class?
  split
  · rename_i hh
    subst hh
    exact Table.find?_insert_self ..
  · rename_i hh
    exact Table.find?_insert_of_ne _ (Ne.symm hh) _

/-- Every length is below `2 ^ 32`. -/
def Representable (r : Registry) : Prop := ∀ c ∈ r.classes.values, c.length < UInt32.size

instance (r : Registry) : Decidable r.Representable := List.decidableBAll _ _

/-- The classes in the order in which they were added. -/
def classList (r : Registry) : List Class := r.order.filterMap r.class?

def classCount (r : Registry) : Nat := r.order.length

/-- Take the next dispatch slot. -/
def freshSlot (r : Registry) : Nat × Registry := (r.nextSlot, { r with nextSlot := r.nextSlot + 1 })

/-- Whether `base` is an ancestor of `derived`, or `derived` itself. -/
def isSubclass (r : Registry) (derived base : TypeHash) : Bool :=
  (r.class? derived).any fun c => c.mro.contains base

/-- The offset and type of a field of a class-like type, in terms of that type. -/
def field? (r : Registry) (t : Ty) (name : String) : Option (Nat × Ty) := do
  let c ← r.class? (← t.classHash?)
  let f ← c.field? name
  return (f.offset, f.type.substitute c.templateNames t.args)

/-- The slots of a given name on a class-like type, in terms of that type. -/
def methodsNamed (r : Registry) (t : Ty) (name : String) : List Rank :=
  match t.classHash?.bind r.class? with
  | none => []
  | some c => (c.ranks.filter fun k => k.name == name).map fun k =>
    { k with
      params := Ty.substituteAll c.templateNames t.args k.params
      result := k.result.substitute c.templateNames t.args }

/-! ## Functions -/

/-- Add a signature, which gets the next number. -/
def addFunction (r : Registry) (s : Signature) : Nat × Registry :=
  let id := r.functions.size
  (id, { r with functions := r.functions.push { s with id := id } })

def function? (r : Registry) (id : Nat) : Option Signature := r.functions[id]?

/-- A function that must be registered. -/
def getFunction (r : Registry) (id : Nat) : Except CompileError Signature :=
  match r.function? id with
  | some s => .ok s
  | none => .error (.internal (.unregisteredFunction id))

/-- Change a registered signature. -/
def modifyFunction (r : Registry) (id : Nat) (f : Signature → Signature) : Registry :=
  { r with functions := r.functions.modify id f }

/-! ## Types -/

/-- Bytes that a value occupies. Unregistered classes occupy none. -/
def length (r : Registry) : Ty → Nat
  | .prim p => p.size
  | .pointer _ | .array _ | .callable .. => r.pointerSize
  | .classRef h | .applied h _ | .param _ h => ((r.class? h).map (·.length)).getD 0
  | .intrinsic .. => 0

/-- Bytes that values of these types occupy, one behind the other. -/
def lengths (r : Registry) : List Ty → Nat
  | [] => 0
  | t :: ts => r.length t + r.lengths ts

/-- The name of a class, or its hash if it is not registered. -/
def className (r : Registry) (hash : TypeHash) : String :=
  ((r.class? hash).map (·.name)).getD hash.describe

/-- The linkable name of a class, or its hash if it is not registered. -/
def classLinkName (r : Registry) (hash : TypeHash) : String :=
  ((r.class? hash).map (·.mangled)).getD hash.describe

mutual

/-- A type as it is spelled in diagnostics and in linkable names. -/
def typeName (r : Registry) : Ty → String
  | .prim p => p.name
  | .pointer inner => "*" ++ r.typeName inner
  | .array inner => "[" ++ r.typeName inner ++ "]"
  | .callable k ps res =>
    k.keyword ++ "(" ++ ", ".intercalate (r.typeNames ps) ++ ") " ++ r.typeName res
  | .classRef h => r.className h
  | .applied h as => r.className h ++ "<" ++ ", ".intercalate (r.typeNames as) ++ ">"
  | .param n _ => n
  | .intrinsic n _ => n

/-- Each of several types as it is spelled. -/
def typeNames (r : Registry) : List Ty → List String
  | [] => []
  | t :: ts => r.typeName t :: r.typeNames ts

end

end Registry

end ClassLang
