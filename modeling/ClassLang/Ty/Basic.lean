import ClassLang.Hash.TypeHash

/-!
# Semantic types

What a written type means once its names are resolved. Classes are referred to by hash, so
a type can mention a class that is not registered yet. Equality is structural and decidable.
-/

namespace ClassLang

/-- Built-in scalar types. -/
inductive Prim where
  | void
  | int
  | float
  | char
  | byte
  deriving DecidableEq, Repr

namespace Prim

/-- Every scalar type. -/
def all : List Prim := [void, int, float, char, byte]

/-- The name of a scalar type. -/
def name : Prim → String
  | void => "void"
  | int => "int"
  | float => "float"
  | char => "char"
  | byte => "byte"

/-- The scalar type of a given name. -/
def ofName? (s : String) : Option Prim := all.find? fun p => p.name == s

/-- Bytes that a value occupies. -/
def size : Prim → Nat
  | void => 0
  | int | float => 8
  | char | byte => 1

/-- `int`, `char` and `byte`. -/
def isIntegral : Prim → Bool
  | int | char | byte => true
  | _ => false

/-- The integral types and `float`. -/
def isNumeric : Prim → Bool
  | void => false
  | _ => true

end Prim

/-- How a callable is reached. -/
inductive CallKind where
  /-- A compiled free function. -/
  | func
  /-- An entry point that the machine provides. -/
  | native
  /-- A method; its first parameter is the receiver. -/
  | method
  deriving DecidableEq, Repr

/-- The word that a callable's spelling starts with. -/
def CallKind.keyword : CallKind → String
  | func => "fn"
  | native => "native"
  | method => "method"

/-- A semantic type. -/
inductive Ty where
  | prim (p : Prim)
  /-- `*T` -/
  | pointer (inner : Ty)
  /-- `[T]`: a pointer to a block that starts with its length. -/
  | array (inner : Ty)
  | callable (kind : CallKind) (params : List Ty) (result : Ty)
  /-- A class without template arguments. -/
  | classRef (hash : TypeHash)
  /-- A generic class with its template parameters bound. -/
  | applied (base : TypeHash) (args : List Ty)
  /-- A template parameter, which behaves as its bound. -/
  | param (name : String) (bound : TypeHash)
  /-- A function that the compiler evaluates; only good for being called. -/
  | intrinsic (name : String) (result : Ty)

namespace Ty

/-! ## Equality -/

mutual

/-- Structural equality. -/
def beq : Ty → Ty → Bool
  | prim p, prim q => p = q
  | pointer a, pointer b => beq a b
  | array a, array b => beq a b
  | callable k ps r, callable k' ps' r' => k = k' && beqAll ps ps' && beq r r'
  | classRef h, classRef h' => h = h'
  | applied h as, applied h' as' => h = h' && beqAll as as'
  | param n h, param n' h' => n = n' && h = h'
  | intrinsic n r, intrinsic n' r' => n = n' && beq r r'
  | _, _ => false

/-- Structural equality, member by member. -/
def beqAll : List Ty → List Ty → Bool
  | [], [] => true
  | a :: as, b :: bs => beq a b && beqAll as bs
  | _, _ => false

end

mutual

theorem beq_iff_eq : ∀ a b : Ty, beq a b = true ↔ a = b
  | prim p, b => by cases b <;> simp [beq]
  | pointer a, b => by cases b <;> simp [beq, beq_iff_eq a]
  | array a, b => by cases b <;> simp [beq, beq_iff_eq a]
  | callable k ps r, b => by
    cases b <;> simp [beq, beqAll_iff_eq ps, beq_iff_eq r, and_assoc]
  | classRef h, b => by cases b <;> simp [beq]
  | applied h as, b => by cases b <;> simp [beq, beqAll_iff_eq as]
  | param n h, b => by cases b <;> simp [beq]
  | intrinsic n r, b => by cases b <;> simp [beq, beq_iff_eq r]

theorem beqAll_iff_eq : ∀ as bs : List Ty, beqAll as bs = true ↔ as = bs
  | [], bs => by cases bs <;> simp [beqAll]
  | a :: as, bs => by cases bs <;> simp [beqAll, beq_iff_eq a, beqAll_iff_eq as]

end

instance : DecidableEq Ty := fun a b => decidable_of_iff _ (beq_iff_eq a b)

instance : Inhabited Ty := ⟨prim .void⟩

/-! ## Common types -/

def void : Ty := prim .void
def int : Ty := prim .int
def float : Ty := prim .float
def char : Ty := prim .char
def byte : Ty := prim .byte

/-- `*void` -/
def voidPointer : Ty := pointer void

/-- The type of a string: an array of characters. -/
def string : Ty := array char

/-- The type of the program arguments. -/
def programArguments : Ty := array string

/-- Bytes of the length word in front of an array's elements. -/
def arrayHeader : Nat := 8

/-! ## Classification -/

/-- The scalar type behind a type, if it is one. -/
def prim? : Ty → Option Prim
  | prim p => some p
  | _ => none

def isVoid (t : Ty) : Bool := t == void

def isFloat (t : Ty) : Bool := t == float

def isIntegral (t : Ty) : Bool := t.prim?.any Prim.isIntegral

def isNumeric (t : Ty) : Bool := t.prim?.any Prim.isNumeric

def isPointer : Ty → Bool
  | pointer _ => true
  | _ => false

/-- Pointers, arrays and callables, which are all one machine word. -/
def isPointerLike : Ty → Bool
  | pointer _ | array _ | callable .. => true
  | _ => false

def isCallable : Ty → Bool
  | callable .. => true
  | _ => false

/-- What a pointer points to. -/
def pointee? : Ty → Option Ty
  | pointer inner => some inner
  | _ => none

/-- What an array holds. -/
def element? : Ty → Option Ty
  | array inner => some inner
  | _ => none

/-- The class of a class-like type; a template parameter answers with its bound. -/
def classHash? : Ty → Option TypeHash
  | classRef h => some h
  | applied h _ => some h
  | param _ h => some h
  | _ => none

/-- The template arguments a type carries; none for anything but a bound generic class. -/
def args : Ty → List Ty
  | applied _ as => as
  | _ => []

/-- Classes, bound generic classes and template parameters. -/
def isClassLike (t : Ty) : Bool := t.classHash?.isSome

/-- Classes and bound generic classes, but no template parameters. -/
def isClass : Ty → Bool
  | classRef _ | applied .. => true
  | _ => false

/-- The class behind a pointer to a class-like type. -/
def pointeeClass? (t : Ty) : Option Ty := t.pointee?.filter isClassLike

mutual

/-- Whether a template parameter occurs in the type. -/
def mentionsParam : Ty → Bool
  | param .. => true
  | pointer inner | array inner => inner.mentionsParam
  | callable _ ps r => r.mentionsParam || anyMentionsParam ps
  | applied _ as => anyMentionsParam as
  | _ => false

/-- Whether a template parameter occurs in one of the types. -/
def anyMentionsParam : List Ty → Bool
  | [] => false
  | t :: ts => t.mentionsParam || anyMentionsParam ts

end

end Ty

end ClassLang
