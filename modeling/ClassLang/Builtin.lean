import ClassLang.Ty.Basic

/-!
# Functions that need no declaration

Natives are provided by the machine, under fixed numbers; a module must require a native
before it can call it. Intrinsics are evaluated by the compiler and are always visible.
-/

namespace ClassLang

/-- The functions that the machine provides. -/
inductive Native where
  | printInt
  | printFloat
  | printChar
  | printByte
  | printStr
  | printlnInt
  | printlnFloat
  | printlnChar
  | printlnByte
  | printlnStr
  /-- Seconds since some fixed time. -/
  | clock
  | malloc
  | free
  /-- A zeroed block of elements, with its length in front. -/
  | heapArray
  deriving DecidableEq, Repr

namespace Native

/-- All natives; the position of a native is its number. -/
def all : List Native :=
  [printInt, printFloat, printChar, printByte, printStr, printlnInt, printlnFloat, printlnChar,
   printlnByte, printlnStr, clock, malloc, free, heapArray]

/-- The name under which a native is required and called. -/
def name : Native → String
  | printInt => "print_int"
  | printFloat => "print_float"
  | printChar => "print_char"
  | printByte => "print_byte"
  | printStr => "print_str"
  | printlnInt => "println_int"
  | printlnFloat => "println_float"
  | printlnChar => "println_char"
  | printlnByte => "println_byte"
  | printlnStr => "println_str"
  | clock => "clock"
  | malloc => "malloc"
  | free => "free"
  | heapArray => "heap_array"

/-- The native of a given name. -/
def ofName? (s : String) : Option Native := all.find? fun n => n.name == s

/-- The number of a native. -/
def id (n : Native) : Nat := all.idxOf n

/-- The native with a given number. -/
def ofId? (id : Nat) : Option Native := all[id]?

def params : Native → List Ty
  | printInt | printlnInt | malloc => [.int]
  | printFloat | printlnFloat => [.float]
  | printChar | printlnChar => [.char]
  | printByte | printlnByte => [.byte]
  | printStr | printlnStr => [.string]
  | clock => []
  | free => [.voidPointer]
  | heapArray => [.int, .int]

def result : Native → Ty
  | clock => .float
  | malloc | heapArray => .voidPointer
  | _ => .void

/-- The type of a native as a callable. -/
def type (n : Native) : Ty := .callable .native n.params n.result

end Native

/-- The functions that the compiler evaluates. -/
inductive Intrinsic where
  /-- The length of a type or of an expression's type; the operand is not evaluated. -/
  | sizeOf
  /-- The length word of an array. -/
  | len
  deriving DecidableEq, Repr

namespace Intrinsic

def all : List Intrinsic := [sizeOf, len]

def name : Intrinsic → String
  | sizeOf => "sizeof"
  | len => "len"

/-- The intrinsic of a given name. -/
def ofName? (s : String) : Option Intrinsic := all.find? fun i => i.name == s

def type (i : Intrinsic) : Ty := .intrinsic i.name .int

end Intrinsic

end ClassLang
