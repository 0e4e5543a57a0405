import ClassLang.Class.Registry
import ClassLang.Code.Instr
import ClassLang.Code.LiteralPool
import ClassLang.Options

/-!
# The program listing

The text of a compiled program: a header, the literal pool, one line for each class, one
section for each function and the entry section. Every line ends with a line feed.
-/

namespace ClassLang

/-- The code of one function. -/
structure Section where
  id : Nat
  mangled : String
  code : Array Instr

/-- The compiled functions in order of discovery, and the entry section. -/
structure Listing where
  functions : Array Section
  entry : Array Instr

namespace Listing

def empty : Listing := ⟨#[], #[]⟩

def addFunction (l : Listing) (s : Section) : Listing := { l with functions := l.functions.push s }

/-- The first section with a given linkable name. -/
def find? (l : Listing) (mangled : String) : Option Section :=
  l.functions.find? fun s => s.mangled == mangled

/-- What a slot is bound to, as it is listed. -/
def targetName (r : Registry) (function : Option Nat) : String :=
  ((function.bind r.function?).map (·.mangled)).getD "abstract"

/-- The line of a class. -/
def classLine (r : Registry) (c : Class) : String :=
  s!"class {c.mangled} ${c.id} mro"
    ++ String.join (c.mro.map fun h => " " ++ r.classLinkName h)
    ++ " methods"
    ++ String.join (c.vtable.map fun (slot, f) => s!" {slot}:{targetName r f}")

/-- The lines of some code. -/
def codeLines (code : Array Instr) : List String := code.toList.map fun i => "  " ++ i.render

/-- The lines of a function. -/
def sectionLines (s : Section) : List String := s!"fn {s.mangled} ${s.id}" :: codeLines s.code

/-- All lines of the program. -/
def lines (l : Listing) (o : Options) (r : Registry) (p : LiteralPool) (globalLength : Nat) :
    List String :=
  [s!"version {o.version}",
   s!"bits {o.bits}",
   s!"stack_size {o.stackSize}",
   s!"global_length {globalLength}",
   s!"literal {p.hex}",
   s!"classes {r.classCount}"]
    ++ r.classList.map (classLine r)
    ++ l.functions.toList.flatMap sectionLines
    ++ "entry" :: codeLines l.entry

/-- The text of the program. -/
def render (l : Listing) (o : Options) (r : Registry) (p : LiteralPool) (globalLength : Nat) :
    String :=
  String.join ((l.lines o r p globalLength).map (· ++ "\n"))

end Listing

end ClassLang
