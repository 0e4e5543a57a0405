import ClassLang.Span
import ClassLang.Table
import ClassLang.Ty.Substitution

/-!
# Classes

A class is created when its declaration is met and completed step by step: template
parameters and bases, then the linearization of its ancestors, then the fields, then the
methods with their dispatch slots. Everything a class records about an ancestor is in the
class's own terms, that is, with the ancestor's template parameters replaced by what the
class binds them to.
-/

namespace ClassLang

/-- A template parameter and its upper bound. -/
structure TemplateParam where
  name : String
  bound : TypeHash
  deriving DecidableEq

/-- A field at its place in the object. -/
structure Field where
  name : String
  offset : Nat
  type : Ty
  deriving DecidableEq

/-- A method declared in a class body. Parameter types leave the receiver out. -/
structure Method where
  function : Nat
  name : String
  params : List Ty
  result : Ty
  slot : Nat
  /-- Further inherited slots that the method also fills. -/
  overrides : List Nat
  isConst : Bool
  isAbstract : Bool
  deriving DecidableEq

/-- Whether the method fills a slot. -/
def Method.occupies (m : Method) (slot : Nat) : Bool := m.slot == slot || m.overrides.contains slot

/-- A dispatch slot that can be seen on a class, declared there or inherited. -/
structure Rank where
  name : String
  params : List Ty
  result : Ty
  slot : Nat
  deriving DecidableEq

/-- A registered class. -/
structure Class where
  name : String
  /-- The path of the module that declares it. -/
  path : String
  /-- The class tag that objects carry. -/
  id : Nat
  span : Span
  isAbstract : Bool
  templates : List TemplateParam
  /-- Direct superclasses as written. -/
  bases : List Ty
  /-- The class and all its ancestors, most derived first. -/
  mro : List TypeHash
  /-- The template arguments of every generic ancestor. -/
  inherited : Table TypeHash (List Ty)
  /-- Fields by offset, inherited ones first. -/
  fields : List Field
  length : Nat
  /-- The methods of the class body, in order of declaration. -/
  methods : List Method
  /-- Every visible slot, in order of allocation. -/
  ranks : List Rank
  /-- The function each slot is bound to; none for an abstract method. -/
  vtable : List (Nat × Option Nat)

namespace Class

/-- The path of classes that no module declares. -/
def builtinPath : String := "builtin"

/-- The name of the root class. -/
def rootName : String := "Object"

/-- The name of the class tag, with which every object starts. -/
def tagField : String := "__class__"

/-- The name of constructors. -/
def constructorName : String := "__new__"

/-- The name of destructors. -/
def destructorName : String := "__del__"

/-- The linkable name of a class. -/
def linkName (path name : String) : String := path ++ "$" ++ name

/-- A class of which only the name, the place and the kind are known. -/
def declared (name path : String) (span : Span) (isAbstract : Bool) : Class where
  name := name
  path := path
  id := 0
  span := span
  isAbstract := isAbstract
  templates := []
  bases := []
  mro := []
  inherited := .empty
  fields := []
  length := 0
  methods := []
  ranks := []
  vtable := []

/-- The linkable name of the class. -/
def mangled (c : Class) : String := linkName c.path c.name

/-- The key under which the class is registered. -/
def hash (c : Class) : TypeHash := TypeHash.ofName c.mangled

/-- The key of the root class. -/
def rootHash : TypeHash := TypeHash.ofName (linkName builtinPath rootName)

def isGeneric (c : Class) : Bool := !c.templates.isEmpty

/-- The names of the template parameters. -/
def templateNames (c : Class) : List String := c.templates.map (·.name)

/-- The field of a given name. -/
def field? (c : Class) (name : String) : Option Field := c.fields.find? fun f => f.name == name

/-- The method of the class body that fills a slot. -/
def methodInSlot? (c : Class) (slot : Nat) : Option Method :=
  c.methods.find? fun m => m.occupies slot

/-- What a slot is bound to: nothing if the class has no such slot, `some none` if the
method in it is abstract. -/
def implementation? (c : Class) (slot : Nat) : Option (Option Nat) :=
  (c.vtable.find? fun e => e.1 == slot).map (·.2)

/-- A type of `ancestor` in the terms of `c`. -/
def inOwnTerms (c ancestor : Class) (t : Ty) : Ty :=
  match c.inherited.find? ancestor.hash with
  | some args => t.substitute ancestor.templateNames args
  | none => t

/-- The root class, whose only field is the class tag. -/
def root (pointerSize : Nat) : Class :=
  { declared rootName builtinPath .unknown false with
    mro := [rootHash]
    fields := [⟨tagField, 0, Ty.voidPointer⟩]
    length := pointerSize }

end Class

end ClassLang
