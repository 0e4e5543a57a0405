import ClassLang.Class.Registry

/-!
# Conversions between types

A conversion is *strong* when it is the identity or a safe widening, and *weak* when it
narrows or reinterprets; weak conversions are applied with a warning. Overloads are ranked
by the sum of the costs of their conversions.

Callables convert when their kinds and arities agree, their results convert strongly, and
their parameters convert strongly the other way round. The recursion therefore carries a
direction, and always descends into its first type.
-/

namespace ClassLang

/-- What a conversion does. -/
inductive ConversionKind where
  | identity
  /-- `char` or `byte` to `int` -/
  | intWiden
  /-- `char` to `byte` or back -/
  | charByte
  | intToFloat
  /-- pointer to a class, to pointer to an ancestor -/
  | upcast
  | callableVariance
  /-- anything pointer-like to `*void` -/
  | toVoidPointer
  /-- `int` to `char` or `byte` -/
  | intNarrow
  | floatToInt
  /-- `*void` to anything pointer-like -/
  | fromVoidPointer
  | pointerToInt
  | intToPointer
  deriving DecidableEq, Repr

/-- A conversion, its cost and its strength. -/
structure Conversion where
  kind : ConversionKind
  cost : Nat
  isStrong : Bool
  deriving DecidableEq, Repr

namespace Conversion

def identity : Conversion := ⟨.identity, 0, true⟩
def intWiden : Conversion := ⟨.intWiden, 1, true⟩
def charByte : Conversion := ⟨.charByte, 1, true⟩
def intToFloat : Conversion := ⟨.intToFloat, 2, true⟩
def upcast (distance : Nat) : Conversion := ⟨.upcast, 3 + distance, true⟩
def callableVariance : Conversion := ⟨.callableVariance, 40, true⟩
def toVoidPointer : Conversion := ⟨.toVoidPointer, 50, true⟩
def intNarrow : Conversion := ⟨.intNarrow, 100, false⟩
def floatToInt : Conversion := ⟨.floatToInt, 100, false⟩
def fromVoidPointer : Conversion := ⟨.fromVoidPointer, 110, false⟩
def pointerToInt : Conversion := ⟨.pointerToInt, 120, false⟩
def intToPointer : Conversion := ⟨.intToPointer, 120, false⟩

/-- Whether nothing has to be converted. -/
def isExact (c : Conversion) : Bool := c.kind == .identity

/-- The conversion between two different scalar types. -/
def betweenPrims? : Prim → Prim → Option Conversion
  | .char, .int | .byte, .int => some intWiden
  | .char, .byte | .byte, .char => some charByte
  | .int, .float | .char, .float | .byte, .float => some intToFloat
  | .int, .char | .int, .byte => some intNarrow
  | .float, .int | .float, .char | .float, .byte => some floatToInt
  | _, _ => none

end Conversion

/-- The template arguments with which an object of type `source`, whose class is `c`, is seen
as a `target`. -/
def Class.argsSeenAs? (c : Class) (source : Ty) (target : TypeHash) : Option (List Ty) :=
  if source.classHash? = some target then some source.args
  else (c.inherited.find? target).map (Ty.substituteAll c.templateNames source.args)

namespace Registry

/-- The distance from a class-like type up to another, if the second is an ancestor of the
first with the same template arguments. A template parameter only reaches itself. -/
def upcastDistance? (r : Registry) (source target : Ty) : Option Nat :=
  match target with
  | .param .. => if source = target then some 0 else none
  | _ => do
    let c ← r.class? (← source.classHash?)
    let targetHash ← target.classHash?
    let distance ← c.mro.findIdx? (· = targetHash)
    if target.args = [] then return distance
    let seen ← c.argsSeenAs? source targetHash
    if seen = target.args then return distance else none

/-- The conversion between different types of which not both are callables. -/
def plainConversion? (r : Registry) : Ty → Ty → Option Conversion
  | .prim p, .prim q => Conversion.betweenPrims? p q
  | .pointer a, .pointer b =>
    if b.isVoid then some .toVoidPointer
    else if a.isVoid then some .fromVoidPointer
    else (r.upcastDistance? a b).map .upcast
  | .array _, .pointer b | .callable .., .pointer b =>
    if b.isVoid then some .toVoidPointer else none
  | .pointer a, .array _ | .pointer a, .callable .. =>
    if a.isVoid then some .fromVoidPointer else none
  | .pointer _, .prim .int | .array _, .prim .int | .callable .., .prim .int =>
    some .pointerToInt
  | .prim .int, .pointer _ | .prim .int, .array _ | .prim .int, .callable .. =>
    some .intToPointer
  | _, _ => none

/-- Which of two types is converted into the other. -/
inductive Direction where
  /-- the first into the second -/
  | forward
  /-- the second into the first -/
  | backward
  deriving DecidableEq

/-- The other way round. -/
def Direction.reverse : Direction → Direction
  | forward => backward
  | backward => forward

/-- Whether a conversion exists and is strong. -/
def isStrong : Option Conversion → Bool
  | some c => c.isStrong
  | none => false

mutual

/-- The conversion between `a` and `b` in a given direction. -/
def conversionAlong? (r : Registry) (d : Direction) (a b : Ty) : Option Conversion :=
  if a = b then some .identity
  else
    match a, b with
    | .callable k ps res, .callable k' ps' res' =>
      if k = k' && ps.length = ps'.length
          && r.paramsAlong d.reverse (k == .method) ps ps'
          && isStrong (r.conversionAlong? d res res')
      then some .callableVariance
      else none
    | a, b =>
      match d with
      | .forward => r.plainConversion? a b
      | .backward => r.plainConversion? b a

/-- Whether all parameters convert strongly in a given direction, pairwise; a receiver in
front is not compared. -/
def paramsAlong (r : Registry) (d : Direction) (skipFirst : Bool) : List Ty → List Ty → Bool
  | a :: as, b :: bs =>
    (skipFirst || isStrong (r.conversionAlong? d a b)) && r.paramsAlong d false as bs
  | _, _ => true

end

/-- The conversion from `source` to `target`, if there is one. -/
def conversion? (r : Registry) (source target : Ty) : Option Conversion :=
  r.conversionAlong? .forward source target

/-- Whether `source` converts to `target` without a warning. -/
def convertsStrongly (r : Registry) (source target : Ty) : Bool :=
  isStrong (r.conversion? source target)

/-- Whether `source` converts to `target` at all. -/
def converts (r : Registry) (source target : Ty) : Bool := (r.conversion? source target).isSome

end Registry

end ClassLang
