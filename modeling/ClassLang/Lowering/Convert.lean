import ClassLang.Lowering.Names

/-!
# Values and their conversion

A compiled expression is a `Slot`: its type and the place of its value. The place may be a
variable or a literal, so a value is copied before it is changed. A slot is also what an
expression may be offered as a destination. Conversions write into a given place; those
that may lose information are warned about.
-/

namespace ClassLang

/-- A typed place. -/
structure Slot where
  type : Ty
  address : Address
  deriving DecidableEq

open CompileM

namespace Lowering

/-- Copy bytes, unless there is nothing to copy. -/
def move (dst src : Address) (length : Nat) : CompileM Unit := do
  if dst ≠ src ∧ length > 0 then emit (.mov dst src length)

/-- Copy bits into a place of possibly different width; a wider place is cleared first. -/
def copyBits (dst src : Address) (sourceLength targetLength : Nat) : CompileM Unit := do
  if targetLength > sourceLength then emit (.imm dst 0 targetLength)
  move dst src (min sourceLength targetLength)

/-- The conversion between two types, with a warning if it is weak. -/
def checkConversion (source target : Ty) (span : Span) : CompileM Conversion := do
  let r := (← get).registry
  match r.conversion? source target with
  | none => fail (.invalidConversion (r.typeName source) (r.typeName target)) span
  | some c =>
    if !c.isStrong then warn (.conversion (r.typeName source) (r.typeName target)) span
    return c

/-- Write a value, converted, into a destination. -/
def convertInto (value dest : Slot) (c : Conversion) : CompileM Unit := do
  let sourceLength ← lengthOf value.type
  let targetLength ← lengthOf dest.type
  let dst := dest.address
  match c.kind with
  | .identity | .charByte => move dst value.address targetLength
  | .intWiden => emit (.convert .charToInt dst value.address)
  | .intToFloat =>
    if value.type = .int then emit (.convert .intToFloat dst value.address)
    else
      emit (.convert .charToInt dst value.address)
      emit (.convert .intToFloat dst dst)
  | .intNarrow => emit (.convert .intToChar dst value.address)
  | .floatToInt =>
    if targetLength = Prim.int.size then emit (.convert .floatToInt dst value.address)
    else
      let wide ← alloc Prim.int.size
      emit (.convert .floatToInt wide value.address)
      emit (.convert .intToChar dst wide)
  | .upcast | .callableVariance | .toVoidPointer | .fromVoidPointer | .pointerToInt
  | .intToPointer => copyBits dst value.address sourceLength targetLength

/-- A value as a `target`, converted into fresh storage if it is not one already. -/
def coerce (value : Slot) (target : Ty) (span : Span) : CompileM Slot := do
  let c ← checkConversion value.type target span
  if c.isExact then return value
  let dest : Slot := ⟨target, ← allocFor target⟩
  convertInto value dest c
  return dest

/-- Leave a value, converted, in a destination. -/
def settle (value dest : Slot) (span : Span) : CompileM Unit := do
  if value = dest then return
  convertInto value dest (← checkConversion value.type dest.type span)

/-- The bits of a pointer-like value as an `int`, without a warning. -/
def asWord (value : Slot) : CompileM Slot := do
  let length ← lengthOf value.type
  if length = Prim.int.size then return ⟨.int, value.address⟩
  let dst ← alloc Prim.int.size
  emit (.imm dst 0 Prim.int.size)
  move dst value.address length
  return ⟨.int, dst⟩

/-- The place of a value used as a condition, as an `int`. -/
def condition (value : Slot) (span : Span) : CompileM Address := do
  if value.type.isVoid then fail (.typing .conditionWithoutValue) span
  return (← coerce value .int span).address

/-- Refuse an expression that has no value. -/
def requireValue (e : Expr) (value : Slot) : CompileM Slot := do
  if value.type.isVoid then fail (.typing (.withoutValue e.form)) e.span
  return value

/-- Where to write a result: into the destination offered, if its type is right and results
may be written there, or else into fresh storage. -/
def resultAddress (t : Ty) (dest : Option Slot) : CompileM Address := do
  match dest with
  | some d => if (← get).options.optimize && d.type = t then return d.address else allocFor t
  | none => allocFor t

/-- Store the pointer in a register into fresh storage. -/
def spill (reg : Register) : CompileM Address := do
  let slot ← alloc (← pointerSize)
  emit (.setPtr slot reg)
  return slot

end Lowering

end ClassLang
