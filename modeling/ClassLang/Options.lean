import ClassLang.Diagnostic

/-!
# Compiler options

Some go into the header of the program text, the others steer code generation. Options that
the code generator cannot honour are refused before anything is compiled.
-/

namespace ClassLang

/-- What the user of the compiler decides. -/
structure Options where
  /-- Write results straight into their destination where possible. -/
  optimize : Bool := true
  /-- Version of the text format. -/
  version : Nat := 1
  /-- Pointer width. -/
  bits : Nat := 64
  stackSize : Nat := 65536
  /-- Size of the register pool. -/
  registerCount : Nat := 8
  /-- Name of the function that the program starts with. -/
  entryPoint : String := "main"
  deriving DecidableEq, Repr

namespace Options

instance : Inhabited Options := ⟨{}⟩

/-- Pointer width in bytes. -/
def pointerSize (o : Options) : Nat := o.bits / 8

/-- The first reason to refuse the options, in a fixed order. -/
def fault? (o : Options) : Option InternalFault :=
  if o.bits ≠ 64 ∧ o.bits ≠ 32 then some (.pointerWidth o.bits)
  else if o.registerCount < 3 then some (.registerPool o.registerCount)
  else if o.stackSize = 0 then some .emptyStack
  else if o.entryPoint.isEmpty then some .emptyEntryPoint
  else none

/-- Refuse options that cannot be honoured. -/
def validate (o : Options) : Except CompileError Unit :=
  match o.fault? with
  | some f => .error (.internal f)
  | none => .ok ()

end Options

end ClassLang
