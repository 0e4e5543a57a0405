import ClassLang.Code.Operand

/-!
# Instructions

Instructions are data; `Instr.render` gives the one line of text that each of them is in the
program listing. Operands are written `$n`, `@n` and `&n` for the three segments, `%rN` for
registers, `#n` for numbers and `[%rN+k]` for memory.
-/

namespace ClassLang

/-- Integer operations with two operands. Division and remainder go toward zero. -/
inductive IntOp where
  | add
  | sub
  | mul
  | div
  | mod
  | eq
  | ne
  | lt
  | le
  | gt
  | ge
  | and
  | or
  | xor
  | shl
  | shr
  deriving DecidableEq, Repr

def IntOp.mnemonic : IntOp → String
  | add => "iadd"
  | sub => "isub"
  | mul => "imul"
  | div => "idiv"
  | mod => "imod"
  | eq => "ieq"
  | ne => "ine"
  | lt => "ilt"
  | le => "ile"
  | gt => "igt"
  | ge => "ige"
  | and => "band"
  | or => "bor"
  | xor => "bxor"
  | shl => "shl"
  | shr => "shr"

/-- Float operations with two operands; comparisons yield an `int`. -/
inductive FloatOp where
  | add
  | sub
  | mul
  | div
  | mod
  | eq
  | ne
  | lt
  | le
  | gt
  | ge
  deriving DecidableEq, Repr

namespace FloatOp

def mnemonic : FloatOp → String
  | add => "fadd"
  | sub => "fsub"
  | mul => "fmul"
  | div => "fdiv"
  | mod => "fmod"
  | eq => "feq"
  | ne => "fne"
  | lt => "flt"
  | le => "fle"
  | gt => "fgt"
  | ge => "fge"

def isComparison : FloatOp → Bool
  | add | sub | mul | div | mod => false
  | _ => true

end FloatOp

/-- Operations with one operand. -/
inductive OneOp where
  | intNeg
  | bitNot
  /-- One for zero, zero for anything else. -/
  | logicalNot
  | floatNeg
  deriving DecidableEq, Repr

def OneOp.mnemonic : OneOp → String
  | intNeg => "ineg"
  | bitNot => "bnot"
  | logicalNot => "not"
  | floatNeg => "fneg"

/-- Changes of numeric representation. -/
inductive ConvertOp where
  | intToFloat
  /-- Toward zero. -/
  | floatToInt
  /-- Keeps the low byte. -/
  | intToChar
  /-- Fills with zeros. -/
  | charToInt
  deriving DecidableEq, Repr

def ConvertOp.mnemonic : ConvertOp → String
  | intToFloat => "i2f"
  | floatToInt => "f2i"
  | intToChar => "i2c"
  | charToInt => "c2i"

/-- One instruction. -/
inductive Instr where
  /-- Start of a function: the bytes of its return slot, receiver and parameters. -/
  | args (length : Nat)
  | mov (dst src : Address) (length : Nat)
  /-- Store a number, sign-extended. -/
  | imm (dst : Address) (value : Int) (length : Nat)
  | int (op : IntOp) (dst lhs rhs : Address)
  | float (op : FloatOp) (dst lhs rhs : Address)
  | unary (op : OneOp) (dst src : Address)
  | convert (op : ConvertOp) (dst src : Address)
  /-- The register points to `src`. -/
  | addr (reg : Register) (src : Address)
  /-- The register gets the pointer stored at `src`. -/
  | ptr (reg : Register) (src : Address)
  | offset (reg : Register) (amount : Nat)
  /-- The register moves to an element of the array it points to. -/
  | index (reg : Register) (position : Address) (elementLength header : Nat)
  | load (dst : Address) (src : Memory) (length : Nat)
  | store (dst : Memory) (src : Address) (length : Nat)
  /-- Store the register's pointer. -/
  | setPtr (dst : Address) (reg : Register)
  /-- Store the address of a function. -/
  | fnAddr (dst : Address) (function : String)
  /-- Write a class tag at the start of the object. -/
  | setTag (reg : Register) (classId : Nat)
  | instanceOf (dst : Address) (reg : Register) (classId : Nat)
  /-- Fetch what a dispatch slot of the object is bound to. -/
  | vtable (dst object : Register) (slot : Nat)
  | label (label : Label)
  | goto (target : Label)
  | ifTrue (condition : Address) (target : Label)
  | ifFalse (condition : Address) (target : Label)
  /-- Calls give the callee a frame that starts at `base`. -/
  | callFn (function : String) (base : Address)
  | callNative (native : Nat) (base : Address)
  | callPtr (reg : Register) (base : Address)
  | ret
  /-- Store the program arguments. -/
  | argv (dst : Address)
  | stop
  deriving DecidableEq, Repr

namespace Instr

def isLabel : Instr → Bool
  | label _ => true
  | _ => false

/-- The line of text of an instruction. -/
def render : Instr → String
  | args n => s!"args #{n}"
  | mov d s n => s!"mov {d.render}, {s.render}, #{n}"
  | imm d v n => s!"imm {d.render}, #{v}, #{n}"
  | int op d l r => s!"{op.mnemonic} {d.render}, {l.render}, {r.render}"
  | float op d l r => s!"{op.mnemonic} {d.render}, {l.render}, {r.render}"
  | unary op d s => s!"{op.mnemonic} {d.render}, {s.render}"
  | convert op d s => s!"{op.mnemonic} {d.render}, {s.render}"
  | addr r s => (if s.isGlobal then "gaddr " else "addr ") ++ s!"{r.render}, {s.render}"
  | ptr r s => s!"ptr {r.render}, {s.render}"
  | offset r n => s!"offset {r.render}, #{n}"
  | index r p n h => s!"index {r.render}, {p.render}, #{n}, +{h}"
  | load d m n => s!"load {d.render}, {m.render}, #{n}"
  | store m s n => s!"store {m.render}, {s.render}, #{n}"
  | setPtr d r => s!"setptr {d.render}, {r.render}"
  | fnAddr d f => s!"fnaddr {d.render}, {f}"
  | setTag r n => s!"settag {r.render}, #{n}"
  | instanceOf d r n => s!"instanceof {d.render}, {r.render}, #{n}"
  | vtable d o n => s!"vtable {d.render}, {o.render}, #{n}"
  | label l => s!"label {l.render}"
  | goto l => s!"goto {l.render}"
  | ifTrue c l => s!"if_true {c.render}, {l.render}"
  | ifFalse c l => s!"if_false {c.render}, {l.render}"
  | callFn f b => s!"call_fn {f}, {b.render}"
  | callNative n b => s!"call_native #{n}, {b.render}"
  | callPtr r b => s!"call_ptr {r.render}, {b.render}"
  | ret => "ret"
  | argv d => s!"argv {d.render}"
  | stop => "stop"

end Instr

end ClassLang
