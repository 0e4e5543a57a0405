import ClassLang.Code.Instr
import ClassLang.Diagnostic
import ClassLang.Table

/-!
# Frames

While a function is compiled, its frame hands out storage, registers and labels and collects
the instructions. Frame slots are taken from the top and given back in bulk when a block is
closed, last opened first closed. Global slots only grow. Registers are reused last in, first
out. Labels are numbered across the whole compilation, also by code that is thrown away.

A slot that is handed out is free, because the frame counts with exact numbers. In 32 bits that
holds as long as the top is below `2 ^ 32`. The first sum beyond that ends a compilation that checks
for overflow; one that does not check goes on with what 32 bits keep of the sum, and hands out slots
again that are in use. The same is true of global slots, of the offsets of fields and of the lengths
of classes.
-/

namespace ClassLang

/-- A block that was opened: the top of the frame then, and the number of open blocks. -/
structure Checkpoint where
  top : Nat
  depth : Nat
  deriving DecidableEq, Repr

/-- Storage, registers, labels and code of a compilation. -/
structure Frame where
  /-- The first free byte of the frame. -/
  top : Nat
  /-- The top at the opening of each open block, innermost first. -/
  blocks : List Nat
  globalLength : Nat
  registerCount : Nat
  /-- Free registers, the next one first. -/
  freeRegisters : List Register
  /-- How many labels of each kind were made. -/
  labelCounts : Table LabelKind Nat
  code : Array Instr

namespace Frame

/-- The frame of a compilation that starts. -/
def initial (registerCount : Nat) : Frame where
  top := 0
  blocks := []
  globalLength := 0
  registerCount := registerCount
  freeRegisters := (List.range registerCount).map Register.mk
  labelCounts := .empty
  code := #[]

/-! ## Storage -/

/-- The first free place of the frame. -/
def topAddress (f : Frame) : Address := .frame f.top

def depth (f : Frame) : Nat := f.blocks.length

/-- Open a block. What is allocated from now on is given back when it is restored. -/
def pushBlock (f : Frame) : Checkpoint × Frame :=
  (⟨f.top, f.depth + 1⟩, { f with blocks := f.top :: f.blocks })

/-- Close the innermost block; it must be as deep as the checkpoint says. -/
def restore (f : Frame) (c : Checkpoint) : Except InternalFault Frame :=
  if f.depth = c.depth then .ok { f with blocks := f.blocks.tail, top := c.top }
  else .error (.unbalancedRestore c.depth f.depth)

/-- Take some bytes of the frame. -/
def alloc (f : Frame) (length : Nat) : Address × Frame :=
  (f.topAddress, { f with top := f.top + length })

/-- Take some bytes of global data. -/
def allocGlobal (f : Frame) (length : Nat) : Address × Frame :=
  (.global f.globalLength, { f with globalLength := f.globalLength + length })

/-! ## Registers and labels -/

/-- Take a register. -/
def acquire (f : Frame) : Except InternalFault (Register × Frame) :=
  match f.freeRegisters with
  | [] => .error (.registersExhausted f.registerCount)
  | r :: rest => .ok (r, { f with freeRegisters := rest })

/-- Give a register back. -/
def release (f : Frame) (r : Register) : Frame :=
  { f with freeRegisters := r :: f.freeRegisters }

/-- Make a label. -/
def freshLabel (f : Frame) (kind : LabelKind) : Label × Frame :=
  let id := (f.labelCounts.find? kind).getD 0
  (⟨kind, id⟩, { f with labelCounts := f.labelCounts.insert kind (id + 1) })

/-! ## Code -/

def emit (f : Frame) (i : Instr) : Frame := { f with code := f.code.push i }

/-- Throw away the instructions after the first `length`. -/
def truncate (f : Frame) (length : Nat) : Frame := { f with code := f.code.take length }

/-- Start a function: an empty frame without open blocks, and no code. -/
def beginFunction (f : Frame) : Frame := { f with top := 0, blocks := [], code := #[] }

/-- Take the code of a finished function away. -/
def takeCode (f : Frame) : Array Instr × Frame := (f.code, { f with code := #[] })

end Frame

end ClassLang
