import ClassLang.Lowering.Call
import ClassLang.Proofs.Step

/-!
# What the smallest steps of lowering emit

Emitting an instruction, taking storage, making a label and copying bytes change nothing but
the frame. Each of them is described by the frame it leaves.
-/

namespace ClassLang

/-- The frame with some instructions more. -/
def Frame.append (f : Frame) (code : List Instr) : Frame :=
  { f with code := f.code ++ code.toArray }

/-- The frame with some bytes taken. -/
def Frame.grow (f : Frame) (length : Nat) : Frame := { f with top := f.top + length }

namespace Frame

@[simp]
theorem append_top (f : Frame) (code : List Instr) : (f.append code).top = f.top := rfl

@[simp]
theorem append_code (f : Frame) (code : List Instr) :
    (f.append code).code.toList = f.code.toList ++ code := by
  simp [append]

@[simp]
theorem grow_top (f : Frame) (n : Nat) : (f.grow n).top = f.top + n := rfl

@[simp]
theorem grow_code (f : Frame) (n : Nat) : (f.grow n).code = f.code := rfl

@[simp]
theorem append_nil (f : Frame) : f.append [] = f := by
  simp [append]

@[simp]
theorem append_append (f : Frame) (c₁ c₂ : List Instr) :
    (f.append c₁).append c₂ = f.append (c₁ ++ c₂) := by
  simp [append, Array.append_assoc]

@[simp]
theorem grow_grow (f : Frame) (n m : Nat) : (f.grow n).grow m = f.grow (n + m) := by
  simp [grow, Nat.add_assoc]

theorem code_restore {f f' : Frame} {k : Checkpoint} (h : f.restore k = .ok f') :
    f'.code = f.code := by
  unfold restore at h
  split at h
  · injection h with h
    exact h ▸ rfl
  · cases h

end Frame

/-- The state with some instructions more. -/
def Compilation.add (c : Compilation) (code : List Instr) : Compilation :=
  { c with frame := c.frame.append code }

@[simp]
theorem Compilation.add_frame (c : Compilation) (code : List Instr) :
    (c.add code).frame = c.frame.append code := rfl

@[simp]
theorem Compilation.add_registry (c : Compilation) (code : List Instr) :
    (c.add code).registry = c.registry := rfl

namespace CompileM

@[simp]
theorem yields_emit {i : Instr} {region : Nat} {c c' : Compilation} {u : Unit} :
    Yields (emit i region) c u c' ↔ c' = c.add [i] := by
  have hemit : Yields (emit i region) c u c' ↔ c' = { c with frame := c.frame.emit i } :=
    yields_modifyFrame (f := (·.emit i))
  rw [hemit]
  simp [Compilation.add, Frame.append, Frame.emit]

@[simp]
theorem yields_emitLabel {l : Label} {c c' : Compilation} {u : Unit} :
    Yields (emitLabel l) c u c' ↔ c' = c.add [.label l] := yields_emit

@[simp]
theorem yields_emitGoto {l : Label} {c c' : Compilation} {u : Unit} :
    Yields (emitGoto l) c u c' ↔ c' = c.add [.goto l] := yields_emit

@[simp]
theorem yields_alloc {n : Nat} {c c' : Compilation} {a : Address} :
    Yields (alloc n) c a c' ↔
      a = .frame c.frame.top ∧ c' = { c with frame := c.frame.grow n } :=
  yields_updateFrame

@[simp]
theorem yields_allocFor {t : Ty} {c c' : Compilation} {a : Address} :
    Yields (allocFor t) c a c' ↔
      a = .frame c.frame.top ∧ c' = { c with frame := c.frame.grow (c.registry.length t) } := by
  simp only [allocFor, yields_bind, yields_lengthOf, yields_alloc, and_assoc, exists_and_left,
    exists_eq_left]

end CompileM

namespace Lowering

open CompileM

/-- The code that copies bytes: none if there is nothing to copy. -/
def moveCode (dst src : Address) (length : Nat) : List Instr :=
  if dst ≠ src ∧ length > 0 then [.mov dst src length] else []

@[simp]
theorem yields_move {dst src : Address} {n : Nat} {c c' : Compilation} {u : Unit} :
    Yields (move dst src n) c u c' ↔ c' = c.add (moveCode dst src n) := by
  unfold move moveCode
  split
  · exact yields_emit
  · rw [Compilation.add, Frame.append_nil]
    exact yields_pure.trans (and_iff_right rfl)

end Lowering

end ClassLang
