import ClassLang.Code.Instr
import ClassLang.Proofs.Machine.Store
import Mathlib.Logic.Relation

/-!
# Running code

A run goes from one position in the code to the next; a position is the code that is left. Jumps
go to the first place where their label is defined. Copying, arithmetic, conversion, pointers and
jumps are given a meaning here. The instructions for arrays, objects and calls are not, and a run
stops in front of them.

Code is compiled piece by piece, and a piece is run inside of the code around it: `Placed` says
that a piece stands somewhere in the code and that jumps to its labels get there.
-/

namespace ClassLang

/-- What is not said about the machine: some of its arithmetic, and how pointers are stored. Floats
are given by their bits. -/
structure Arithmetic where
  /-- Division by zero and its remainder. -/
  byZero : IntOp → Int64 → Int64
  shiftLeft : Int64 → Int64 → Int64
  shiftRight : Int64 → Int64 → Int64
  float : FloatOp → Int64 → Int64 → Int64
  floatNeg : Int64 → Int64
  intToFloat : Int64 → Int64
  floatToInt : Int64 → Int64
  pointerSize : Nat
  /-- The bytes of a pointer to a place. -/
  pointer : Address → List UInt8
  /-- What stored bytes point to. -/
  pointee : List UInt8 → Address

namespace Machine

/-- One for true and zero for false. -/
def truth (b : Bool) : Int64 := if b then 1 else 0

theorem truth_eq_zero {b : Bool} : truth b = 0 ↔ b = false := by
  cases b <;> decide

variable (u : Arithmetic)

/-- An integer operation on two words. -/
def intOp : IntOp → Int64 → Int64 → Int64
  | .add, x, y => x + y
  | .sub, x, y => x - y
  | .mul, x, y => x * y
  | .div, x, y => if y = 0 then u.byZero .div x else x / y
  | .mod, x, y => if y = 0 then u.byZero .mod x else x % y
  | .eq, x, y => truth (x = y)
  | .ne, x, y => truth (x ≠ y)
  | .lt, x, y => truth (x < y)
  | .le, x, y => truth (x ≤ y)
  | .gt, x, y => truth (x > y)
  | .ge, x, y => truth (x ≥ y)
  | .and, x, y => x &&& y
  | .or, x, y => x ||| y
  | .xor, x, y => x ^^^ y
  | .shl, x, y => u.shiftLeft x y
  | .shr, x, y => u.shiftRight x y

/-- An operation on one word. -/
def oneOp : OneOp → Int64 → Int64
  | .intNeg, x => -x
  | .bitNot, x => ~~~x
  | .logicalNot, x => truth (x = 0)
  | .floatNeg, x => u.floatNeg x

/-- A change of representation: the types of operand and result, and what becomes of the
value. -/
def conversion : ConvertOp → Prim × Prim × (Int64 → Int64)
  | .intToFloat => (.int, .float, u.intToFloat)
  | .floatToInt => (.float, .int, u.floatToInt)
  | .intToChar => (.int, .char, id)
  | .charToInt => (.char, .int, id)

/-- The lowest bytes of a number, sign-extended. -/
def immediate (v : Int) (n : Nat) : List UInt8 :=
  (List.range n).map fun i => UInt8.ofNat ((v / 256 ^ i) % 256).toNat

/-- What an instruction that does not jump makes of the storage. -/
def effect? : Instr → Store → Option Store
  | .mov dst src n, m => some (m.write dst (m.read src n))
  | .imm dst v n, m => some (m.write dst (immediate v n))
  | .int op dst l r, m => some (m.write dst (Prim.int.encode (intOp u op (m.word l) (m.word r))))
  | .float op dst l r, m =>
    some (m.write dst (Prim.int.encode (u.float op (m.word l) (m.word r))))
  | .unary op dst src, m => some (m.write dst (Prim.int.encode (oneOp u op (m.word src))))
  | .convert op dst src, m =>
    let (p, q, f) := conversion u op
    some (m.write dst (q.encode (f (m.value p src))))
  | .addr reg src, m => some (m.point reg src)
  | .ptr reg src, m => some (m.point reg (u.pointee (m.read src u.pointerSize)))
  | .offset reg n, m => some (m.point reg ((m.registers reg).shift n))
  | .load dst src n, m =>
    some (m.write dst (m.read ((m.registers src.register).shift src.offset) n))
  | .store dst src n, m =>
    some (m.write ((m.registers dst.register).shift dst.offset) (m.read src n))
  | .setPtr dst reg, m => some (m.write dst (u.pointer (m.registers reg)))
  | .label _, m => some m
  | _, _ => none

/-- The code behind the first definition of a label. -/
def after? : List Instr → Label → Option (List Instr)
  | [], _ => none
  | i :: rest, l => if i = .label l then some rest else after? rest l

/-- A position in the code and what the storage holds. -/
abbrev Position := List Instr × Store

/-- One instruction of `code`. -/
def step (code : List Instr) : Position → Option Position
  | ([], _) => none
  | (.goto l :: _, m) => (after? code l).map (·, m)
  | (.ifTrue c l :: rest, m) =>
    if m.word c = 0 then some (rest, m) else (after? code l).map (·, m)
  | (.ifFalse c l :: rest, m) =>
    if m.word c = 0 then (after? code l).map (·, m) else some (rest, m)
  | (i :: rest, m) => (effect? u i m).map (rest, ·)

theorem step_ifTrue (code : List Instr) (a : Address) (l : Label) (rest : List Instr)
    (m : Store) : step u code (.ifTrue a l :: rest, m) =
      if m.word a = 0 then some (rest, m) else (after? code l).map (·, m) := rfl

theorem step_ifFalse (code : List Instr) (a : Address) (l : Label) (rest : List Instr)
    (m : Store) : step u code (.ifFalse a l :: rest, m) =
      if m.word a = 0 then (after? code l).map (·, m) else some (rest, m) := rfl

/-- A run of any length. -/
def Reaches (code : List Instr) : Position → Position → Prop :=
  Relation.ReflTransGen fun s t => step u code s = some t

variable {u} {code : List Instr}

theorem reaches_step {s t : Position} (h : step u code s = some t) : Reaches u code s t :=
  .single h

theorem reaches_effect {i : Instr} {rest : List Instr} {m m' : Store}
    (h : effect? u i m = some m') : Reaches u code (i :: rest, m) (rest, m') := by
  refine reaches_step ?_
  cases i <;> first | cases h; done | exact congrArg (Option.map (rest, ·)) h

theorem reaches_goto {l : Label} {rest target : List Instr} {m : Store}
    (h : after? code l = some target) :
    Reaches u code (.goto l :: rest, m) (target, m) := by
  refine reaches_step ?_
  rw [step, h]
  rfl

/-! ## Pieces of code -/

/-- Jumps to the labels of a piece of code that is followed by `rest` get to the piece. -/
def Placed (code piece rest : List Instr) : Prop :=
  ∀ before l after, piece = before ++ .label l :: after → after? code l = some (after ++ rest)

namespace Placed

variable {rest : List Instr}

theorem left {s₁ s₂ : List Instr} (h : Placed code (s₁ ++ s₂) rest) :
    Placed code s₁ (s₂ ++ rest) := by
  intro before l after heq
  have := h before l (after ++ s₂) (by rw [heq]; simp)
  rwa [List.append_assoc] at this

theorem right {s₁ s₂ : List Instr} (h : Placed code (s₁ ++ s₂) rest) : Placed code s₂ rest := by
  intro before l after heq
  exact h (s₁ ++ before) l after (by rw [heq]; simp)

theorem middle {piece : List Instr} (h : Placed code piece rest) (s₁ s₂ s₃ : List Instr)
    (heq : piece = s₁ ++ (s₂ ++ s₃)) : Placed code s₂ (s₃ ++ rest) := by
  subst heq
  exact h.right.left

end Placed

/-- The labels that some code defines. -/
def labels (piece : List Instr) : List Label :=
  piece.filterMap fun
    | .label l => some l
    | _ => none

@[simp]
theorem labels_nil : labels [] = [] := rfl

@[simp]
theorem labels_append (s₁ s₂ : List Instr) : labels (s₁ ++ s₂) = labels s₁ ++ labels s₂ :=
  List.filterMap_append

theorem mem_labels {l : Label} {piece : List Instr} : l ∈ labels piece ↔ .label l ∈ piece := by
  unfold labels
  rw [List.mem_filterMap]
  constructor
  · rintro ⟨i, hi, heq⟩
    cases i with
    | label k =>
      injection heq with heq
      exact heq ▸ hi
    | _ => cases heq
  · intro h
    exact ⟨_, h, rfl⟩

theorem after?_append {l : Label} {s t : List Instr} (h : l ∉ labels s) :
    after? (s ++ .label l :: t) l = some t := by
  rw [mem_labels] at h
  induction s with
  | nil => exact if_pos rfl
  | cons i s ih =>
    rw [List.mem_cons, not_or] at h
    rw [List.cons_append, after?, if_neg (Ne.symm h.1)]
    exact ih h.2

/-- A piece whose labels are defined once, and not in front of it, is placed. -/
theorem placed_of_nodup {before piece : List Instr} (rest : List Instr)
    (hnodup : (labels piece).Nodup)
    (hbefore : ∀ l ∈ labels piece, l ∉ labels before) :
    Placed (before ++ piece ++ rest) piece rest := by
  intro s l t heq
  have hl : l ∈ labels piece := by
    rw [heq, mem_labels]
    simp
  have hs : l ∉ labels (before ++ s) := by
    rw [labels_append, List.mem_append, not_or]
    refine ⟨hbefore l hl, ?_⟩
    rw [heq, labels_append] at hnodup
    intro hmem
    exact (List.nodup_append.mp hnodup).2.2 l hmem l (mem_labels.mpr (by simp)) rfl
  have hcode : before ++ piece ++ rest = (before ++ s) ++ .label l :: (t ++ rest) := by
    rw [heq]
    simp
  rw [hcode]
  exact after?_append hs

/-- A piece of code takes one storage to another, wherever it stands. -/
def Runs (u : Arithmetic) (piece : List Instr) (m m' : Store) : Prop :=
  ∀ code rest, Placed code piece rest → Reaches u code (piece ++ rest, m) (rest, m')

namespace Runs

theorem nil (m : Store) : Runs u [] m m := fun _ _ _ => .refl

theorem trans {s₁ s₂ : List Instr} {m m₁ m₂ : Store} (h₁ : Runs u s₁ m m₁)
    (h₂ : Runs u s₂ m₁ m₂) : Runs u (s₁ ++ s₂) m m₂ := by
  intro code rest hplaced
  rw [List.append_assoc]
  exact (h₁ code _ hplaced.left).trans (h₂ code _ hplaced.right)

theorem effect {i : Instr} {m m' : Store} (h : effect? u i m = some m') : Runs u [i] m m' :=
  fun _ _ _ => reaches_effect h

theorem ifFalse {a : Address} {m : Store} (l : Label) (h : m.word a ≠ 0) :
    Runs u [.ifFalse a l] m m :=
  fun code rest _ => reaches_step ((step_ifFalse u code a l rest m).trans (if_neg h))

theorem ifTrue {a : Address} {m : Store} (l : Label) (h : m.word a = 0) :
    Runs u [.ifTrue a l] m m :=
  fun code rest _ => reaches_step ((step_ifTrue u code a l rest m).trans (if_pos h))

end Runs

/-! ## Jumps between pieces -/

/-- A piece of code is left by a jump to a label, wherever it stands. -/
def JumpsTo (u : Arithmetic) (piece : List Instr) (l : Label) (m m' : Store) : Prop :=
  ∀ code rest target, Placed code piece rest → after? code l = some target →
    Reaches u code (piece ++ rest, m) (target, m')

/-- A piece of code is entered at one label and left by a jump to another. -/
def Passes (u : Arithmetic) (piece : List Instr) (l l' : Label) (m m' : Store) : Prop :=
  ∃ before after, piece = before ++ .label l :: after ∧ JumpsTo u after l' m m'

theorem Passes.prepend {s₂ : List Instr} {l l' : Label} {m m' : Store}
    (h : Passes u s₂ l l' m m') (s₁ : List Instr) : Passes u (s₁ ++ s₂) l l' m m' := by
  obtain ⟨before, after, rfl, hafter⟩ := h
  exact ⟨s₁ ++ before, after, (List.append_assoc ..).symm, hafter⟩

theorem Runs.jump {s₁ s₂ : List Instr} {l : Label} {m m₁ m₂ : Store} (h₁ : Runs u s₁ m m₁)
    (h₂ : JumpsTo u s₂ l m₁ m₂) : JumpsTo u (s₁ ++ s₂) l m m₂ := by
  intro code rest target hplaced htarget
  rw [List.append_assoc]
  exact (h₁ code _ hplaced.left).trans (h₂ code _ _ hplaced.right htarget)

namespace JumpsTo

theorem goto (l : Label) (m : Store) : JumpsTo u [.goto l] l m m :=
  fun _ _ _ _ h => reaches_goto h

theorem ifFalse {a : Address} {m : Store} (l : Label) (h : m.word a = 0) :
    JumpsTo u [.ifFalse a l] l m m := by
  intro code rest target _ htarget
  refine reaches_step ((step_ifFalse u code a l rest m).trans ?_)
  rw [if_pos h, htarget]
  rfl

theorem ifTrue {a : Address} {m : Store} (l : Label) (h : m.word a ≠ 0) :
    JumpsTo u [.ifTrue a l] l m m := by
  intro code rest target _ htarget
  refine reaches_step ((step_ifTrue u code a l rest m).trans ?_)
  rw [if_neg h, htarget]
  rfl

variable {s₁ : List Instr} {l : Label} {m m₁ m₂ : Store}

/-- What follows the jump does not matter. -/
theorem append (h : JumpsTo u s₁ l m m₁) (s₂ : List Instr) : JumpsTo u (s₁ ++ s₂) l m m₁ := by
  intro code rest target hplaced htarget
  rw [List.append_assoc]
  exact h code _ target hplaced.left htarget

theorem pass {s₂ : List Instr} {l' : Label} (h₁ : JumpsTo u s₁ l m m₁)
    (h₂ : Passes u s₂ l l' m₁ m₂) : JumpsTo u (s₁ ++ s₂) l' m m₂ := by
  obtain ⟨before, after, rfl, hafter⟩ := h₂
  intro code rest target hplaced htarget
  have hl := hplaced (s₁ ++ before) l after (by simp)
  have hright := (hplaced.middle (s₁ ++ before ++ [.label l]) after [] (by simp))
  rw [List.append_assoc]
  exact (h₁ code _ _ hplaced.left hl).trans (hafter code rest target hright htarget)

/-- A jump to a label that follows the piece goes on behind the label. -/
theorem land {s₂ : List Instr} (h₁ : JumpsTo u s₁ l m m₁) (h₂ : Runs u s₂ m₁ m₂) :
    Runs u (s₁ ++ .label l :: s₂) m m₂ := by
  intro code rest hplaced
  have hl := hplaced s₁ l s₂ rfl
  have hright := hplaced.middle (s₁ ++ [.label l]) s₂ [] (by simp)
  rw [List.append_assoc]
  exact (h₁ code _ _ hplaced.left hl).trans (h₂ code rest hright)

end JumpsTo

/-- A piece of code is left at its end or by a jump to a label. -/
def Exits (u : Arithmetic) (piece : List Instr) : Option Label → Store → Store → Prop
  | none => Runs u piece
  | some l => JumpsTo u piece l

/-- A piece with two branches, of which the second is run if the test was zero. -/
theorem Runs.ifElse {test yes no : List Instr} {a : Address} {o d : Label} {m m₁ m₂ : Store}
    (htest : Runs u test m m₁) (hno : m₁.word a = 0 → Runs u no m₁ m₂)
    (hyes : m₁.word a ≠ 0 → Runs u yes m₁ m₂) :
    Runs u (test ++ .ifFalse a o :: (yes ++ .goto d :: .label o :: (no ++ [.label d]))) m m₂ := by
  by_cases hzero : m₁.word a = 0
  · have hjump := (htest.jump (.ifFalse o hzero)).append (yes ++ [.goto d])
    simpa using hjump.land ((hno hzero).trans (.effect rfl))
  · have hjump := (htest.trans (.ifFalse o hzero)).trans (hyes hzero) |>.jump (.goto d m₂)
    simpa using (hjump.append (.label o :: no)).land (.nil m₂)

/-- A piece with two branches that are joined after the second, the second first. -/
theorem Runs.ifElseJoin {test yes no joinYes joinNo : List Instr} {a : Address} {o d j : Label}
    {m m₁ m₂ : Store} (htest : Runs u test m m₁)
    (hno : m₁.word a = 0 → Runs u (no ++ joinNo) m₁ m₂)
    (hyes : m₁.word a ≠ 0 → ∃ m', Runs u yes m₁ m' ∧ Runs u joinYes m' m₂) :
    Runs u (test ++ .ifFalse a o :: (yes ++ .goto j :: .label o :: (no ++ (joinNo ++
      .goto d :: .label j :: (joinYes ++ [.label d]))))) m m₂ := by
  by_cases hzero : m₁.word a = 0
  · have hjump := (htest.jump (.ifFalse o hzero)).append (yes ++ [.goto j])
    have hbranch := (hjump.land (hno hzero)).jump (.goto d m₂)
    simpa using (hbranch.append (.label j :: joinYes)).land (.nil m₂)
  · obtain ⟨m', hyes, hjoin⟩ := hyes hzero
    have hbranch := (htest.trans (.ifFalse o hzero)).trans hyes |>.jump (.goto j m')
    have hjump := hbranch.append (.label o :: (no ++ (joinNo ++ [.goto d])))
    simpa using hjump.land (hjoin.trans (.effect rfl))

end Machine

end ClassLang
