import ClassLang.Proofs.Control.Execution
import ClassLang.Proofs.Machine.Run

/-!
# Walking the code of a statement

The code of a statement is looked at in chunks. The code of an expression is one chunk, whatever
it does inside; the rest are labels, jumps and returns. A walk goes from chunk to chunk. It records
the expressions that it passes and asks an oracle at each test, so what it records can be compared
with a run of the statement.
-/

namespace ClassLang

/-- A part of the code of a statement. -/
inductive Chunk where
  | leaf (l : Leaf) (code : List Instr)
  /-- Code that leaves the outcome of a test at `a`, and a jump if the outcome is `sense`. -/
  | test (t : Test) (code : List Instr) (a : Address) (sense : Bool) (target : Label)
  | label (l : Label)
  | goto (l : Label)
  | ret

namespace Chunk

/-- The instructions of a chunk. -/
def code : Chunk → List Instr
  | leaf _ code => code
  | test _ code a sense target =>
    code ++ [if sense then .ifTrue a target else .ifFalse a target]
  | label l => [.label l]
  | goto l => [.goto l]
  | ret => [.ret]

/-- The instructions of some chunks. -/
def codeOf (cs : List Chunk) : List Instr := cs.flatMap code

@[simp]
theorem codeOf_nil : codeOf [] = [] := rfl

@[simp]
theorem codeOf_cons (x : Chunk) (cs : List Chunk) : codeOf (x :: cs) = x.code ++ codeOf cs :=
  List.flatMap_cons

@[simp]
theorem codeOf_append (cs ds : List Chunk) : codeOf (cs ++ ds) = codeOf cs ++ codeOf ds :=
  List.flatMap_append

/-- The chunks behind the first place where a label is defined. -/
def landing : List Chunk → Label → Option (List Chunk)
  | [], _ => none
  | label k :: rest, l => if k = l then some rest else landing rest l
  | _ :: rest, l => landing rest l

/-- The labels that some chunks place, apart from those inside of expressions. -/
def placed (cs : List Chunk) : List Label :=
  cs.filterMap fun
    | label l => some l
    | _ => none

@[simp]
theorem placed_append (cs ds : List Chunk) : placed (cs ++ ds) = placed cs ++ placed ds :=
  List.filterMap_append

theorem mem_placed {l : Label} {cs : List Chunk} : l ∈ placed cs ↔ label l ∈ cs := by
  unfold placed
  rw [List.mem_filterMap]
  constructor
  · rintro ⟨x, hx, heq⟩
    cases x with
    | label k =>
      injection heq with heq
      exact heq ▸ hx
    | _ => cases heq
  · intro h
    exact ⟨_, h, rfl⟩

/-- The labels that some chunks jump to, apart from those inside of expressions. -/
def targets (cs : List Chunk) : List Label :=
  cs.filterMap fun
    | goto l | test _ _ _ _ l => some l
    | _ => none

@[simp]
theorem targets_append (cs ds : List Chunk) : targets (cs ++ ds) = targets cs ++ targets ds :=
  List.filterMap_append

/-- A jump passes over chunks that do not place its label. -/
theorem landing_append_right {cs : List Chunk} {l : Label} (h : l ∉ placed cs) (ds : List Chunk) :
    landing (cs ++ ds) l = landing ds l := by
  rw [mem_placed] at h
  induction cs with
  | nil => rfl
  | cons x cs ih =>
    rw [List.mem_cons, not_or] at h
    cases x with
    | label k =>
      have hne : k ≠ l := fun heq => h.1 (heq ▸ rfl)
      exact (if_neg hne).trans (ih h.2)
    | _ => exact ih h.2

theorem landing_append {cs ds : List Chunk} {l : Label} (h : l ∉ placed cs) :
    landing (cs ++ label l :: ds) l = some ds :=
  (landing_append_right h _).trans (if_pos rfl)

theorem landing_eq_none {cs : List Chunk} {l : Label} (h : l ∉ placed cs) :
    landing cs l = none := by
  have hright := landing_append_right h []
  rwa [List.append_nil] at hright

/-! ## Walks -/

/-- The chunks that are left, and what has happened. -/
abbrev Spot := List Chunk × History

variable (o : Oracle) (whole : List Chunk)

/-- One step of a walk. It stops at the end, at a return and at a jump to a label that is not
there. -/
def advance : Spot → Option Spot
  | ([], _) => none
  | (leaf l _ :: rest, h) => some (rest, h.leaf l)
  | (test t _ _ sense target :: rest, h) =>
    if o h t = sense then (landing whole target).map (·, h.test t sense)
    else some (rest, h.test t !sense)
  | (label _ :: rest, h) => some (rest, h)
  | (goto l :: _, h) => (landing whole l).map (·, h)
  | (ret :: _, _) => none

/-- Where a walk is after some steps, or where it stopped before. -/
def walk : Nat → Spot → Spot
  | 0, s => s
  | n + 1, s =>
    match advance o whole s with
    | some s => walk n s
    | none => s

/-- A walk of a given number of steps. -/
inductive Walks : Nat → Spot → Spot → Prop
  | refl (s : Spot) : Walks 0 s s
  | step {n : Nat} {s t r : Spot} : advance o whole s = some t → Walks n t r → Walks (n + 1) s r

variable {o whole} {n k : Nat} {s t r : Spot}

namespace Walks

theorem single (h : advance o whole s = some t) : Walks o whole 1 s t := .step h (.refl t)

theorem trans (h₁ : Walks o whole n s t) (h₂ : Walks o whole k t r) :
    Walks o whole (n + k) s r := by
  induction h₁ with
  | refl s =>
    rw [Nat.zero_add]
    exact h₂
  | step h _ ih =>
    rw [Nat.add_right_comm]
    exact .step h (ih h₂)

theorem walk_eq (h : Walks o whole n s t) : walk o whole n s = t := by
  induction h with
  | refl s => rfl
  | step h _ ih =>
    rw [walk, h]
    exact ih

/-- A walk goes on from where it is. -/
theorem walk_add (h : Walks o whole n s t) (k : Nat) :
    walk o whole (n + k) s = walk o whole k t := by
  induction h with
  | refl s => rw [Nat.zero_add]
  | step h _ ih =>
    rw [Nat.add_right_comm, walk, h]
    exact ih

end Walks

theorem walk_of_stopped (h : advance o whole s = none) (n : Nat) : walk o whole n s = s := by
  cases n with
  | zero => rfl
  | succ n => rw [walk, h]

theorem walk_add (n k : Nat) (s : Spot) :
    walk o whole (n + k) s = walk o whole k (walk o whole n s) := by
  induction n generalizing s with
  | zero => rw [Nat.zero_add, walk]
  | succ n ih =>
    rw [Nat.add_right_comm]
    cases h : advance o whole s with
    | some t =>
      rw [walk, walk, h]
      exact ih t
    | none => rw [walk_of_stopped h, walk_of_stopped h, walk_of_stopped h]

/-- What a walk has recorded stays. -/
theorem history_prefix_advance (h : advance o whole s = some t) : s.2 <+: t.2 := by
  obtain ⟨cs, hist⟩ := s
  cases cs with
  | nil => cases h
  | cons x rest =>
    cases x with
    | leaf l code =>
      injection h with h
      exact h ▸ List.prefix_append ..
    | test q code a sense target =>
      rw [advance] at h
      split at h
      · obtain ⟨_, _, rfl⟩ := Option.map_eq_some_iff.mp h
        exact List.prefix_append ..
      · injection h with h
        exact h ▸ List.prefix_append ..
    | label l =>
      injection h with h
      exact h ▸ List.prefix_refl _
    | goto l =>
      obtain ⟨_, _, rfl⟩ := Option.map_eq_some_iff.mp h
      exact List.prefix_refl _
    | ret => cases h

theorem history_prefix_walk (n : Nat) (s : Spot) : s.2 <+: (walk o whole n s).2 := by
  induction n generalizing s with
  | zero => exact List.prefix_refl _
  | succ n ih =>
    rw [walk]
    split
    · rename_i t ht
      exact (history_prefix_advance ht).trans (ih t)
    · exact List.prefix_refl _

end Chunk

end ClassLang
