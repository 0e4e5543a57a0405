import ClassLang.Proofs.Control.Statement

/-!
# Control flow is lowered faithfully

The code of a statement is cut into chunks, and a walk through it sees the same expressions and
tests in the same order as a run of the statement, however long both are and whatever the tests
give. Where the walk stops says how the statement ended.
-/

namespace ClassLang

open CompileM Lowering

namespace Chunk

/-! ## Walks stop where runs end -/

/-- A walk through the chunks `cs` of a statement sees what its runs see. -/
structure Faithful (o : Oracle) (x : Surroundings) (cs : List Chunk)
    (run : Nat → History → Ending × History) : Prop where
  /-- The same histories begin a walk of some length and a run of some length. -/
  histories : ∀ h, (∃ n, h <+: (walk o cs n (cs, [])).2) ↔ ∃ bound, h <+: (run bound []).2
  /-- When the statement has ended, the walk has stopped there. -/
  ends : ∀ bound e h, run bound [] = (e, h) → e ≠ .cutOff →
    ∃ n pos, walk o cs n (cs, []) = (pos, h) ∧ advance o cs (pos, h) = none ∧
      Arrives x [] bound n pos e
  /-- When the walk has stopped, the statement has ended. -/
  stops : ∀ n pos h, walk o cs n (cs, []) = (pos, h) → advance o cs (pos, h) = none →
    ∃ bound e, run bound [] = (e, h) ∧ e ≠ .cutOff ∧ Arrives x [] bound n pos e

variable {o : Oracle} {x : Surroundings} {cs : List Chunk}
  {run : Oracle → Nat → History → Ending × History}

/-- Where a statement that is not cut off ends, no step is left: the labels around it are not among
its chunks. -/
theorem Arrives.stopped {bound n : Nat} {pos : List Chunk} {e : Ending} {h : History}
    (harrives : Arrives x [] bound n pos e) (he : e ≠ .cutOff)
    (houtside : ∀ l ∈ x.labels, l ∉ placed cs) : advance o cs (pos, h) = none := by
  have hjump : ∀ l more, l ∈ x.labels → advance o cs (goto l :: more, h) = none := by
    intro l more hl
    rw [advance, landing_eq_none (houtside l hl)]
    rfl
  cases e with
  | finished =>
    obtain rfl : pos = [] := harrives
    rfl
  | left =>
    obtain ⟨l, more, hl, rfl⟩ := harrives
    exact hjump l more (by simp [Surroundings.labels, hl])
  | again =>
    obtain ⟨l, more, hl, rfl⟩ := harrives
    exact hjump l more (by simp [Surroundings.labels, hl])
  | fellThrough =>
    obtain ⟨l, more, hl, rfl⟩ := harrives
    exact hjump l more (by simp [Surroundings.labels, hl])
  | returned =>
    obtain ⟨more, rfl⟩ := harrives
    rfl
  | cutOff => exact absurd rfl he

/-- A walk that has stopped goes nowhere. -/
theorem Walks.le_of_stopped {whole : List Chunk} {n k : Nat} {a b : Spot}
    (hwalk : Walks o whole n a b) (hstop : advance o whole (walk o whole k a) = none) : n ≤ k := by
  induction hwalk generalizing k with
  | refl => exact Nat.zero_le k
  | step hstep _ ih =>
    cases k with
    | zero =>
      rw [walk, hstep] at hstop
      cases hstop
    | succ k =>
      rw [walk, hstep] at hstop
      exact Nat.succ_le_succ (ih hstop)

theorem faithful_of_implements
    (himplements : Implements x cs run)
    (hplaced : Placed cs cs []) (houtside : ∀ l ∈ x.labels, l ∉ placed cs) :
    Faithful o x cs (run o) := by
  have hfollows : ∀ bound, ∃ n pos, Walks o cs n (cs, []) (pos, (run o bound []).2) ∧
      Arrives x [] bound n pos (run o bound []).1 := by
    intro bound
    have hrun := himplements o cs [] bound [] hplaced
    rw [List.append_nil] at hrun
    exact hrun
  refine ⟨?_, ?_, ?_⟩
  · intro h
    constructor
    · rintro ⟨n, hn⟩
      -- A run of as many rounds is not behind the walk: if it is cut off, its walk is longer, and
      -- if it is not, its walk has stopped.
      obtain ⟨k, pos, hwalk, harrives⟩ := hfollows n
      refine ⟨n, hn.trans ?_⟩
      by_cases hle : n ≤ k
      · obtain ⟨d, rfl⟩ := Nat.exists_eq_add_of_le hle
        have hmore : (walk o cs n (cs, [])).2 <+: (walk o cs d (walk o cs n (cs, []))).2 :=
          history_prefix_walk d _
        rw [← walk_add, hwalk.walk_eq] at hmore
        exact hmore
      · have hstopped : advance o cs (pos, (run o n []).2) = none := by
          refine harrives.stopped ?_ houtside
          intro hcut
          rw [hcut] at harrives
          exact hle harrives
        obtain ⟨d, rfl⟩ := Nat.exists_eq_add_of_le (Nat.le_of_not_le hle)
        have hsame : walk o cs (k + d) (cs, []) = (pos, (run o (k + d) []).2) := by
          rw [hwalk.walk_add, walk_of_stopped hstopped]
        exact ⟨[], by rw [hsame, List.append_nil]⟩
    · rintro ⟨bound, hbound⟩
      obtain ⟨n, pos, hwalk, _⟩ := hfollows bound
      refine ⟨n, ?_⟩
      rw [hwalk.walk_eq]
      exact hbound
  · intro bound e h hrun he
    obtain ⟨n, pos, hwalk, harrives⟩ := hfollows bound
    rw [hrun] at hwalk harrives
    exact ⟨n, pos, hwalk.walk_eq, harrives.stopped he houtside, harrives⟩
  · intro n pos h hwalk hstop
    obtain ⟨k, pos', hwalk', harrives⟩ := hfollows (n + 1)
    have hle : k ≤ n := hwalk'.le_of_stopped (by rw [hwalk]; exact hstop)
    have he : (run o (n + 1) []).1 ≠ .cutOff := by
      intro hcut
      rw [hcut] at harrives
      exact absurd (Nat.le_trans harrives hle) (Nat.not_succ_le_self n)
    obtain ⟨d, rfl⟩ := Nat.exists_eq_add_of_le hle
    have hsame : (pos', (run o (k + d + 1) []).2) = (pos, h) := by
      rw [← hwalk, hwalk'.walk_add, walk_of_stopped (harrives.stopped he houtside)]
    injection hsame with hpos hh
    subst hpos hh
    exact ⟨k + d + 1, _, rfl, he, harrives.mono hle⟩

/-! ## Jumps in the code -/

theorem placed_sublist_labels (cs : List Chunk) :
    (placed cs).Sublist (Machine.labels (codeOf cs)) := by
  induction cs with
  | nil => exact .slnil
  | cons x cs ih =>
    rw [codeOf_cons, Machine.labels_append]
    cases x with
    | label l => exact ih.cons_cons l
    | _ => exact ih.trans (List.sublist_append_right ..)

theorem mem_labels_of_placed {l : Label} (h : l ∈ placed cs) :
    l ∈ Machine.labels (codeOf cs) := (placed_sublist_labels cs).subset h

theorem after?_eq_none {code : List Instr} {l : Label} (h : l ∉ Machine.labels code) :
    Machine.after? code l = none := by
  rw [Machine.mem_labels] at h
  induction code with
  | nil => rfl
  | cons i code ih =>
    rw [List.mem_cons, not_or] at h
    rw [Machine.after?, if_neg (Ne.symm h.1)]
    exact ih h.2

/-- Jumps go to the same place in the chunks and in their code. -/
theorem after?_codeOf (hnodup : (Machine.labels (codeOf cs)).Nodup) {l : Label}
    (hl : l ∈ placed cs ∨ l ∉ Machine.labels (codeOf cs)) :
    Machine.after? (codeOf cs) l = (landing cs l).map codeOf := by
  rcases hl with hl | hl
  · obtain ⟨before, after, rfl⟩ := List.append_of_mem (mem_placed.mp hl)
    rw [codeOf_append, codeOf_cons, Machine.labels_append] at hnodup
    have hbefore : l ∉ Machine.labels (codeOf before) := fun hmem =>
      (List.nodup_append.mp hnodup).2.2 l hmem l (Machine.mem_labels.mpr (by simp [code])) rfl
    rw [landing_append fun hmem => hbefore (mem_labels_of_placed hmem), codeOf_append, codeOf_cons]
    exact Machine.after?_append hbefore
  · rw [after?_eq_none hl, landing_eq_none fun hmem => hl (mem_labels_of_placed hmem)]
    rfl

end Chunk

/-! ## The theorem -/

open Chunk

/-- Chunks that follow some runs and that were compiled when the labels around were made. -/
theorem Compiles.faithful {c c' : Compilation} {cs : List Chunk} {x : Surroundings}
    {results : List Expr} {run : Oracle → Nat → History → Ending × History}
    (hcs : Compiles c c' cs [] [] x.labels results) (himplements : Implements x cs run)
    (hmade : ∀ l ∈ x.labels, l.id < c.frame.made l.kind) :
    (∀ l ∈ targets cs, Machine.after? (codeOf cs) l = (landing cs l).map codeOf) ∧
      ∀ o, Faithful o x cs (run o) := by
  have hnodup := hcs.labels_nodup
  have houtside : ∀ l ∈ x.labels, l ∉ Machine.labels (codeOf cs) := by
    intro l hl hmem
    exact Nat.not_lt.mpr (hcs.made_of_mem_labels hmem).1 (hmade l hl)
  constructor
  · intro l hl
    exact after?_codeOf hnodup ((hcs.targets l hl).imp_right (houtside l))
  · intro o
    exact faithful_of_implements himplements
      (placed_self (hnodup.sublist (placed_sublist_labels cs)))
      fun l hl hmem => houtside l hl (mem_labels_of_placed hmem)

/-- The labels that statements around can be left to were made before. -/
def Compilation.AroundMade (c : Compilation) : Prop :=
  ∀ l ∈ c.scopes.around.labels, l.id < c.frame.made l.kind

/-- The code of a statement consists of chunks that are what lowering its expressions gave, jumps
go from chunk to chunk, and for every oracle a walk sees what the runs of the statement see. -/
theorem stmt_faithful {s : Stmt} {c c' : Compilation} {u : Unit} (h : Yields (stmt s) c u c')
    (haround : c.AroundMade) :
    ∃ cs, c'.frame.code.toList = c.frame.code.toList ++ codeOf cs ∧
      (∀ x ∈ cs, x.Compiled c.scopes.function?) ∧
      (∀ l ∈ targets cs, Machine.after? (codeOf cs) l = (landing cs l).map codeOf) ∧
      ∀ o, Faithful o c.scopes.around cs fun bound => Stmt.exec o bound s := by
  obtain ⟨cs, hcs, himplements⟩ := compiles_stmt s h
  obtain ⟨htargets, hfaithful⟩ := hcs.faithful himplements haround
  exact ⟨cs, hcs.code, hcs.compiled, htargets, hfaithful⟩

/-- Inside of a function that returns an `int` and has a parameter `x`. -/
def insideFunction : Compilation where
  options := {}
  registry := Registry.initial 8
  scopes := ⟨.opened .global, [⟨.function "f" .int, Table.empty.insert "x"
    ⟨.variable ⟨.int, .frame 8, false, .unknown⟩, .unknown⟩⟩]⟩
  frame := { Frame.initial 8 with top := 16 }
  listing := .empty
  literals := .empty
  warnings := #[]
  muted := 0
  path := ""
  moduleScopes := .empty
  bodies := .empty
  globals := []
  deferring := false
  deferred := []
  failedPath := none

/-- `while x { switch x { case 1 { fallthrough } case 2 { break } default { return x } } }` -/
def loopWithSwitch : Stmt :=
  let x := Expr.name "x" .unknown
  let number (v : Int64) := Expr.literal (.int v) .unknown
  .whileLoop x [.switch x
    [.mk [number 1] [.fallthrough .unknown] .unknown, .mk [number 2] [.leave .unknown] .unknown]
    (some [.ret (some x) .unknown]) .unknown] .unknown

/-- If everything is true, the first case is taken, falls into the second and leaves the loop. -/
theorem loopWithSwitch_faithful : ∃ c' cs, Yields (stmt loopWithSwitch) insideFunction () c' ∧
    c'.frame.code.toList = codeOf cs ∧
    (∀ o, Faithful o ⟨none, none, none⟩ cs fun bound => Stmt.exec o bound loopWithSwitch) ∧
    ∃ n, walk (fun _ _ => true) cs n (cs, []) = ([],
      [.test (.condition (.name "x" .unknown)) true, .leaf (.subject (.name "x" .unknown)),
        .test (.candidate (.literal (.int 1) .unknown)) true]) := by
  have hrun := yields_of_isOk (m := stmt loopWithSwitch) (c := insideFunction) (by decide +kernel)
  have haround : insideFunction.AroundMade := fun l hl => absurd hl List.not_mem_nil
  obtain ⟨cs, hcode, _, _, hfaithful⟩ := stmt_faithful hrun haround
  obtain ⟨n, pos, hwalk, _, harrives⟩ := (hfaithful fun _ _ => true).ends 1 .finished _ rfl
    (by decide)
  obtain rfl : pos = [] := harrives
  exact ⟨_, cs, hrun, hcode, hfaithful, n, hwalk⟩

end ClassLang
