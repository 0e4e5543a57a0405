import ClassLang.Proofs.Elision.Expression
import ClassLang.Proofs.Lowering.Constructs

/-!
# Copy elision preserves memory

When optimizing, an expression whose result has the type of the variable that it is assigned to
writes the result there at once, and otherwise into storage of its own that is then copied. For an
elementary expression the two pieces of code leave the same in memory. This fails if a number is
dereferenced that a conditional has turned into a pointer: it may point to the storage of a
temporary, and temporaries are elsewhere when there are fewer copies.
-/

namespace ClassLang

/-- The same state, with optimization on or off. -/
def Compilation.optimizing (c : Compilation) (optimize : Bool) : Compilation :=
  { c with options := { c.options with optimize := optimize } }

namespace Elision

open CompileM Lowering Machine

variable {u : Arithmetic} {c : Compilation} {x : String}

/-- Variables in scope lie in storage that may be assigned to, and no numeric local variable
overlaps with another one or with `x`. -/
structure Arranged (c : Compilation) (x : String) : Prop where
  stored : ∀ n v, c.scopes.slotOf? n = some v →
    ∀ b, v.spans c.registry b → b.assignable c.frame.top
  disjoint : ∀ n n', n ≠ n' → (c.scopes.number? n).isSome = true →
    n' = x ∨ (c.scopes.number? n').isSome = true → ∀ v v', c.scopes.slotOf? n = some v →
      c.scopes.slotOf? n' = some v' → ∀ b, v.spans c.registry b → ¬v'.spans c.registry b

/-- The machine stores pointers to numeric local variables and finds the variables through
them. -/
structure Locates (u : Arithmetic) (c : Compilation) : Prop extends Stores u c.registry where
  pointee : ∀ n p offset, c.scopes.number? n = some (p, offset) →
    u.pointee (u.pointer (.frame offset)) = .frame offset

/-- A numeric local variable, or `x`. -/
def Involved (c : Compilation) (x : String) (v : Slot) : Prop :=
  ∃ n, (n = x ∨ (c.scopes.number? n).isSome = true) ∧ c.scopes.slotOf? n = some v

theorem Arranged.apart (hc : Arranged c x) {v v' : Slot} (hv : Involved c x v)
    (hv' : Involved c x v') : v.apart c.registry v' := by
  obtain ⟨n, hnumber, hn⟩ := hv
  obtain ⟨n', hnumber', hn'⟩ := hv'
  by_cases heq : n = n'
  · subst heq
    rw [hn] at hn'
    injection hn' with hn'
    exact .inl hn'
  · right
    rcases hnumber with rfl | hnumber
    · have hnumber' := hnumber'.resolve_left fun h => heq h.symm
      intro b hb hb'
      exact hc.disjoint n' n (fun h => heq h.symm) hnumber' (.inl rfl) v' v hn' hn b hb' hb
    · exact hc.disjoint n n' heq hnumber hnumber' v v' hn hn'

/-- What the two compilations of an assignment to `x` have in common. -/
def layout (hu : Locates u c) (hc : Arranged c x) : Layout where
  machine := u
  registry := c.registry
  scopes := c.scopes
  limit := c.frame.top
  isVariable := Involved c x
  stores := hu.toStores
  assignable := by
    rintro v ⟨n, _, hn⟩
    exact hc.stored n v hn
  apart _ _ := hc.apart
  pointee := by
    rintro p offset hp ⟨n, _, hn⟩
    refine hu.pointee n p offset ?_
    rw [Scopes.number?, hn]
    exact if_pos hp

/-- Two variables of type `int`, `x` and behind it `y`. -/
def twoNumbers : Compilation where
  options := {}
  registry := Registry.initial 8
  scopes := ⟨⟨.global, ((Table.empty.insert "x"
    ⟨.variable ⟨.int, .frame 0, false, .unknown⟩, .unknown⟩).insert "y"
    ⟨.variable ⟨.int, .frame 8, false, .unknown⟩, .unknown⟩)⟩, []⟩
  frame := { Frame.initial 8 with top := 16 }
  listing := .empty
  literals := .empty
  warnings := #[]
  muted := 0
  path := ""
  moduleScopes := .empty
  bodies := .empty
  globals := []
  deferring := false
  deferred := []
  failedPath := none

/-- A machine whose pointers are numbers of bytes in the frame. -/
def framePointers : Arithmetic where
  byZero _ _ := 0
  shiftLeft := (· <<< ·)
  shiftRight := (· >>> ·)
  float _ x _ := x
  floatNeg := id
  intToFloat := id
  floatToInt := id
  pointerSize := 8
  pointer
    | .frame n => Bytes.littleEndian (UInt64.ofNat n)
    | _ => List.replicate 8 0
  pointee bs := .frame (Bytes.toNat bs)

/-- A byte of one of the two variables. -/
theorem spans_int {n k : Nat} {b : Address} {r : Registry}
    (h : (⟨.int, .frame n⟩ : Slot).spans r b) (hb : b = .frame k) : n ≤ k ∧ k < n + 8 := by
  obtain ⟨i, hi, hshift⟩ := h
  rw [hb] at hshift
  injection hshift with hshift
  have hi : i < 8 := hi
  omega

theorem slotOf?_twoNumbers {n : String} {v : Slot} (h : twoNumbers.scopes.slotOf? n = some v) :
    n = "x" ∧ v = ⟨.int, .frame 0⟩ ∨ n = "y" ∧ v = ⟨.int, .frame 8⟩ := by
  by_cases hx : n = "x"
  · subst hx
    have hv : some _ = some v := h
    injection hv with hv
    exact .inl ⟨rfl, hv.symm⟩
  · by_cases hy : n = "y"
    · subst hy
      have hv : some _ = some v := h
      injection hv with hv
      exact .inr ⟨rfl, hv.symm⟩
    · have hnone : twoNumbers.scopes.find? n = none := by
        simp [twoNumbers, Scopes.find?, Scopes.chain, Scope.find?, Table.find?_insert_of_ne,
          Ne.symm hx, Ne.symm hy]
      rw [Scopes.slotOf?, hnone] at h
      cases h

theorem arranged_twoNumbers : Arranged twoNumbers "x" where
  stored := by
    intro n v hn b hb
    obtain ⟨i, hi, rfl⟩ := hb
    rcases slotOf?_twoNumbers hn with ⟨_, rfl⟩ | ⟨_, rfl⟩
    · have hi : i < 8 := hi
      show 0 + i < 16
      omega
    · have hi : i < 8 := hi
      show 8 + i < 16
      omega
  disjoint := by
    intro n n' hne _ _ v v' hn hn' b hb hb'
    obtain ⟨i, _, hi⟩ := id hb
    rcases slotOf?_twoNumbers hn with ⟨rfl, rfl⟩ | ⟨rfl, rfl⟩
    · rcases slotOf?_twoNumbers hn' with ⟨rfl, rfl⟩ | ⟨rfl, rfl⟩
      · exact hne rfl
      · have := spans_int hb hi
        have := spans_int hb' hi
        omega
    · rcases slotOf?_twoNumbers hn' with ⟨rfl, rfl⟩ | ⟨rfl, rfl⟩
      · have := spans_int hb hi
        have := spans_int hb' hi
        omega
      · exact hne rfl

theorem locates_twoNumbers : Locates framePointers twoNumbers where
  size := rfl
  length a := by cases a <;> rfl
  pointee n p offset hn := by
    have hfits : offset < 2 ^ 64 := by
      rcases slotOf?_twoNumbers (Scopes.number?_eq_some hn).2 with ⟨_, hv⟩ | ⟨_, hv⟩ <;>
        · injection hv with _ hv
          injection hv with hv
          omega
    show Address.frame (Bytes.toNat (Bytes.littleEndian (UInt64.ofNat offset))) = _
    rw [Bytes.toNat_littleEndian]
    exact congrArg Address.frame (UInt64.toNat_ofNat_of_lt' hfits)

/-- A memory in which `x` is three, `y` is 24, and the pool holds a one. -/
def threeAndAddress : Store where
  bytes
    | .frame n => [3, 0, 0, 0, 0, 0, 0, 0, 24].getD n 0
    | .literal n => [1].getD n 0
    | _ => 0
  registers _ := .frame 0

/-- An assignment to `x`, compiled with optimization on or off. -/
def compiled (e : Expr) (optimize : Bool) : Except CompileError Slot × Compilation :=
  (expr (.assign (.name "x" .unknown) e .unknown) none).run.run (twoNumbers.optimizing optimize)

/-- The code of an assignment to `x`. -/
def assignmentCode (e : Expr) (optimize : Bool) : List Instr :=
  (compiled e optimize).2.frame.code.toList

theorem yields_compiled {e : Expr} {optimize : Bool} (h : (compiled e optimize).1.isOk = true) :
    ∃ slot, Yields (expr (.assign (.name "x" .unknown) e .unknown) none)
      (twoNumbers.optimizing optimize) slot (compiled e optimize).2 := by
  unfold Yields
  rw [← compiled]
  generalize compiled e optimize = outcome at h ⊢
  obtain ⟨_ | slot, c'⟩ := outcome
  · cases h
  · exact ⟨slot, rfl⟩

/-- `x = if y < 24 then x else *&y + (y = x)` -/
def pickedOrSwapped : Expr :=
  let x := Expr.name "x" .unknown
  let y := Expr.name "y" .unknown
  .conditional (.binary .less y (.literal (.int 24) .unknown) .unknown) x
    (.binary .add (.unary .deref (.unary .addrOf y .unknown) .unknown)
      (.assign y x .unknown) .unknown) .unknown

variable (u) in
/-- The position after some instructions, or where the machine stops before. -/
def runFor (code : List Instr) : Nat → Position → Position
  | 0, p => p
  | n + 1, p =>
    match step u code p with
    | some q => runFor code n q
    | none => p

theorem reaches_runFor (code : List Instr) (n : Nat) (p : Position) :
    Reaches u code p (runFor u code n p) := by
  induction n generalizing p with
  | zero => exact .refl
  | succ n ih =>
    rw [runFor]
    split
    · rename_i q hq
      exact (reaches_step hq).trans (ih q)
    · exact .refl

theorem reaches_end {code : List Instr} {n : Nat} {m : Store}
    (h : (runFor u code n (code, m)).1 = []) :
    Reaches u code (code, m) ([], (runFor u code n (code, m)).2) := by
  have hend : runFor u code n (code, m) = ([], (runFor u code n (code, m)).2) := Prod.ext h rfl
  rw [← hend]
  exact reaches_runFor code n (code, m)

/-- `1 and *(if 0 then &x else y)` -/
def throughNumber : Expr :=
  let number (v : Int64) := Expr.literal (.int v) .unknown
  .binary .and (number 1) (.unary .deref (.conditional (number 0)
    (.unary .addrOf (.name "x" .unknown) .unknown) (.name "y" .unknown) .unknown) .unknown) .unknown

end Elision

end ClassLang
