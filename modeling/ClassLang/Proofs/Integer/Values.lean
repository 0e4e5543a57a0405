import ClassLang.Lowering.Expr
import ClassLang.Proofs.Integer.Evaluate
import ClassLang.Proofs.Lowering.Piece

/-!
# Code that computes an integer

A compiled integer expression leaves its value in a slot, which may be a variable, a literal, the
destination that was offered or fresh storage. `Computes` says what the code for it does: it runs
to its end, the value is in the slot, and below the old top of the frame nothing but the
destination has changed. So the variables keep their values while operands are computed without a
destination, and what was computed stays where it is.
-/

namespace ClassLang

/-! ## Storage that is kept -/

/-- Bytes that are not free: everything outside of the frame, and the frame below its top. -/
def Address.below (top : Nat) : Address → Prop
  | frame n => n < top
  | _ => True

theorem Address.below.mono {a : Address} {top top' : Nat} (h : a.below top) (hle : top ≤ top') :
    a.below top' := by
  cases a with
  | frame n => exact Nat.lt_of_lt_of_le h hle
  | _ => trivial

/-- A byte of a scalar slot. -/
def Slot.covers (s : Slot) (b : Address) : Prop :=
  ∃ p i, s.type = .prim p ∧ i < p.size ∧ b = s.address.shift i

/-- Two slots have a byte in common. -/
def Slot.overlaps (s t : Slot) : Prop := ∃ b, s.covers b ∧ t.covers b

theorem Slot.not_overlaps_frame {p q : Prim} {m n : Nat} (h : m + p.size ≤ n ∨ n + q.size ≤ m) :
    ¬Slot.overlaps ⟨.prim p, .frame m⟩ ⟨.prim q, .frame n⟩ := by
  rintro ⟨b, ⟨p', i, hp, hi, rfl⟩, ⟨q', j, hq, hj, hb⟩⟩
  injection hp with hp
  injection hq with hq
  injection hb with hb
  subst hp hq
  omega

namespace Store

/-- Bytes below `top` are the same, except for those of a destination. -/
def Spares (top : Nat) (dest : Option Slot) (m m' : Store) : Prop :=
  ∀ b, b.below top → (∀ d ∈ dest, ¬d.covers b) → m' b = m b

namespace Spares

variable {top top' : Nat} {dest : Option Slot} {m m₁ m₂ : Store}

theorem refl (top : Nat) (dest : Option Slot) (m : Store) : Spares top dest m m :=
  fun _ _ _ => rfl

theorem trans (h₁ : Spares top dest m m₁) (h₂ : Spares top' dest m₁ m₂) (hle : top ≤ top') :
    Spares top dest m m₂ := by
  intro b hb hdest
  rw [h₂ b (hb.mono hle) hdest, h₁ b hb hdest]

theorem offer (h : Spares top none m m₁) (dest : Option Slot) : Spares top dest m m₁ := by
  intro b hb _
  refine h b hb ?_
  intro d hd
  cases hd

theorem mono (h : Spares top' dest m m₁) (hle : top ≤ top') : Spares top dest m m₁ :=
  fun b hb hdest => h b (hb.mono hle) hdest

end Spares

end Store

/-- A scalar whose bytes are not free. -/
def Address.holds (a : Address) (top : Nat) (p : Prim) : Prop := ∀ i < p.size, (a.shift i).below top

theorem Address.holds.mono {a : Address} {top top' : Nat} {p : Prim} (h : a.holds top p)
    (hle : top ≤ top') : a.holds top' p := fun i hi => (h i hi).mono hle

theorem Address.holds_frame {offset top : Nat} {p : Prim} (h : offset + p.size ≤ top) :
    (Address.frame offset).holds top p := by
  intro i hi
  show offset + i < top
  omega

theorem Store.Spares.value {top : Nat} {m m' : Store} (h : Spares top none m m') {a : Address}
    {p : Prim} (ha : a.holds top p) : m'.value p a = m.value p a := by
  refine Store.value_congr ?_
  intro i hi
  refine h _ (ha i hi) ?_
  intro d hd
  cases hd

/-- What does not overlap with the destination keeps its value. -/
theorem Store.Spares.value_of_not_overlaps {top : Nat} {m m' : Store} {dest : Slot}
    (h : Spares top (some dest) m m') {a : Address} {p : Prim} (ha : a.holds top p)
    (hapart : ¬Slot.overlaps ⟨.prim p, a⟩ dest) : m'.value p a = m.value p a := by
  refine Store.value_congr ?_
  intro i hi
  refine h _ (ha i hi) ?_
  rintro _ ⟨⟩ hcovers
  exact hapart ⟨a.shift i, ⟨p, i, rfl, hi, rfl⟩, hcovers⟩

/-- Writing into fresh storage or into the destination. -/
theorem Store.spares_write {top : Nat} {dest : Option Slot} {m : Store} {a : Address} {p : Prim}
    {bs : List UInt8} (hlen : bs.length = p.size)
    (ha : (∃ n, a = .frame n ∧ top ≤ n) ∨ ∃ d ∈ dest, d.type = .prim p ∧ d.address = a) :
    Spares top dest m (m.write a bs) := by
  intro b hb hdest
  refine m.write_outside ?_
  rintro i hi rfl
  rw [hlen] at hi
  rcases ha with ⟨n, rfl, hn⟩ | ⟨d, hd, htype, rfl⟩
  · have hlt : n + i < top := hb
    omega
  · exact hdest d hd ⟨p, i, htype, hi, rfl⟩

/-! ## Variables -/

/-- The integral variable that a name stands for: its type and its place below `limit`. -/
def Scopes.integer? (s : Scopes) (limit : Nat) (name : String) : Option (Prim × Nat) :=
  match s.find? name with
  | some ⟨.variable ⟨.prim p, .frame offset, _, _⟩, _⟩ =>
    if p.isIntegral && offset + p.size ≤ limit then some (p, offset) else none
  | _ => none

/-- The values that the integral variables have. -/
def Scopes.valuesIn (s : Scopes) (limit : Nat) (m : Store) (name : String) : Int64 :=
  match s.integer? limit name with
  | some (p, offset) => m.value p (.frame offset)
  | none => 0

theorem Scopes.integer?_eq_some {s : Scopes} {limit : Nat} {name : String} {p : Prim}
    {offset : Nat} (h : s.integer? limit name = some (p, offset)) :
    p.isIntegral = true ∧ offset + p.size ≤ limit ∧ ∃ isConst span span',
      s.find? name = some ⟨.variable ⟨.prim p, .frame offset, isConst, span⟩, span'⟩ := by
  unfold integer? at h
  split at h
  · rename_i hfind
    split at h
    · rename_i hcond
      injection h with h
      injection h with hp hoffset
      subst hp hoffset
      obtain ⟨hint, hle⟩ := Bool.and_eq_true_iff.mp hcond
      exact ⟨hint, of_decide_eq_true hle, _, _, _, hfind⟩
    · cases h
  · cases h

/-- Variables keep their values as long as only free storage is written. -/
theorem Scopes.valuesIn_congr {s : Scopes} {limit top : Nat} {m m' : Store}
    (h : Store.Spares top none m m') (hle : limit ≤ top) :
    s.valuesIn limit m' = s.valuesIn limit m := by
  funext name
  unfold valuesIn
  split
  · rename_i p offset hint
    obtain ⟨_, hlimit, _⟩ := integer?_eq_some hint
    exact h.value (Address.holds_frame (Nat.le_trans hlimit hle))
  · rfl

namespace Lowering

open CompileM Machine

/-! ## Computing -/

/-- The state in which an expression with variables of `s` is compiled. -/
structure Ready (s : Scopes) (limit : Nat) (c : Compilation) : Prop where
  scopes : c.scopes = s
  limit : limit ≤ c.frame.top
  sound : c.literals.Sound

theorem Ready.adds {s : Scopes} {limit : Nat} {c c' : Compilation} {piece : List Instr}
    {made placed : List Label} (h : Ready s limit c) (hadds : Adds c c' piece made placed) :
    Ready s limit c' :=
  ⟨hadds.scopes.trans h.scopes, Nat.le_trans h.limit hadds.top,
    hadds.sound h.sound⟩

/-- A slot for a value of an integral type whose bytes are not free. -/
structure Integral (top : Nat) (slot : Slot) (p : Prim) : Prop where
  type : slot.type = .prim p
  integral : p.isIntegral = true
  holds : slot.address.holds top p

theorem Integral.mono {top top' : Nat} {slot : Slot} {p : Prim} (h : Integral top slot p)
    (hle : top ≤ top') : Integral top' slot p := ⟨h.type, h.integral, h.holds.mono hle⟩

/-- A destination is an integral slot. -/
def Offered (top : Nat) (dest : Option Slot) : Prop := ∀ d ∈ dest, ∃ p, Integral top d p

theorem Offered.mono {top top' : Nat} {dest : Option Slot} (h : Offered top dest)
    (hle : top ≤ top') : Offered top' dest := by
  intro d hd
  obtain ⟨p, hp⟩ := h d hd
  exact ⟨p, hp.mono hle⟩

theorem Offered.none (top : Nat) : Offered top none :=
  fun _ hd => absurd hd (Option.not_mem_none _)

/-- The piece of code computes `value`, a function of the values of the variables, into a slot of
type `p`. -/
structure Computes (u : Arithmetic) (s : Scopes) (limit : Nat) (dest : Option Slot)
    (c c' : Compilation) (piece : List Instr) (slot : Slot) (p : Prim)
    (value : (String → Int64) → Int64) : Prop where
  adds : Adds c c' piece [] []
  integral : Integral c'.frame.top slot p
  runs : ∀ m, c'.literals.InStore m → ∃ m', Runs u piece m m' ∧
    m'.value p slot.address = value (s.valuesIn limit m) ∧ m.Spares c.frame.top dest m'

theorem Computes.offer {u : Arithmetic} {s : Scopes} {limit : Nat} {c c' : Compilation}
    {piece : List Instr} {slot : Slot} {p : Prim} {value : (String → Int64) → Int64}
    (h : Computes u s limit none c c' piece slot p value) (dest : Option Slot) :
    Computes u s limit dest c c' piece slot p value where
  adds := h.adds
  integral := h.integral
  runs m hm := by
    obtain ⟨m', hruns, hvalue, hspares⟩ := h.runs m hm
    exact ⟨m', hruns, hvalue, hspares.offer dest⟩

section Steps

variable (u : Arithmetic) (s : Scopes) (limit : Nat) (dest : Option Slot)

/-- A step leaves code that computes `value` into the slot that it yields. -/
def Evaluates (step : CompileM Slot) (value : (String → Int64) → Int64) : Prop :=
  ∀ ⦃c c' slot⦄, Yields step c slot c' → Ready s limit c → Offered c.frame.top dest →
    ∃ piece p, Computes u s limit dest c c' piece slot p value

/-- A step leaves code that computes `value` as the word whose place it yields. -/
def EvaluatesWord (step : CompileM Address) (value : (String → Int64) → Int64) : Prop :=
  ∀ ⦃c c' a⦄, Yields step c a c' → Ready s limit c →
    ∃ piece, Computes u s limit none c c' piece ⟨.int, a⟩ .int value

/-- A step leaves code that computes `value` into a given slot, as far as its type can hold it. -/
def EvaluatesInto (step : Slot → CompileM Unit) (value : (String → Int64) → Int64) : Prop :=
  ∀ ⦃result p c c' v⦄, Yields (step result) c v c' → Ready s limit c →
    Integral c.frame.top result p →
    ∃ piece, Computes u s limit (some result) c c' piece result p fun env => p.fit (value env)

end Steps

end Lowering

end ClassLang
