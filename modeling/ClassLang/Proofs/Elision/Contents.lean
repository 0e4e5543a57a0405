import ClassLang.Proofs.Integer.Operations
import ClassLang.Proofs.Lowering.Fragment

/-!
# What slots hold

Values of any type are looked at as the bytes of their slots. A step of lowering that has no
control flow of its own reads its operands, takes some storage and writes its result: `Maps` says
so, and that what the result is made of is the same function of the operands wherever they and the
result are. Every step writes only fresh storage and the slot that it was offered for its result.
-/

namespace ClassLang

/-! ## Bytes of slots -/

namespace Slot

variable (r : Registry) (s : Slot)

/-- A byte of the slot. -/
def spans (b : Address) : Prop := ∃ i < r.length s.type, b = s.address.shift i

/-- The bytes of the slot are not free. -/
def below (top : Nat) : Prop := ∀ b, s.spans r b → b.below top

/-- The slot is in the frame, from `top` on. -/
def beyond (top : Nat) : Prop := ∃ n, s.address = .frame n ∧ top ≤ n

variable {r s}

theorem below.mono {top top' : Nat} (h : s.below r top) (hle : top ≤ top') : s.below r top' :=
  fun b hb => (h b hb).mono hle

theorem beyond.mono {top top' : Nat} (h : s.beyond top') (hle : top ≤ top') : s.beyond top := by
  obtain ⟨n, hn, htop⟩ := h
  exact ⟨n, hn, Nat.le_trans hle htop⟩

/-- A slot at the top of the frame is not free any more when its bytes are taken. -/
theorem below_grow (t : Ty) (n : Nat) : (⟨t, .frame n⟩ : Slot).below r (n + r.length t) := by
  rintro b ⟨i, hi, rfl⟩
  exact Nat.add_lt_add_left hi n

/-- What is not free does not lie in free storage. -/
theorem beyond.not_spans {top : Nat} {b : Address} (h : s.beyond top) (hb : b.below top) :
    ¬s.spans r b := by
  rintro ⟨i, _, rfl⟩
  obtain ⟨n, hn, hle⟩ := h
  rw [hn] at hb
  exact absurd (Nat.lt_of_le_of_lt (Nat.le_add_right n i) hb) (Nat.not_lt.mpr hle)

variable (r) in
/-- The slots are the same, or have no byte in common. -/
def apart (s t : Slot) : Prop := s = t ∨ ∀ b, s.spans r b → ¬t.spans r b

/-- Fresh storage is apart from what is not free. -/
theorem below.apart {t : Slot} {top : Nat} (hs : s.below r top) (ht : t.beyond top) :
    s.apart r t := .inr fun b hb => ht.not_spans (hs b hb)

end Slot

namespace Store

variable {r : Registry} {m m₁ m₂ : Store} {s : Slot} {top top' : Nat} {dest : Option Slot}

/-- The bytes of a slot. -/
def contents (m : Store) (r : Registry) (s : Slot) : List UInt8 :=
  m.read s.address (r.length s.type)

theorem length_contents (m : Store) (r : Registry) (s : Slot) :
    (m.contents r s).length = r.length s.type := m.length_read ..

theorem contents_congr (h : ∀ b, s.spans r b → m₁ b = m b) :
    m₁.contents r s = m.contents r s := read_congr fun i hi => h _ ⟨i, hi, rfl⟩

/-- Slots that hold the same hold the same bytes. -/
theorem eq_of_contents_eq (h : m₁.contents r s = m.contents r s) {b : Address}
    (hb : s.spans r b) : m₁ b = m b := by
  obtain ⟨i, hi, rfl⟩ := hb
  have hget := congrArg (·[i]?) h
  simpa [contents, read, hi] using hget

theorem contents_write {bs : List UInt8} (h : bs.length = r.length s.type) :
    (m.write s.address bs).contents r s = bs := by
  rw [contents, ← h]
  exact m.read_write ..

/-- The bytes that are not free are the same, except for those of a destination. -/
def Leaves (r : Registry) (top : Nat) (dest : Option Slot) (m m' : Store) : Prop :=
  ∀ b, b.below top → (∀ d ∈ dest, ¬d.spans r b) → m' b = m b

namespace Leaves

theorem refl (r : Registry) (top : Nat) (dest : Option Slot) (m : Store) :
    m.Leaves r top dest m := fun _ _ _ => rfl

theorem trans (h₁ : m.Leaves r top dest m₁) (h₂ : m₁.Leaves r top' dest m₂) (hle : top ≤ top') :
    m.Leaves r top dest m₂ := by
  intro b hb hdest
  rw [h₂ b (hb.mono hle) hdest, h₁ b hb hdest]

theorem offer (h : m.Leaves r top none m₁) (dest : Option Slot) : m.Leaves r top dest m₁ :=
  fun b hb _ => h b hb fun _ hd => absurd hd (Option.not_mem_none _)

theorem mono (h : m.Leaves r top' dest m₁) (hle : top ≤ top') : m.Leaves r top dest m₁ :=
  fun b hb => h b (hb.mono hle)

theorem contents (h : m.Leaves r top none m₁) (hs : s.below r top) :
    m₁.contents r s = m.contents r s :=
  contents_congr fun b hb => h b (hs b hb) fun _ hd => absurd hd (Option.not_mem_none _)

/-- Free storage may be written. -/
theorem write_beyond (h : s.beyond top) (bs : List UInt8) :
    m.Leaves r top dest (m.write s.address bs) := by
  intro b hb _
  refine m.write_outside ?_
  rintro i _ rfl
  obtain ⟨n, hn, hle⟩ := h
  rw [hn] at hb
  exact absurd (Nat.lt_of_le_of_lt (Nat.le_add_right n i) hb) (Nat.not_lt.mpr hle)

/-- The destination may be written. -/
theorem write (h : s.beyond top ∨ s ∈ dest) {bs : List UInt8}
    (hlen : bs.length ≤ r.length s.type) : m.Leaves r top dest (m.write s.address bs) := by
  rcases h with h | h
  · exact write_beyond h bs
  · intro b _ hdest
    refine m.write_outside ?_
    intro i hi heq
    exact hdest s h ⟨i, Nat.lt_of_lt_of_le hi hlen, heq⟩

end Leaves

end Store

/-! ## Steps -/

namespace Elision

open CompileM Lowering Machine

/-- A step from `c` to `c'` adds `piece`, whatever becomes of labels. -/
def Grows (c c' : Compilation) (piece : List Instr) : Prop :=
  ∃ made placed, Adds c c' piece made placed

namespace Grows

variable {c c₁ c₂ : Compilation} {s₁ s₂ : List Instr}

theorem of_adds {made placed : List Label} (h : Adds c c₁ s₁ made placed) : Grows c c₁ s₁ :=
  ⟨made, placed, h⟩

theorem nil (c : Compilation) : Grows c c [] := .of_adds (.nil c)

theorem trans (h₁ : Grows c c₁ s₁) (h₂ : Grows c₁ c₂ s₂) : Grows c c₂ (s₁ ++ s₂) := by
  obtain ⟨_, _, h₁⟩ := h₁
  obtain ⟨_, _, h₂⟩ := h₂
  exact .of_adds (h₁.trans h₂)

theorem emit (c : Compilation) (i : Instr) : Grows c (c.add [i]) [i] := by
  by_cases h : i.isLabel = true
  · cases i with
    | label l => exact .of_adds (adds_label c l)
    | _ => cases h
  · exact .of_adds (adds_emit (Bool.eq_false_iff.mpr h))

theorem top (h : Grows c c₁ s₁) : c.frame.top ≤ c₁.frame.top := by
  obtain ⟨_, _, h⟩ := h
  exact h.top

theorem context (h : Grows c c₁ s₁) : c₁.context = c.context := by
  obtain ⟨_, _, h⟩ := h
  exact h.context

theorem registry (h : Grows c c₁ s₁) : c₁.registry = c.registry := by
  obtain ⟨_, _, h⟩ := h
  exact h.registry

theorem code (h : Grows c c₁ s₁) : c₁.frame.code.toList = c.frame.code.toList ++ s₁ := by
  obtain ⟨_, _, h⟩ := h
  exact h.code

end Grows

end Elision

end ClassLang
