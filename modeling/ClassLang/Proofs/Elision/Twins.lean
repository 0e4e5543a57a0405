import ClassLang.Proofs.Elision.Pointers

/-!
# Two compilations side by side

The same expression is compiled twice, and the two pieces of code are run from stores that agree on
the variables and literals. What belongs to the two compilations is written as a family over
`Bool`. They take different storage for their temporaries, and one of them may write a result into
the destination that it was offered before the other does, so what they have in common is this:

- a value is a variable or a literal, the same in both, or each has it in storage of its own;
- outside of the destinations, variables and literals are the same in both stores;
- temporaries that were taken before keep what they hold.

Operands are compiled without a destination, so the stores agree on all variables when the next
operand is computed.
-/

namespace ClassLang

/-- A byte that a variable may take: in the frame below `top`, or global. -/
def Address.assignable (top : Nat) : Address → Prop
  | frame n => n < top
  | global _ => True
  | literal _ => False

theorem Address.assignable.below {a : Address} {top : Nat} (h : a.assignable top) :
    a.below top := by
  cases a with
  | frame n => exact h
  | _ => trivial

namespace Elision

open CompileM Lowering Machine

/-- What two compilations have in common: the machine, the registry, the scopes, the end of the
frame when they start, and the slots of the variables. -/
structure Layout where
  machine : Arithmetic
  registry : Registry
  scopes : Scopes
  limit : Nat
  isVariable : Slot → Prop
  stores : Stores machine registry
  assignable : ∀ v, isVariable v → ∀ b, v.spans registry b → b.assignable limit
  apart : ∀ v v', isVariable v → isVariable v' → v.apart registry v'
  /-- A pointer to a number that was stored can be read. -/
  pointee : ∀ p offset, p.isNumeric = true → isVariable ⟨.prim p, .frame offset⟩ →
    machine.pointee (machine.pointer (.frame offset)) = .frame offset

variable {w : Layout} {c c₁ c₂ c' : Bool → Compilation} {dest : Bool → Option Slot}
  {slot : Bool → Slot}

/-- No destination. -/
def nowhere : Bool → Option Slot := fun _ => none

/-- The tops of the two frames. -/
def tops (c : Bool → Compilation) : Bool → Nat := fun i => (c i).frame.top

/-- The states in which an expression is compiled twice. -/
structure Twins (w : Layout) (c : Bool → Compilation) : Prop where
  registry : ∀ i, (c i).registry = w.registry
  scopes : ∀ i, (c i).scopes = w.scopes
  limit : ∀ i, w.limit ≤ (c i).frame.top
  literals : ∀ i j, (c i).literals = (c j).literals

theorem Twins.grows {piece : Bool → List Instr} (h : Twins w c)
    (hgrows : ∀ i, Grows (c i) (c' i) (piece i))
    (hliterals : ∀ i j, (c' i).literals = (c' j).literals) : Twins w c' where
  registry i := (hgrows i).registry.trans (h.registry i)
  scopes i := by
    have hcontext := congrArg Compilation.scopes (hgrows i).context
    exact Eq.trans hcontext (h.scopes i)
  limit i := Nat.le_trans (h.limit i) (hgrows i).top
  literals := hliterals

/-- Steps that leave the pool alone. -/
theorem Twins.step {piece : Bool → List Instr} (h : Twins w c)
    (hgrows : ∀ i, Grows (c i) (c' i) (piece i))
    (hliterals : ∀ i, (c' i).literals = (c i).literals) : Twins w c' := by
  refine h.grows hgrows fun i j => ?_
  rw [hliterals i, hliterals j]
  exact h.literals i j

/-! ## Where values are -/

/-- A place that the two have in common: a variable or a literal. -/
def Fixed (w : Layout) (v : Slot) : Prop := w.isVariable v ∨ ∃ n, v.address = .literal n

theorem Fixed.below {v : Slot} (h : Fixed w v) : v.below w.registry w.limit := by
  intro b hb
  rcases h with h | ⟨n, h⟩
  · exact (w.assignable v h b hb).below
  · obtain ⟨i, _, rfl⟩ := hb
    rw [h]
    trivial

/-- Results may go to a variable, or to storage that was taken since. -/
def Offered (w : Layout) (c : Bool → Compilation) (dest : Bool → Option Slot) : Prop :=
  ∀ i, ∀ d ∈ dest i, d.below w.registry (c i).frame.top ∧ (w.isVariable d ∨ d.beyond w.limit)

theorem offered_nowhere (w : Layout) (c : Bool → Compilation) : Offered w c nowhere :=
  fun _ _ hd => absurd hd (Option.not_mem_none _)

theorem Offered.mono (h : Offered w c dest) (hle : ∀ i, tops c i ≤ tops c' i) :
    Offered w c' dest := fun i d hd => ⟨(h i d hd).1.mono (hle i), (h i d hd).2⟩

theorem Offered.below (h : Offered w c dest) (i : Bool) :
    ∀ d ∈ dest i, d.below w.registry (c i).frame.top := fun d hd => (h i d hd).1

/-- A value is fixed, or each of the two has it in storage taken since `c` or in the destination. -/
def Rests (w : Layout) (dest : Bool → Option Slot) (c c' : Bool → Compilation)
    (slot : Bool → Slot) : Prop :=
  (∃ v, Fixed w v ∧ ∀ i, slot i = v) ∨
    ∀ i, (slot i).beyond (tops c i) ∧ (slot i).below w.registry (tops c' i) ∨ slot i ∈ dest i

namespace Rests

theorem of_receives (h : ∀ i, (slot i).beyond (tops c i) ∨ slot i ∈ dest i)
    (hbelow : ∀ i, (slot i).below w.registry (tops c' i)) : Rests w dest c c' slot :=
  .inr fun i => (h i).imp_left fun hbeyond => ⟨hbeyond, hbelow i⟩

theorem below (h : Rests w dest c c' slot) (htwins : Twins w c')
    (hoffered : Offered w c' dest) (i : Bool) : (slot i).below w.registry (tops c' i) := by
  rcases h with ⟨v, hv, hslot⟩ | hown
  · rw [hslot i]
    exact hv.below.mono (htwins.limit i)
  · rcases hown i with ⟨_, hbelow⟩ | hdest
    · exact hbelow
    · exact (hoffered i _ hdest).1

/-- A value is in the destination or apart from it. -/
theorem apart (h : Rests w dest c c' slot) (hoffered : Offered w c dest) (i : Bool) :
    ∀ d ∈ dest i, (slot i).apart w.registry d := by
  intro d hd
  obtain ⟨hbelow, hkind⟩ := hoffered i d hd
  rcases h with ⟨v, hv, hslot⟩ | hown
  · rw [hslot i]
    rcases hkind with hvariable | hbeyond
    · rcases hv with hv | ⟨n, hn⟩
      · exact w.apart v d hv hvariable
      · refine .inr fun b hb hspans => ?_
        have hassignable := w.assignable d hvariable b hspans
        obtain ⟨k, _, rfl⟩ := hb
        rw [hn] at hassignable
        exact hassignable
    · exact hv.below.apart hbeyond
  · rcases hown i with ⟨hbeyond, _⟩ | hdest
    · exact .inr fun b hb hspans => hbeyond.not_spans (hbelow b hspans) hb
    · exact .inl (Option.mem_unique hdest hd)

theorem mono (h : Rests w dest c₁ c₂ slot) (hle : ∀ i, tops c i ≤ tops c₁ i)
    (hle' : ∀ i, tops c₂ i ≤ tops c' i) : Rests w dest c c' slot := by
  refine h.imp_right fun hown i => ?_
  exact (hown i).imp_left fun ⟨hbeyond, hbelow⟩ => ⟨hbeyond.mono (hle i), hbelow.mono (hle' i)⟩

theorem offer (h : Rests w nowhere c c' slot) (dest : Bool → Option Slot) :
    Rests w dest c c' slot :=
  h.imp_right fun hown i => (hown i).imp_right fun hd => absurd hd (Option.not_mem_none _)

end Rests

/-! ## What stores have in common -/

variable {m m₁ m₂ m' : Bool → Store} {top top' : Bool → Nat}

/-- The stores agree on variables and literals. -/
def Common (w : Layout) (m : Bool → Store) : Prop :=
  ∀ b, b.below w.limit → ∀ i j, m i b = m j b

/-- The two have the same value in their slots. -/
def Agree (w : Layout) (m : Bool → Store) (slot : Bool → Slot) : Prop :=
  ∀ i j, (m i).contents w.registry (slot i) = (m j).contents w.registry (slot j)

/-- From `m` to `m'`, storage that was taken before is kept, and what the two have in common stays
so, except for the destinations. -/
structure Kept (w : Layout) (dest : Bool → Option Slot) (top : Bool → Nat) (m m' : Bool → Store) :
    Prop where
  own : ∀ i n, w.limit ≤ n → n < top i → (∀ d ∈ dest i, ¬d.spans w.registry (.frame n)) →
    m' i (.frame n) = m i (.frame n)
  common : ∀ b, b.below w.limit → (∀ i, ∀ d ∈ dest i, ¬d.spans w.registry b) →
    ∀ i j, m' i b = m' j b

namespace Kept

theorem commonly (h : Kept w nowhere top m m') : Common w m' :=
  fun b hb => h.common b hb fun _ _ hd => absurd hd (Option.not_mem_none _)

theorem offer (h : Kept w nowhere top m m') (dest : Bool → Option Slot) :
    Kept w dest top m m' where
  own i n hn htop _ := h.own i n hn htop fun _ hd => absurd hd (Option.not_mem_none _)
  common b hb _ := h.commonly b hb

theorem mono (h : Kept w dest top' m m') (hle : ∀ i, top i ≤ top' i) : Kept w dest top m m' where
  own i n hn htop := h.own i n hn (Nat.lt_of_lt_of_le htop (hle i))
  common := h.common

theorem trans (h₁ : Kept w nowhere top m m₁) (h₂ : Kept w dest top' m₁ m₂)
    (hle : ∀ i, top i ≤ top' i) : Kept w dest top m m₂ where
  own i n hn htop hdest := by
    rw [h₂.own i n hn (Nat.lt_of_lt_of_le htop (hle i)) hdest]
    exact (h₁.offer dest).own i n hn htop hdest
  common := h₂.common

/-- A step that leaves everything but its destination alone, on both sides. -/
theorem leave (h : Kept w dest top m m₁)
    (hleaves : ∀ i, (m₁ i).Leaves w.registry (top' i) (dest i) (m₂ i))
    (hle : ∀ i, top i ≤ top' i) (hlimit : ∀ i, w.limit ≤ top' i) : Kept w dest top m m₂ where
  own i n hn htop hdest := by
    rw [hleaves i (.frame n) (Nat.lt_of_lt_of_le htop (hle i)) hdest]
    exact h.own i n hn htop hdest
  common b hb hdest i j := by
    rw [hleaves i b (hb.mono (hlimit i)) (hdest i), hleaves j b (hb.mono (hlimit j)) (hdest j)]
    exact h.common b hb hdest i j

theorem refl (hm : Common w m) : Kept w dest top m m where
  own _ _ _ _ _ := rfl
  common b hb _ := hm b hb

/-- What was written for a result was written for the destination. -/
theorem of_result {result : Bool → Slot} (h : Kept w (fun i => some (result i)) top' m m')
    (hresult : ∀ i, (result i).beyond (top i) ∨ result i ∈ dest i)
    (hle : ∀ i, top i ≤ top' i) (hlimit : ∀ i, w.limit ≤ top i) : Kept w dest top m m' := by
  have hspans : ∀ {i b}, b.below (top i) → (∀ d ∈ dest i, ¬d.spans w.registry b) →
      ∀ d ∈ some (result i), ¬d.spans w.registry b := by
    intro i b hb hdest d hd
    obtain rfl := Option.some.inj hd
    exact (hresult i).elim (fun hbeyond => hbeyond.not_spans hb) (hdest _)
  refine ⟨fun i n hn htop hdest => ?_, fun b hb hdest => ?_⟩
  · exact h.own i n hn (Nat.lt_of_lt_of_le htop (hle i)) (hspans htop hdest)
  · exact h.common b hb fun i => hspans (hb.mono (hlimit i)) (hdest i)

/-- When both have written a variable, they agree on all of them. -/
theorem of_variable {v : Slot} (h : Kept w (fun _ => some v) top m m') (hv : w.isVariable v)
    (hagree : Agree w m' fun _ => v) : Kept w nowhere top m m' where
  own i n hn htop _ := by
    refine h.own i n hn htop ?_
    intro d hd hspans
    obtain rfl := Option.some.inj hd
    exact absurd (w.assignable v hv _ hspans) (Nat.not_lt.mpr hn)
  common b hb _ i j := by
    by_cases hspans : v.spans w.registry b
    · exact Store.eq_of_contents_eq (hagree i j) hspans
    · refine h.common b hb (fun _ d hd => ?_) i j
      obtain rfl := Option.some.inj hd
      exact hspans

end Kept

/-- A value that was computed without a destination stays what it is. -/
theorem Agree.kept (h : Agree w m slot) (hrests : Rests w nowhere c c₁ slot) (htwins : Twins w c)
    (hkept : Kept w nowhere (tops c₁) m m') : Agree w m' slot := by
  rcases hrests with ⟨v, hv, hslot⟩ | hown
  · intro i j
    rw [hslot i, hslot j]
    exact Store.contents_congr fun b hb => hkept.commonly b (hv.below b hb) i j
  · have hsame : ∀ i, (m' i).contents w.registry (slot i) = (m i).contents w.registry (slot i) := by
      intro i
      refine Store.contents_congr fun b hb => ?_
      obtain ⟨⟨n, hn, htop⟩, hbelow⟩ :=
        (hown i).resolve_right (Option.not_mem_none _)
      have hlt := hbelow b hb
      obtain ⟨k, _, rfl⟩ := hb
      rw [hn] at hlt ⊢
      exact hkept.own i (n + k)
        (Nat.le_trans (htwins.limit i) (Nat.le_trans htop (Nat.le_add_right n k))) hlt
        fun _ hd => absurd hd (Option.not_mem_none _)
    intro i j
    rw [hsame i, hsame j]
    exact h i j

end Elision

end ClassLang
