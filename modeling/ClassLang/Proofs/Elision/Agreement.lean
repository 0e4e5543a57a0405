import ClassLang.Proofs.Elision.Twins

/-!
# Expressions that agree

`Computes` says of two pieces of code, compiled from the same expression, that they run to their
ends and leave the same value, each in its own slot. An expression that is an address also leaves
a pointer to a variable, so that reading through it is reading a variable.
-/

namespace ClassLang.Elision

open CompileM Lowering Machine

variable {w : Layout} {c c₁ c₂ c' : Bool → Compilation} {dest : Bool → Option Slot}
  {slot src : Bool → Slot} {m m' : Bool → Store}

/-! ## Pointers to variables -/

/-- A pointer to a number. -/
def IsPointer (t : Ty) : Prop := ∃ p : Prim, p.isNumeric = true ∧ t = .pointer (.prim p)

/-- The bytes are a pointer to a variable. -/
def Points (w : Layout) (t : Ty) (bs : List UInt8) : Prop :=
  ∃ p offset, t = .pointer (.prim p) ∧ w.isVariable ⟨.prim p, .frame offset⟩ ∧
    bs = w.machine.pointer (.frame offset)

/-- Pointers to numbers of different types do not convert. -/
theorem IsPointer.eq_of_converts {r : Registry} {s t : Ty} (hs : IsPointer s) (ht : IsPointer t)
    (h : r.converts s t = true) : s = t := by
  obtain ⟨p, hp, rfl⟩ := hs
  obtain ⟨q, hq, rfl⟩ := ht
  by_contra hne
  have hvoid : ∀ {p : Prim}, p.isNumeric = true → (Ty.prim p).isVoid = false := by
    intro p hp
    cases p <;> first | rfl | cases hp
  have hnone : r.conversion? (.pointer (.prim p)) (.pointer (.prim q)) = none := by
    unfold Registry.conversion?
    rw [Registry.conversionAlong?_plain _ _ _ rfl, if_neg hne]
    simp only [Registry.plainAlong?, Registry.plainConversion?, hvoid hp, hvoid hq,
      Bool.false_eq_true, if_false]
    rfl
  rw [Registry.converts, hnone] at h
  cases h

/-! ## Computing -/

/-- The two pieces of code leave the same value of type `t`. If the value `points`, it is a pointer
to a variable. -/
structure Computes (w : Layout) (dest : Bool → Option Slot) (c c' : Bool → Compilation)
    (piece : Bool → List Instr) (slot : Bool → Slot) (t : Ty) (points : Prop) : Prop where
  grows : ∀ i, Grows (c i) (c' i) (piece i)
  literals : ∀ i j, (c' i).literals = (c' j).literals
  type : ∀ i, (slot i).type = t
  rests : Rests w dest c c' slot
  pointer : points → IsPointer t
  runs : ∀ m, Common w m → ∃ m', (∀ i, Runs w.machine (piece i) (m i) (m' i)) ∧ Agree w m' slot ∧
    (points → ∀ i, Points w t ((m' i).contents w.registry (slot i))) ∧ Kept w dest (tops c) m m'

/-- The two pieces of code leave the same word. -/
structure Decides (w : Layout) (c c' : Bool → Compilation) (piece : Bool → List Instr)
    (a : Bool → Address) : Prop where
  grows : ∀ i, Grows (c i) (c' i) (piece i)
  literals : ∀ i j, (c' i).literals = (c' j).literals
  runs : ∀ m, Common w m → ∃ m', (∀ i, Runs w.machine (piece i) (m i) (m' i)) ∧
    (∀ i j, (m' i).word (a i) = (m' j).word (a j)) ∧ Kept w nowhere (tops c) m m'

/-- The two pieces of code leave the same value in given slots. -/
structure Fills (w : Layout) (result : Bool → Slot) (c c' : Bool → Compilation)
    (piece : Bool → List Instr) : Prop where
  grows : ∀ i, Grows (c i) (c' i) (piece i)
  literals : ∀ i j, (c' i).literals = (c' j).literals
  runs : ∀ m, Common w m → ∃ m', (∀ i, Runs w.machine (piece i) (m i) (m' i)) ∧
    Agree w m' result ∧ Kept w (fun i => some (result i)) (tops c) m m'

section Steps

variable (w : Layout)

/-- Two steps leave code that computes the same value. -/
def Agrees (dest : Bool → Option Slot) (step : Bool → CompileM Slot) (points : Prop) : Prop :=
  ∀ ⦃c c' slot⦄, (∀ i, Yields (step i) (c i) (slot i) (c' i)) → Twins w c → Offered w c dest →
    ∃ piece t, Computes w dest c c' piece slot t points

/-- Two steps leave code that makes the same decision. -/
def AgreesWord (step : Bool → CompileM Address) : Prop :=
  ∀ ⦃c c' a⦄, (∀ i, Yields (step i) (c i) (a i) (c' i)) → Twins w c →
    ∃ piece, Decides w c c' piece a

/-- Two steps leave code that computes the same value into slots of one type. -/
def AgreesInto (step : Bool → Slot → CompileM Unit) : Prop :=
  ∀ ⦃result c c'⦄ ⦃v : Bool → Unit⦄, (∀ i, Yields (step i (result i)) (c i) (v i) (c' i)) → Twins w c →
    Offered w c (fun i => some (result i)) → (∀ i j, (result i).type = (result j).type) →
    ∃ piece, Fills w result c c' piece

end Steps

theorem Computes.twins {piece : Bool → List Instr} {t : Ty} {points : Prop}
    (h : Computes w dest c c' piece slot t points) (htwins : Twins w c) : Twins w c' :=
  htwins.grows h.grows h.literals

theorem Decides.twins {piece : Bool → List Instr} {a : Bool → Address}
    (h : Decides w c c' piece a) (htwins : Twins w c) : Twins w c' :=
  htwins.grows h.grows h.literals

theorem Fills.twins {piece : Bool → List Instr} {result : Bool → Slot}
    (h : Fills w result c c' piece) (htwins : Twins w c) : Twins w c' :=
  htwins.grows h.grows h.literals

theorem Computes.top_le {piece : Bool → List Instr} {t : Ty} {points : Prop}
    (h : Computes w dest c c' piece slot t points) (i : Bool) : tops c i ≤ tops c' i :=
  (h.grows i).top

/-- What was computed without a destination could have been offered one. -/
theorem Computes.offer {piece : Bool → List Instr} {t : Ty} {points : Prop}
    (h : Computes w nowhere c c' piece slot t points) (dest : Bool → Option Slot) :
    Computes w dest c c' piece slot t points where
  grows := h.grows
  literals := h.literals
  type := h.type
  rests := h.rests.offer dest
  pointer := h.pointer
  runs m hm := by
    obtain ⟨m', hruns, hagree, hpoints, hkept⟩ := h.runs m hm
    exact ⟨m', hruns, hagree, hpoints, hkept.offer dest⟩

/-- A variable or a literal, which takes no code. -/
theorem computes_fixed {v : Slot} (hv : Fixed w v) (hgrows : ∀ i, Grows (c i) (c' i) [])
    (hliterals : ∀ i j, (c' i).literals = (c' j).literals) :
    Computes w dest c c' (fun _ => []) (fun _ => v) v.type False where
  grows := hgrows
  literals := hliterals
  type _ := rfl
  rests := .inl ⟨v, hv, fun _ => rfl⟩
  pointer h := h.elim
  runs m hm := by
    refine ⟨m, fun i => .nil (m i), ?_, False.elim, .refl hm⟩
    exact fun i j => Store.contents_congr fun b hb => hm b (hv.below b hb) i j

/-! ## Steps without control flow -/

/-- A step on both sides that makes the same of stores that agree. -/
theorem Computes.of_produces {s : Bool → List Instr} {t : Ty} {points : Prop}
    {value : Bool → Store → List UInt8}
    (h : ∀ i, Produces w.machine w.registry (dest i) (c i) (c' i) (s i) (slot i) t (value i))
    (htwins : Twins w c) (hpointer : points → IsPointer t)
    (hvalue : ∀ m, Common w m → (∀ i j, value i (m i) = value j (m j)) ∧
      (points → ∀ i, Points w t (value i (m i)))) :
    Computes w dest c c' s slot t points where
  grows i := (h i).grows
  literals := (htwins.step (fun i => (h i).grows) fun i => (h i).literals).literals
  type i := (h i).type
  rests := .of_receives (fun i => (h i).writable) fun i => (h i).below
  pointer := hpointer
  runs m hm := by
    choose m' hruns hcontents hleaves using fun i => (h i).runs (m i)
    obtain ⟨hsame, hpoints⟩ := hvalue m hm
    refine ⟨m', hruns, fun i j => ?_, fun hp i => ?_, ?_⟩
    · rw [hcontents i, hcontents j]
      exact hsame i j
    · rw [hcontents i]
      exact hpoints hp i
    · exact (Kept.refl hm).leave hleaves (fun _ => Nat.le_refl _) htwins.limit

/-- A step on a value that was computed before. -/
theorem Computes.produce {s₁ s₂ : Bool → List Instr} {t t' : Ty} {points points' : Prop}
    {value : Bool → Store → List UInt8} (h₁ : Computes w nowhere c c₁ s₁ src t points)
    (htwins : Twins w c)
    (h₂ : ∀ i, Produces w.machine w.registry (dest i) (c₁ i) (c' i) (s₂ i) (slot i) t' (value i))
    (hpointer : points' → IsPointer t')
    (hvalue : ∀ m, Common w m → Agree w m src →
      (points → ∀ i, Points w t ((m i).contents w.registry (src i))) →
      (∀ i j, value i (m i) = value j (m j)) ∧ (points' → ∀ i, Points w t' (value i (m i)))) :
    Computes w dest c c' (fun i => s₁ i ++ s₂ i) slot t' points' where
  grows i := (h₁.grows i).trans (h₂ i).grows
  literals := ((h₁.twins htwins).step (fun i => (h₂ i).grows) fun i => (h₂ i).literals).literals
  type i := (h₂ i).type
  rests := .of_receives (fun i => (h₂ i).writable.imp_left fun h => h.mono (h₁.top_le i))
    fun i => (h₂ i).below
  pointer := hpointer
  runs m hm := by
    obtain ⟨m₁, hruns₁, hagree, hpoints, hkept⟩ := h₁.runs m hm
    choose m₂ hruns₂ hcontents hleaves using fun i => (h₂ i).runs (m₁ i)
    obtain ⟨hsame, hpoints'⟩ := hvalue m₁ hkept.commonly hagree hpoints
    refine ⟨m₂, fun i => (hruns₁ i).trans (hruns₂ i), fun i j => ?_, fun hp i => ?_, ?_⟩
    · rw [hcontents i, hcontents j]
      exact hsame i j
    · rw [hcontents i]
      exact hpoints' hp i
    · exact (hkept.offer dest).leave hleaves h₁.top_le (h₁.twins htwins).limit

/-- A step with one operand that makes a function of its bytes. -/
theorem Agrees.map {step : Bool → CompileM Slot} {next : Bool → Slot → CompileM Slot}
    {points : Prop} (h : Agrees w nowhere step points) (result : Ty → Ty)
    (f : Ty → List UInt8 → List UInt8)
    (hnext : ∀ ⦃i c c' value slot⦄, c.registry = w.registry →
      value.below w.registry c.frame.top → (∀ d ∈ dest i, d.below w.registry c.frame.top) →
      Yields (next i value) c slot c' →
      ∃ piece, Produces w.machine w.registry (dest i) c c' piece slot (result value.type)
        fun m => f value.type (m.contents w.registry value)) :
    Agrees w dest (fun i => step i >>= next i) False := by
  intro c c' slot hrun htwins hoffered
  simp only [yields_bind] at hrun
  choose src c₁ hstep hrun using hrun
  obtain ⟨s₁, t, hcomputes⟩ := h hstep htwins (offered_nowhere w c)
  have htwins₁ := hcomputes.twins htwins
  have hoffered₁ := hoffered.mono hcomputes.top_le
  have hbelow := hcomputes.rests.below htwins₁ (offered_nowhere w c₁)
  choose s₂ hproduces using fun i => hnext (htwins₁.registry i) (hbelow i) (hoffered₁.below i)
    (hrun i)
  simp only [hcomputes.type] at hproduces
  refine ⟨_, _, hcomputes.produce htwins hproduces False.elim ?_⟩
  exact fun m _ hagree _ => ⟨fun i j => congrArg (f t) (hagree i j), False.elim⟩

/-- A step with two operands that makes a function of their bytes. The first is still there when
the second has been computed, because that was compiled without a destination. -/
theorem Agrees.map₂ {left right : Bool → CompileM Slot} {next : Bool → Slot → Slot → CompileM Slot}
    {points points' : Prop} (hleft : Agrees w nowhere left points)
    (hright : Agrees w nowhere right points') (result : Ty → Ty → Ty)
    (f : Ty → Ty → List UInt8 → List UInt8 → List UInt8)
    (hnext : ∀ ⦃i c c' lhs rhs slot⦄, c.registry = w.registry →
      lhs.below w.registry c.frame.top → rhs.below w.registry c.frame.top →
      (∀ d ∈ dest i, d.below w.registry c.frame.top) → Yields (next i lhs rhs) c slot c' →
      ∃ piece, Produces w.machine w.registry (dest i) c c' piece slot (result lhs.type rhs.type)
        fun m => f lhs.type rhs.type (m.contents w.registry lhs) (m.contents w.registry rhs)) :
    Agrees w dest (fun i => do next i (← left i) (← right i)) False := by
  intro c c' slot hrun htwins hoffered
  simp only [yields_bind] at hrun
  choose lhs c₁ hl rhs c₂ hr hrun using hrun
  obtain ⟨s₁, t, hlhs⟩ := hleft hl htwins (offered_nowhere w c)
  have htwins₁ := hlhs.twins htwins
  obtain ⟨s₂, t', hrhs⟩ := hright hr htwins₁ (offered_nowhere w c₁)
  have htwins₂ := hrhs.twins htwins₁
  have hoffered₂ := (hoffered.mono hlhs.top_le).mono hrhs.top_le
  have hlbelow := fun i =>
    (hlhs.rests.below htwins₁ (offered_nowhere w c₁) i).mono (hrhs.top_le i)
  have hrbelow := hrhs.rests.below htwins₂ (offered_nowhere w c₂)
  choose s₃ hproduces using fun i => hnext (htwins₂.registry i) (hlbelow i) (hrbelow i)
    (hoffered₂.below i) (hrun i)
  simp only [hlhs.type, hrhs.type] at hproduces
  have hgrows := fun i => (hlhs.grows i).trans ((hrhs.grows i).trans (hproduces i).grows)
  refine ⟨_, result t t', hgrows, ?_, fun i => (hproduces i).type, ?_, False.elim, fun m hm => ?_⟩
  · exact (htwins₂.step (fun i => (hproduces i).grows) fun i => (hproduces i).literals).literals
  · refine .of_receives (fun i => (hproduces i).writable.imp_left fun h => ?_) fun i =>
      (hproduces i).below
    exact h.mono (Nat.le_trans (hlhs.top_le i) (hrhs.top_le i))
  · obtain ⟨m₁, hruns₁, hagree₁, _, hkept₁⟩ := hlhs.runs m hm
    obtain ⟨m₂, hruns₂, hagree₂, _, hkept₂⟩ := hrhs.runs m₁ hkept₁.commonly
    choose m₃ hruns₃ hcontents hleaves using fun i => (hproduces i).runs (m₂ i)
    -- The right operand leaves alone what lies below its frame, so the left one is still there.
    have hagree₁ := hagree₁.kept hlhs.rests htwins hkept₂
    have hkept := (hkept₁.trans hkept₂ hlhs.top_le).offer dest
    refine ⟨m₃, fun i => (hruns₁ i).trans ((hruns₂ i).trans (hruns₃ i)), fun i j => ?_,
      False.elim, ?_⟩
    · rw [hcontents i, hcontents j, hagree₁ i j, hagree₂ i j]
    · exact hkept.leave hleaves (fun i => Nat.le_trans (hlhs.top_le i) (hrhs.top_le i))
        htwins₂.limit

/-! ## Uses of a value -/

/-- A result in a slot is read without any code. -/
theorem Agrees.slotPlace {step : Bool → CompileM Slot} {points : Prop}
    (h : Agrees w dest step points) :
    Agrees w dest (fun i => asSlot (slotPlace (step i)) (dest i)) points := by
  intro c c' slot hrun
  have hstep : ∀ i, Yields (step i) (c i) (slot i) (c' i) := by
    intro i
    have hrun := hrun i
    simp only [asSlot, Lowering.slotPlace, yields_bind, yields_pure, Place.ofSlot] at hrun
    obtain ⟨_, _, ⟨_, _, hstep, rfl, rfl⟩, hread⟩ := hrun
    rw [Lowering.read, yields_pure] at hread
    obtain ⟨hslot, hc⟩ := hread
    rw [hslot, hc]
    exact hstep
  exact h hstep

theorem Agrees.asValue {e : Expr} {step : Bool → CompileM Place} {points : Prop}
    (h : Agrees w dest (fun i => asSlot (step i) (dest i)) points) :
    Agrees w dest (fun i => asValue e (step i) (dest i)) points := by
  intro c c' slot hrun
  have hstep : ∀ i, Yields (asSlot (step i) (dest i)) (c i) (slot i) (c' i) := by
    intro i
    have hrun := hrun i
    simp only [Lowering.asValue, yields_bind] at hrun
    obtain ⟨value, c₁, hvalue, hrun⟩ := hrun
    unfold requireValue at hrun
    split at hrun
    · simp only [yields_bind] at hrun
      obtain ⟨_, _, hfail, _⟩ := hrun
      exact absurd hfail yields_fail.mp
    · rw [yields_pure] at hrun
      obtain ⟨hslot, hc⟩ := hrun
      rw [hslot, hc]
      exact hvalue
  exact h hstep

/-- A condition is the same word on both sides. -/
theorem Agrees.asCondition {e : Expr} {step : Bool → CompileM Place} {points : Prop}
    (h : Agrees w nowhere (fun i => asSlot (step i) none) points) :
    AgreesWord w fun i => asCondition e (step i) := by
  intro c c' a hrun htwins
  simp only [Lowering.asCondition, yields_bind] at hrun
  choose value c₁ hvalue hrun using hrun
  obtain ⟨s₁, t, hcomputes⟩ := h hvalue htwins (offered_nowhere w c)
  have htwins₁ := hcomputes.twins htwins
  have hbelow := hcomputes.rests.below htwins₁ (offered_nowhere w c₁)
  choose s₂ hmaps using fun i =>
    maps_condition (u := w.machine) (htwins₁.registry i) (hbelow i) (hrun i)
  simp only [hcomputes.type] at hmaps
  refine ⟨_, fun i => (hcomputes.grows i).trans (hmaps i).grows, ?_, fun m hm => ?_⟩
  · exact (htwins₁.step (fun i => (hmaps i).grows) fun i => (hmaps i).literals).literals
  · obtain ⟨m₁, hruns₁, hagree, _, hkept⟩ := hcomputes.runs m hm
    choose m₂ hruns₂ hcontents hleaves using fun i => (hmaps i).runs (m₁ i)
    refine ⟨m₂, fun i => (hruns₁ i).trans (hruns₂ i), fun i j => ?_, ?_⟩
    · have hword : ∀ i, (m₂ i).word (a i) =
          Bytes.word ((m₂ i).contents w.registry ⟨.int, a i⟩) :=
        fun i => @word_eq w.registry ⟨.int, a i⟩ rfl (m₂ i)
      rw [hword i, hword j, hcontents i, hcontents j, hagree i j]
    · exact hkept.leave hleaves hcomputes.top_le htwins₁.limit

/-- What was compiled with a destination is then left there, if it is not there already. -/
theorem agreesInto_settle {step : Slot → CompileM Place} (span : Span) {points : Prop}
    (h : ∀ result : Bool → Slot, Agrees w (fun i => some (result i))
      (fun i => asSlot (step (result i)) (some (result i))) points) :
    AgreesInto w
      (fun _ result => do settle (← asSlot (step result) (some result)) result span) := by
  intro result c c' v hrun htwins hoffered htype
  simp only [yields_bind] at hrun
  choose value c₁ hvalue hrun using hrun
  obtain ⟨s₁, t, hcomputes⟩ := h result hvalue htwins hoffered
  have htwins₁ := hcomputes.twins htwins
  have hapart := fun i => hcomputes.rests.apart hoffered i (result i) rfl
  have hwritable : ∀ i, (result i).beyond (tops c i) ∨ result i ∈ some (result i) :=
    fun _ => .inr rfl
  choose s₂ hmaps using fun i => maps_settle (u := w.machine)
    (htwins₁.registry i) (hwritable i) (hcomputes.top_le i) (hapart i) (hrun i)
  refine ⟨_, fun i => (hcomputes.grows i).trans (hmaps i).grows, ?_, fun m hm => ?_⟩
  · exact (htwins₁.step (fun i => (hmaps i).grows) fun i => (hmaps i).literals).literals
  · obtain ⟨m₁, hruns₁, hagree, _, hkept⟩ := hcomputes.runs m hm
    choose m₂ hruns₂ hcontents hleaves using fun i => (hmaps i).runs (m₁ i)
    refine ⟨m₂, fun i => (hruns₁ i).trans (hruns₂ i), fun i j => ?_, ?_⟩
    · rw [hcontents i, hcontents j, hcomputes.type i, hcomputes.type j, htype i j, hagree i j]
    · exact hkept.leave hleaves (fun _ => Nat.le_refl _) htwins.limit

end ClassLang.Elision
