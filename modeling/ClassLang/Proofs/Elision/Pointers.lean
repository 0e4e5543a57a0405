import ClassLang.Proofs.Elision.Operations

/-!
# Pointers as bytes

Taking an address leaves the bytes of a pointer in a slot, and reading through a pointer copies
what it points to. Both use a register, which does not matter to what comes after.
-/

namespace ClassLang.Elision

open CompileM Lowering Machine

variable {u : Arithmetic} {r : Registry} {dest : Option Slot} {c c₁ c₂ c' : Compilation}

/-- The machine stores pointers as the compiler lays them out. -/
structure Stores (u : Arithmetic) (r : Registry) : Prop where
  size : u.pointerSize = r.pointerSize
  length : ∀ a, (u.pointer a).length = r.pointerSize

/-- Where a location is when a store is given. -/
def located (u : Arithmetic) (m : Store) : Location → Address
  | .fixed a => a
  | .through pointer offset => (u.pointee (m.read pointer u.pointerSize)).shift offset

theorem shift_zero (a : Address) : a.shift 0 = a := by cases a <;> rfl

/-- A register that points to a location, and nothing else that has changed. -/
theorem runs_pointTo {reg : Register} {l : Location} {v : Unit}
    (h : Yields (pointTo reg l) c v c') :
    ∃ piece, Grows c c' piece ∧ c'.literals = c.literals ∧ c'.frame.top = c.frame.top ∧
      ∀ m, ∃ a, Runs u piece m (m.point reg a) ∧ a = located u m l := by
  cases l with
  | fixed a =>
    rw [pointTo, yields_emit] at h
    subst h
    exact ⟨_, .emit c _, rfl, rfl, fun m => ⟨a, .effect rfl, rfl⟩⟩
  | through pointer offset =>
    simp only [pointTo, yields_bind, yields_emit] at h
    obtain ⟨_, _, rfl, h⟩ := h
    split at h
    · rw [yields_emit] at h
      subst h
      refine ⟨_, (Grows.emit c _).trans (.emit _ _), rfl, rfl, fun m => ⟨_, ?_, rfl⟩⟩
      -- Pointing and then shifting is pointing once, to the shifted address.
      have hmove : ∀ a, (m.point reg a).point reg (((m.point reg a).registers reg).shift offset) =
          m.point reg (a.shift offset) := by
        intro a
        refine Store.ext rfl (funext fun k => ?_)
        simp only [Store.point, if_true]
        split <;> rfl
      have hboth := (Runs.effect (u := u) (i := .ptr reg pointer) (m := m) rfl).trans
        (.effect (i := .offset reg offset) rfl)
      rw [hmove] at hboth
      exact hboth
    · rename_i hzero
      obtain rfl : offset = 0 := Nat.eq_zero_of_not_pos hzero
      rw [yields_pure] at h
      obtain ⟨_, rfl⟩ := h
      exact ⟨_, .emit c _, rfl, rfl, fun m => ⟨_, .effect rfl, (shift_zero _).symm⟩⟩

/-- Storing the pointer in a register. -/
theorem produces_pointer {reg : Register} {slot : Slot} {l : Location} {s₁ : List Instr}
    (hu : Stores u r) (hlen : r.length slot.type = r.pointerSize) (hgrows : Grows c c₁ s₁)
    (hliterals : c₁.literals = c.literals) (htop : c₁.frame.top = c.frame.top)
    (hpoint : ∀ m, ∃ a, Runs u s₁ m (m.point reg a) ∧ a = located u m l)
    (hslot : Receives r dest c₁ c₂ slot) :
    Produces u r dest c (c₂.add [.setPtr slot.address reg]) (s₁ ++ [.setPtr slot.address reg]) slot
      slot.type fun m => u.pointer (located u m l) := by
  have hwritable : slot.beyond c.frame.top ∨ slot ∈ dest := htop ▸ hslot.writable
  refine ⟨⟨hgrows.trans (hslot.grows.trans (.emit c₂ _)), hslot.literals.trans hliterals,
    fun m => ?_⟩, rfl, hwritable, hslot.below⟩
  obtain ⟨a, hruns, rfl⟩ := hpoint m
  have heffect : effect? u (.setPtr slot.address reg) (m.point reg (located u m l)) =
      some ((m.point reg (located u m l)).write slot.address (u.pointer (located u m l))) := by
    simp only [effect?, Store.point, if_true]
  refine ⟨_, hruns.trans (.effect heffect), Store.contents_write ?_, ?_⟩
  · rw [hu.length, hlen]
  · have hleaves : (m.point reg (located u m l)).Leaves r c.frame.top dest
        ((m.point reg (located u m l)).write slot.address (u.pointer (located u m l))) :=
      .write hwritable (Nat.le_of_eq (by rw [hu.length, hlen]))
    exact hleaves

/-- The address of a place. -/
theorem produces_addressOf {p : Place} {slot : Slot} (hr : c.registry = r) (hu : Stores u r)
    (hdest : ∀ d ∈ dest, d.below r c.frame.top) (h : Yields (addressOf dest p) c slot c') :
    ∃ piece, Produces u r dest c c' piece slot (.pointer p.type) fun m =>
      u.pointer (located u m p.location) := by
  unfold addressOf at h
  obtain ⟨reg, c₁, c₂, hrun, hbefore, hafter⟩ := silent_withRegister h
  simp only [yields_bind, yields_emit, yields_pure] at hrun
  obtain ⟨_, c₃, hpoint, dst, c₄, hresult, _, _, rfl, rfl, rfl⟩ := hrun
  obtain ⟨s₁, hgrows, hliterals, htop, hruns⟩ := runs_pointTo (u := u) hpoint
  have htaken := (Grows.of_adds hbefore.adds).trans hgrows
  have hreceives := receives_resultAddress (htaken.registry.trans hr)
    (fun d hd => (hdest d hd).mono htaken.top) hresult
  have hproduces := produces_pointer hu rfl htaken (hliterals.trans hbefore.literals)
    (htop.trans hbefore.top) hruns hreceives
  have hgiven := Grows.of_adds hafter.adds
  refine ⟨_, ⟨?_, hafter.literals.trans hproduces.literals, hproduces.runs⟩, hproduces.type,
    hproduces.writable, hproduces.below.mono hgiven.top⟩
  simpa using hproduces.grows.trans hgiven

/-- A pointer to a block in the pool, in fresh storage. -/
theorem produces_block {a slot : Address} (hr : c.registry = r) (hu : Stores u r)
    (h : Yields (withRegister fun reg => do
      emit (.addr reg a)
      spill reg) c slot c') :
    ∃ piece, Produces u r dest c c' piece ⟨.string, slot⟩ .string fun _ => u.pointer a := by
  obtain ⟨reg, c₁, c₂, hrun, hbefore, hafter⟩ := silent_withRegister h
  simp only [spill, yields_bind, yields_pointerSize, yields_emit, yields_pure, and_assoc,
    exists_and_left, exists_eq_left] at hrun
  obtain ⟨_, _, c₃, halloc, rfl, _, rfl⟩ := hrun
  have htaken := (Grows.of_adds hbefore.adds).trans (.emit c₁ (.addr reg a))
  have halloc : Yields (allocFor .string) (c₁.add [.addr reg a]) slot c₃ := by
    rw [yields_alloc] at halloc
    rw [yields_allocFor]
    exact halloc
  have hreceives := receives_allocFor dest (htaken.registry.trans hr) halloc
  have hproduces := produces_pointer (l := .fixed a) hu rfl htaken hbefore.literals
    hbefore.top (fun m => ⟨a, .effect rfl, rfl⟩) hreceives
  have hgiven := Grows.of_adds hafter.adds
  refine ⟨_, ⟨?_, hafter.literals.trans hproduces.literals, hproduces.runs⟩, hproduces.type,
    hproduces.writable, hproduces.below.mono hgiven.top⟩
  simpa using hproduces.grows.trans hgiven

/-- Reading through a pointer. -/
theorem produces_read {t : Ty} {pointer : Address} {slot : Slot} (hr : c.registry = r)
    (hdest : ∀ d ∈ dest, d.below r c.frame.top)
    (h : Yields (Lowering.read dest (.behind t pointer 0)) c slot c') :
    ∃ piece, Produces u r dest c c' piece slot t fun m =>
      m.read (u.pointee (m.read pointer u.pointerSize)) (r.length t) := by
  simp only [Lowering.read, Place.behind, yields_bind, yields_lengthOf, yields_pure, and_assoc,
    exists_and_left, exists_eq_left] at h
  obtain ⟨dst, c₁, hresult, v, c₂, hrun, rfl, rfl⟩ := h
  have hreceives := receives_resultAddress hr hdest hresult
  obtain ⟨reg, c₃, c₄, hrun, hbefore, hafter⟩ := silent_withRegister hrun
  simp only [yields_bind, yields_emit] at hrun
  obtain ⟨_, _, rfl, rfl⟩ := hrun
  have hgrows := (hreceives.grows.trans (.of_adds hbefore.adds)).trans
    (((Grows.emit c₃ _).trans (.emit _ _)).trans (.of_adds hafter.adds))
  rw [List.append_nil] at hgrows
  rw [hreceives.grows.registry, hr] at hgrows
  refine ⟨_, ⟨hgrows, hafter.literals.trans (hbefore.literals.trans hreceives.literals),
    fun m => ?_⟩, rfl, hreceives.writable, ?_⟩
  -- The load reads where the register points, which is what the pointer holds.
  · have hload : effect? u (.load dst ⟨reg, 0⟩ (r.length t))
        (m.point reg (u.pointee (m.read pointer u.pointerSize))) =
        some ((m.point reg (u.pointee (m.read pointer u.pointerSize))).write dst
          (m.read (u.pointee (m.read pointer u.pointerSize)) (r.length t))) := by
      simp only [effect?, Store.point, if_true, shift_zero]
      rfl
    refine ⟨_, (Runs.effect rfl).trans (.effect hload),
      Store.contents_write (s := ⟨t, dst⟩) (Store.length_read ..), ?_⟩
    have hleaves : (m.point reg (u.pointee (m.read pointer u.pointerSize))).Leaves r c.frame.top
        dest ((m.point reg (u.pointee (m.read pointer u.pointerSize))).write dst
          (m.read (u.pointee (m.read pointer u.pointerSize)) (r.length t))) :=
      .write (s := ⟨t, dst⟩) hreceives.writable (Nat.le_of_eq (Store.length_read ..))
    exact hleaves
  · refine hreceives.below.mono ?_
    rw [hafter.top]
    exact Nat.le_of_eq hbefore.top.symm

end ClassLang.Elision
