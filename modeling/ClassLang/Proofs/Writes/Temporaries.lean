import ClassLang.Proofs.Link.Sections
import ClassLang.Proofs.Safety.Overflow
import ClassLang.Proofs.Safety.Programs
import ClassLang.Proofs.Writes.Expressions

/-!
# Storage is safe

Everything that an instruction reads or writes was in the storage when the instruction was emitted,
so no temporary is used after its block was closed. An expression without assignments that is
offered no destination writes nothing in the frame but what was allocated for it, and changes no
variable. In 32 bits that is so until one of the numbers wraps around.
-/

namespace ClassLang

open CompileM Lowering

/-- In the frame, only what is still free may be written. -/
def Area.above (c : Compilation) : Area where
  registry := c.registry
  scopes := c.scopes
  base := c.frame.top
  Allows x := ∀ k, x.1 = .frame k → c.frame.top ≤ k
  fresh hk _ h := by
    injection h with h
    exact h ▸ hk
  shorter h _ := h
  field {a _ _ offset _} h _ k hk := by
    cases a with
    | frame j =>
      injection hk with hk
      exact hk ▸ Nat.le_trans (h j rfl) (Nat.le_add_right ..)
    | global j | literal j => cases hk

theorem Area.above_covers (c : Compilation) : (Area.above c).Covers c := ⟨rfl, rfl, Nat.le_refl _⟩

/-- Expressions without assignments write in the frame only where it was free. -/
theorem Lowering.writes_above {e : Expr} (he : e.targets = []) {c : Compilation} {x : Emission}
    (hx : x ∈ emissions (expr e none) c) {k n : Nat}
    (hw : (.frame k, n) ∈ x.writes) : c.frame.top ≤ k := by
  have hpermits : (Area.above c).Permits e.targets := by
    rw [he]
    exact List.forall_mem_nil _
  have hconfined : Confined (Area.above c) (expr e none) fun _ => True :=
    Confined.asSlot (Area.above c).takes_none (Confined.place e (Area.above c).takes_none hpermits)
  exact (hconfined.emissions (Area.above_covers c) x hx).writes _ hw k rfl

/-- Whatever the compilation of a program emits accesses storage that was there at that moment, if
the storage had not outgrown 32 bits. The slots of the frame that an expression without assignments
writes were allocated after its compilation began, if their offsets have not outgrown 32 bits. -/
theorem storage_safe :
    (∀ {o : Options} {p : Program} {c : Compilation}, Compilation.start o = .ok c →
      ∀ x ∈ emissions (compileProgram p) c, x.extent.Representable x.registry → x.FitsWrapped) ∧
    ∀ {e : Expr}, e.targets = [] → ∀ {c : Compilation}, ∀ x ∈ emissions (expr e none) c,
      ∀ k n, (.frame k, n) ∈ x.writes → k < UInt32.size → wrap c.frame.top ≤ wrap k := by
  refine ⟨fun hstart x hx hfits => ?_, fun he c x hx k n hw hk => ?_⟩
  · exact ((safe_compileProgram hstart).emissions x hx).fits.wrapped hfits
  · have hle := writes_above he hx hw
    rw [wrap_of_lt hk, wrap_of_lt (Nat.lt_of_le_of_lt hle hk)]
    exact hle

/-- `1 + 2` -/
def sampleSum : Expr :=
  .binary .add (.literal (.int 1) .unknown) (.literal (.int 2) .unknown) .unknown

/-- What is emitted for the linked program fits into the storage. The sum writes into the first free
slot, while other bytes of the frame are in use. -/
theorem storage_safe_samples : ∃ c, Compilation.start {} = .ok c ∧
    emissions (compileProgram linkedProgram) c ≠ [] ∧
    (∀ x ∈ emissions (compileProgram linkedProgram) c,
      x.extent.Representable x.registry ∧ x.FitsWrapped) ∧
    ∃ c' : Compilation, c'.frame.top = 16 ∧ (emissions (expr sampleSum none) c').map (·.instr) =
      [.int .add (.frame 16) (.literal 0) (.literal 8)] ∧
      ∀ x ∈ emissions (expr sampleSum none) c', ∀ k n,
        (.frame k, n) ∈ x.writes → k < UInt32.size → wrap c'.frame.top ≤ wrap k := by
  have hok : ((Compilation.start {}).toOption.any fun c =>
      !(emissions (compileProgram linkedProgram) c).isEmpty &&
        decide (∀ x ∈ emissions (compileProgram linkedProgram) c,
          x.extent.Representable x.registry) &&
        decide ((emissions (expr sampleSum none) { c with frame := { c.frame with top := 16 } }).map
          (·.instr) = [.int .add (.frame 16) (.literal 0) (.literal 8)])) = true := by decide +kernel
  obtain ⟨c, hstart, hok⟩ := exists_ok_of_any hok
  obtain ⟨hok, hsum⟩ := (Bool.and_eq_true _ _).mp hok
  obtain ⟨hsome, hfits⟩ := (Bool.and_eq_true _ _).mp hok
  have hfits := of_decide_eq_true hfits
  refine ⟨c, hstart, ?_, fun x hx => ⟨hfits x hx, storage_safe.1 hstart x hx (hfits x hx)⟩,
    { c with frame := { c.frame with top := 16 } }, rfl, of_decide_eq_true hsum, storage_safe.2 rfl⟩
  rintro hnone
  rw [hnone] at hsome
  cases hsome

/-- Two locals can take more bytes than 32 bits count: the second one is cleared, and its storage is
above the top that is kept. Two temporaries can do so in a frame that is almost full: the second one
is kept at the bottom of the frame. -/
theorem storage_safe_fails_twoGiants : ∃ c, Compilation.start {} = .ok c ∧
    (∃ c', Yields (compileProgram twoGiants) c () c') ∧
    (∃ x ∈ emissions (compileProgram twoGiants) c,
      x.instr = .imm (.frame 2290649224) 0 2290649224 ∧ wrap x.extent.top = 286331152 ∧
        ¬x.FitsWrapped) ∧
    ∃ e : Expr, e.targets = [] ∧ ∃ c' : Compilation, c'.frame.top = 4294967288 ∧
      ∃ x ∈ emissions (expr e none) c', (.frame 4294967296, 8) ∈ x.writes ∧
        wrap 4294967296 < wrap c'.frame.top := by
  have hok : ((Compilation.start {}).toOption.any fun c =>
      ((emissions (compileProgram twoGiants) c).any fun x =>
        decide (x.instr = .imm (.frame 2290649224) 0 2290649224 ∧ wrap x.extent.top = 286331152 ∧
          ¬x.FitsWrapped)) &&
      (emissions (expr (.binary .add sampleSum (.literal (.int 3) .unknown) .unknown) none)
        { c with frame := { c.frame with top := 4294967288 } }).any fun x =>
          decide ((.frame 4294967296, 8) ∈ x.writes)) = true := by decide +kernel
  have hcompiles : twoGiants.compilesTo (fun _ => true) = true := by decide +kernel
  obtain ⟨c, c', hstart, hrun, -⟩ := Program.exists_of_compilesTo hcompiles
  rw [hstart] at hok
  obtain ⟨hcleared, hsum⟩ := (Bool.and_eq_true _ _).mp hok
  obtain ⟨x, hx, hcleared⟩ := List.any_eq_true.mp hcleared
  obtain ⟨y, hy, hsum⟩ := List.any_eq_true.mp hsum
  exact ⟨c, hstart, ⟨c', hrun⟩, ⟨x, hx, of_decide_eq_true hcleared⟩, _, rfl, _, rfl, y, hy,
    of_decide_eq_true hsum, (by decide : wrap 4294967296 < wrap 4294967288)⟩

end ClassLang
