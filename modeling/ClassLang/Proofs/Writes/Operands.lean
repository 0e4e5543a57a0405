import ClassLang.Proofs.Elision.Assignment
import ClassLang.Proofs.Safety.Closed
import ClassLang.Proofs.Safety.Expressions
import ClassLang.Proofs.Writes.Variables

/-!
# Operands that are kept

The value of a variable is the variable itself, and is read only when all operands have been
compiled. So an assignment in a later operand can change it. Nothing else does: a value that is held
lies below the top of the frame, in a global variable or in the literal pool, and without an
assignment to a variable that it lies in, the code of a later operand writes only above that top.
This is an area like any other: all that is apart from the value.
-/

namespace ClassLang

open CompileM Lowering

/-- The bytes of a value. -/
def Registry.bytesOf (r : Registry) (s : Slot) : Access := (s.address, r.length s.type)

/-- No assignment in the expression goes to a variable in which the value lies, nor to a part of
it. -/
def Expr.LeavesAlone (e : Expr) (r : Registry) (s : Scopes) (v : Slot) : Prop :=
  ∀ t ∈ e.targets, ∀ h ∈ t.homes r s, h.isConst = false → (r.bytesOf h.slot).Apart (r.bytesOf v)

instance (e : Expr) (r : Registry) (s : Scopes) (v : Slot) : Decidable (e.LeavesAlone r s v) :=
  inferInstanceAs (Decidable (∀ t ∈ e.targets, ∀ h ∈ t.homes r s, _ → _))

/-- The instruction writes nothing of these bytes, and what it calls has its frame elsewhere. -/
structure Emission.Keeps (e : Emission) (x : Access) : Prop where
  writes : ∀ y ∈ e.writes, y.Apart x
  frame : ∀ base, e.instr.frame? = some base → ∀ n, Access.Apart (base, n) x

variable {r : Registry} {c c' : Compilation} {v : Slot}

/-- What lies in the storage is apart from what is still free. -/
theorem Extent.Holds.apart {x : Access} {k n : Nat} (h : c.extent.Holds x) (hk : c.frame.top ≤ k) :
    Access.Apart (.frame k, n) x := by
  obtain ⟨_ | _ | _, m⟩ := x
  · exact .inr (Nat.le_trans h hk)
  · trivial
  · trivial

/-- All that is apart from these bytes. -/
def Area.besides (hc : Ready r c) {x : Access} (hx : c.extent.Holds x) : Area where
  registry := r
  scopes := c.scopes
  base := c.frame.top
  Allows y := y.Apart x
  fresh hk := hx.apart hk
  shorter h hm := h.shorter hm
  field h hf := h.part (hc.sound.field_fits hf)

theorem Area.covers_besides (hc : Ready r c) {x : Access} (hx : c.extent.Holds x) :
    (Area.besides hc hx).Covers c := ⟨hc.registry, rfl, Nat.le_refl _⟩

namespace Operands

/-- A step that is confined to what is apart from some bytes keeps them. -/
theorem keeps_of_confined {α : Type} {m : CompileM α} {Q : α → Prop} (hc : Ready r c) {x : Access}
    (hx : c.extent.Holds x) (h : Confined (Area.besides hc hx) m Q) :
    ∀ e ∈ emissions m c, e.Keeps x := fun e he => by
  have hinside := h.emissions (Area.covers_besides hc hx) e he
  refine ⟨hinside.writes, fun base hcall n => ?_⟩
  obtain ⟨k, rfl, hk⟩ := hinside.calls base hcall
  exact hx.apart hk

/-- An expression keeps a value that none of its assignments goes to, and so do the conversions of
its own value. -/
theorem keeps_coerced {e : Expr} {t : Ty} (hc : Ready r c) (hv : Held r c.extent v)
    (h : e.LeavesAlone r c.scopes v) : ∀ x ∈ emissions (coerced t [e]) c, x.Keeps (r.bytesOf v) := by
  have hpermits : (Area.besides hc hv.storage).Permits (Expr.allTargets [e]) := by
    rw [Expr.allTargets, Expr.allTargets, List.append_nil]
    exact h
  exact keeps_of_confined hc hv.storage (Confined.coerced [e] hpermits)

theorem keeps_value {e : Expr} (hc : Ready r c) (hv : Held r c.extent v)
    (h : e.LeavesAlone r c.scopes v) : ∀ x ∈ emissions (value e) c, x.Keeps (r.bytesOf v) :=
  keeps_of_confined hc hv.storage
    (Confined.asValue Area.takes_none (Confined.place e Area.takes_none h))

/-- What is known of the operands of expressions that are compiled from a state on: the code of a
later operand keeps the value of an earlier one that it leaves alone. -/
structure Kept (r : Registry) (c : Compilation) : Prop where
  /-- The right side of an operator, and the value of its left side. -/
  binary : ∀ {left right v c₁}, Yields (value left) c v c₁ → right.LeavesAlone r c.scopes v →
    ∀ e ∈ emissions (value right) c₁, e.Keeps (r.bytesOf v)
  /-- An argument, and the values of those before it. -/
  arguments : ∀ {before later vs c₁}, Yields (values before) c vs c₁ →
    ∀ v ∈ vs, later.LeavesAlone r c.scopes v →
      ∀ e ∈ emissions (value later) c₁, e.Keeps (r.bytesOf v)
  /-- An argument, and the receiver that a method is called on by name, before and after its
  conversion to the type of the method. -/
  receiver : ∀ {receiver before later owner span v c₁ w c₂ vs c₃}, r.Knows owner →
    Yields (value receiver) c v c₁ → Yields (coerce v (.pointer owner) span) c₁ w c₂ →
    Yields (values before) c₂ vs c₃ → ∀ u ∈ [v, w], later.LeavesAlone r c.scopes u →
      ∀ e ∈ emissions (value later) c₃, e.Keeps (r.bytesOf u)
  /-- An element of an array, and those before it, as they were converted to the type of the
  first. -/
  elements : ∀ {first before later v c₁ vs c₂}, Yields (value first) c v c₁ →
    Yields (coerced v.type before) c₁ vs c₂ → ∀ u ∈ v :: vs, later.LeavesAlone r c.scopes u →
      ∀ e ∈ emissions (coerced v.type [later]) c₂, e.Keeps (r.bytesOf u)
  /-- An element of an array, and one before it as it was before its conversion. -/
  unconverted : ∀ {element before later type span v c₁ w c₂ vs c₃}, r.Knows type →
    Yields (value element) c v c₁ → Yields (coerce v type span) c₁ w c₂ →
    Yields (coerced type before) c₂ vs c₃ → later.LeavesAlone r c.scopes v →
      ∀ e ∈ emissions (coerced type [later]) c₃, e.Keeps (r.bytesOf v)

/-- The value of an operand is not changed by the code of later ones, unless one of them has an
assignment to a variable in which the value lies, or to a part of that. -/
theorem operands_kept (hc : Ready r c) : Kept r c where
  binary hleft hright := by
    obtain ⟨h₁, hv⟩ := (safe_value _ hc).yields hleft
    exact keeps_value (hc.after h₁) hv (h₁.scopes ▸ hright)
  arguments hbefore v hmem hlater := by
    obtain ⟨h₁, hvs⟩ := (safe_values _ hc).yields hbefore
    exact keeps_value (hc.after h₁) (hvs v hmem) (h₁.scopes ▸ hlater)
  -- The receiver is kept as it was and as it was converted.
  receiver howner hreceiver hconvert hbefore u hu hlater := by
    obtain ⟨h₁, hv⟩ := (safe_value _ hc).yields hreceiver
    have hc₁ := hc.after h₁
    obtain ⟨h₂, hw, -⟩ :=
      (safe_coerce hc₁.registry hv (Registry.knows_pointer.mpr howner)).yields hconvert
    have hc₂ := hc₁.after h₂
    obtain ⟨h₃, -⟩ := (safe_values _ hc₂).yields hbefore
    have hscopes : _ = c.scopes := h₃.scopes.trans (h₂.scopes.trans h₁.scopes)
    refine keeps_value (hc₂.after h₃) ?_ (hscopes ▸ hlater)
    rcases List.mem_cons.mp hu with rfl | hu
    · exact (hv.mono h₂.extent).mono h₃.extent
    · rw [List.mem_singleton.mp hu]
      exact hw.mono h₃.extent
  elements hfirst hbefore u hu hlater := by
    obtain ⟨h₁, hv⟩ := (safe_value _ hc).yields hfirst
    have hc₁ := hc.after h₁
    obtain ⟨h₂, hvs⟩ := (safe_coerced _ hv.known _ hc₁).yields hbefore
    have hscopes : _ = c.scopes := h₂.scopes.trans h₁.scopes
    refine keeps_coerced (hc₁.after h₂) ?_ (hscopes ▸ hlater)
    rcases List.mem_cons.mp hu with rfl | hu
    · exact hv.mono h₂.extent
    · exact (hvs u hu).1
  unconverted htype helement hconvert hbefore hlater := by
    obtain ⟨h₁, hv⟩ := (safe_value _ hc).yields helement
    have hc₁ := hc.after h₁
    obtain ⟨h₂, -⟩ := (safe_coerce hc₁.registry hv htype).yields hconvert
    have hc₂ := hc₁.after h₂
    obtain ⟨h₃, -⟩ := (safe_coerced _ htype _ hc₂).yields hbefore
    have hscopes : _ = c.scopes := h₃.scopes.trans (h₂.scopes.trans h₁.scopes)
    exact keeps_coerced (hc₂.after h₃) ((hv.mono h₂.extent).mono h₃.extent) (hscopes ▸ hlater)

/-! ## Two variables -/

/-- The registry that holds only the root class can be relied on. -/
theorem sound_initial {n : Nat} (hn : n ≤ Prim.int.size) : (Registry.initial n).Sound := by
  have hroot : ∀ {h k}, (Registry.initial n).class? h = some k → k = Class.root n := fun {h k} hk => by
    have hdeclared := Registration.declared_initial n
    rcases hdeclared.known h k hk with rfl | ⟨_, hp, _⟩
    · rw [hdeclared.rootClass] at hk
      exact (Option.some.inj hk).symm
    · exact absurd hp List.not_mem_nil
  refine ⟨hn, fun hk => ?_, fun hk => ?_, fun hk => ?_, fun hs => by cases hs⟩
  · rw [hroot hk]
    exact List.forall_mem_nil _
  · rw [hroot hk]
    refine List.forall_mem_singleton.mpr ⟨rfl, ?_, ?_⟩
    · exact Registry.knows_pointer.mpr (Registry.knows_prim _)
    · exact Nat.le_of_eq (Nat.zero_add _)
  · rw [hroot hk]
    exact List.forall_mem_nil _

/-- Expressions can be compiled with the variables `x` and `y`, one behind the other. -/
theorem ready_twoNumbers : ClassLang.Ready (.initial 8) Elision.twoNumbers where
  registry := rfl
  sound := sound_initial (Nat.le_refl 8)
  registers := by decide
  literals _ _ h := by cases h
  names name e he := by
    have hvariable : ∀ k, k + 8 ≤ 16 → (Meaning.variable ⟨.int, .frame k, false, .unknown⟩).Usable
        (.initial 8) Elision.twoNumbers.extent := fun k hk =>
      ⟨trivial, fun b hb => by
        injection hb with hb
        exact hb ▸ ⟨hk, Registry.knows_prim _⟩⟩
    by_cases hx : name = "x"
    · subst hx
      injection (show some _ = some e from he) with he
      exact he ▸ hvariable 0 (by decide)
    · by_cases hy : name = "y"
      · subst hy
        injection (show some _ = some e from he) with he
        exact he ▸ hvariable 8 (by decide)
      · simp [Elision.twoNumbers, Scopes.find?, Scopes.chain, Scope.find?, Table.find?_insert_of_ne,
          Ne.symm hx, Ne.symm hy] at he
  receiver h := by cases h
  result _ h := by cases h

/-- The expression `name = 5`. -/
def assignFive (name : String) : Expr :=
  .assign (.name name .unknown) (.literal (.int 5) .unknown) .unknown

/-- In `x + (y = 5)`, the right side writes into `y` and keeps `x`. -/
theorem operands_kept_apart : ∃ c₁,
    Yields (value (.name "x" .unknown)) Elision.twoNumbers ⟨.int, .frame 0⟩ c₁ ∧
    (emissions (value (assignFive "y")) c₁).map (·.instr) = [.mov (.frame 8) (.literal 0) 8] ∧
    ∀ e ∈ emissions (value (assignFive "y")) c₁, e.Keeps (.frame 0, 8) := by
  have hleft : Yields (value (.name "x" .unknown)) Elision.twoNumbers ⟨.int, .frame 0⟩
    Elision.twoNumbers := rfl
  exact ⟨_, hleft, by decide +kernel,
    (operands_kept ready_twoNumbers).binary hleft (by decide +kernel)⟩

/-- In `x + (x = 5)`, the right side writes into the value of the left side, which is `x` itself:
five is added to five. -/
theorem operand_can_change : ClassLang.Ready (.initial 8) Elision.twoNumbers ∧ ∃ c₁,
    Yields (value (.name "x" .unknown)) Elision.twoNumbers ⟨.int, .frame 0⟩ c₁ ∧
    (∃ e ∈ emissions (value (assignFive "x")) c₁, ¬e.Keeps (.frame 0, 8)) ∧
    (emissions (expr (.binary .add (.name "x" .unknown) (assignFive "x") .unknown) none)
      Elision.twoNumbers).map (·.instr) =
        [.mov (.frame 0) (.literal 0) 8, .int .add (.frame 16) (.frame 0) (.frame 0)] := by
  let stored : Emission :=
    ⟨.mov (.frame 0) (.literal 0) 8, 0, ⟨16, 0, 8, 8⟩, Elision.twoNumbers.scopes, .initial 8⟩
  have hemissions : emissions (value (assignFive "x")) Elision.twoNumbers = [stored] := rfl
  refine ⟨ready_twoNumbers, _, rfl, ⟨stored, ?_, fun h => ?_⟩, by decide +kernel⟩
  · rw [hemissions]
    exact List.mem_singleton_self _
  · have happart : Access.Apart (.frame 0, 8) (.frame 0, 8) :=
      h.writes _ (List.mem_singleton_self _)
    revert happart
    decide

end Operands

end ClassLang
