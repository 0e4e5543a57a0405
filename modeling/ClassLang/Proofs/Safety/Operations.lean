import ClassLang.Lowering.Operation
import ClassLang.Proofs.Safety.Places

/-!
# Operators are safe

An operator reads operands that lie in the storage and writes its result where the destination is
or into fresh storage. A cast between two numeric types never fails internally, because all such
types convert into each other. Branches are joined at the type of one of them, so that type is
known.
-/

namespace ClassLang

open CompileM Lowering

theorem Ty.eq_prim_of_isNumeric {t : Ty} (h : t.isNumeric = true) :
    ∃ p : Prim, p.isNumeric = true ∧ t = .prim p := by
  cases t with
  | prim p => exact ⟨p, h, rfl⟩
  | _ => cases h

/-- Different numeric types convert into each other. -/
theorem Registry.exists_conversion? (r : Registry) {s t : Ty} (hs : s.isNumeric = true)
    (ht : t.isNumeric = true) (hne : s ≠ t) : ∃ k, r.conversion? s t = some k := by
  obtain ⟨p, hp, rfl⟩ := Ty.eq_prim_of_isNumeric hs
  obtain ⟨q, hq, rfl⟩ := Ty.eq_prim_of_isNumeric ht
  unfold conversion?
  rw [conversionAlong?_plain _ _ _ rfl, if_neg hne]
  have hpq : p ≠ q := fun h => hne (congrArg Ty.prim h)
  show ∃ k, Conversion.betweenPrims? p q = some k
  cases p <;> cases q <;> first
    | exact ⟨_, rfl⟩
    | exact absurd rfl hpq
    | (cases hq; done)
    | cases hp

theorem Lowering.mem_of_commonType? {r : Registry} {types : List Ty} {t : Ty}
    (h : commonType? r types = some t) : t ∈ types := by
  unfold commonType? at h
  rcases Option.or_eq_some_iff.mp h with h | ⟨_, h⟩
  · exact List.mem_of_find?_eq_some h
  · exact List.mem_of_find?_eq_some h

namespace CompileM

variable {r : Registry} {c : Compilation} {dest : Option Slot}

/-! ## Operators -/

/-- One instruction that writes a result. -/
theorem safe_result {t : Ty} {i : Address → Instr} (hr : c.registry = r) (ht : r.Knows t)
    (hdest : ∀ d ∈ dest, Held r c.extent d)
    (hpermitted : ∀ a s, (i a).Permitted r s)
    (hreads : ∀ a, ∀ x ∈ (i a).reads r.pointerSize, c.extent.Holds x)
    (hwrites : ∀ a, (i a).writes r.pointerSize = [(a, r.length t)]) :
    Safe Extends (do
      let dst ← resultAddress t dest
      emit (i dst)
      return ⟨t, dst⟩ : CompileM Slot) c fun s c' => Held r c'.extent s ∧ s.type = t := by
  refine (safe_resultAddress hr ht hdest).bind fun dst c₁ h₁ hdst => ?_
  have hr₁ := h₁.registry.trans hr
  refine safe_emit_bind ?_ ?_ (hr₁ ▸ hpermitted dst _) fun c₂ h₂ _ => ?_
  · intro x hx
    rw [hr₁] at hx
    exact (hreads dst x hx).mono h₁.extent (Nat.le_refl _)
  · rw [hr₁, hwrites dst]
    exact List.forall_mem_singleton.mpr hdst.storage
  · exact .pure ⟨hdst.mono h₂.extent, rfl⟩

theorem safe_applyOne {op : OneOp} {src : Address} {t : Ty} (hr : c.registry = r)
    (ht : r.Knows t) (hlength : r.length t = Prim.int.size)
    (hsrc : c.extent.Holds (src, Prim.int.size)) (hdest : ∀ d ∈ dest, Held r c.extent d) :
    Safe Extends (applyOne op src t dest) c fun s c' => Held r c'.extent s ∧ s.type = t := by
  unfold applyOne
  refine safe_result hr ht hdest (fun _ _ => trivial)
    (fun _ => List.forall_mem_singleton.mpr hsrc) fun a => ?_
  rw [hlength]
  rfl

theorem safe_applyIntegral {instr : OneOp} {op : UnaryOp} {value : Slot} {span : Span}
    (hr : c.registry = r) (hvalue : Held r c.extent value)
    (hdest : ∀ d ∈ dest, Held r c.extent d) :
    Safe Extends (applyIntegral instr op value span dest) c fun s c' =>
      Held r c'.extent s ∧ s.type = .int := by
  unfold applyIntegral
  split
  · exact .typeName_bind .fail_bind
  · refine (safe_coerce hr hvalue (Registry.knows_prim .int)).bind
      fun value c₁ h₁ ⟨hheld, hint⟩ => ?_
    have hstorage := hheld.storage
    rw [hint] at hstorage
    exact safe_applyOne (h₁.registry.trans hr) (Registry.knows_prim .int) rfl hstorage
      fun d hd => (hdest d hd).mono h₁.extent

theorem safe_negate {value : Slot} {span : Span} (hr : c.registry = r)
    (hvalue : Held r c.extent value) (hdest : ∀ d ∈ dest, Held r c.extent d) :
    Safe Extends (negate value span dest) c fun s c' => Held r c'.extent s := by
  unfold negate
  split
  · rename_i hfloat
    have hstorage := hvalue.storage
    have htype : value.type = .float := by
      cases ht : value.type with
      | prim p =>
        rw [ht] at hfloat
        cases p <;> first | rfl | cases hfloat
      | _ =>
        rw [ht] at hfloat
        cases hfloat
    rw [htype] at hstorage
    exact (safe_applyOne hr (Registry.knows_prim .float) rfl hstorage hdest).mono
      fun _ _ _ h => h.1
  · exact (safe_applyIntegral hr hvalue hdest).mono fun _ _ _ h => h.1

theorem safe_addressOfOperand {operand : Expr} {p : Place} {span : Span} (hc : Ready r c)
    (hp : p.Held r c.extent) (hdest : ∀ d ∈ dest, Held r c.extent d) :
    Safe Extends (addressOfOperand operand p span dest) c fun s c' => Held r c'.extent s := by
  unfold addressOfOperand
  split
  · exact .fail_bind
  · exact (safe_addressOf hc hp hdest).mono fun _ _ _ h => h.1

theorem safe_applyInt {op : IntOp} {lhs rhs : Address} (hr : c.registry = r)
    (hl : c.extent.Holds (lhs, Prim.int.size)) (hrhs : c.extent.Holds (rhs, Prim.int.size))
    (hdest : ∀ d ∈ dest, Held r c.extent d) :
    Safe Extends (applyInt op lhs rhs dest) c fun s c' => Held r c'.extent s ∧ s.type = .int := by
  unfold applyInt
  refine safe_result hr (Registry.knows_prim .int) hdest (fun _ _ => trivial) (fun _ => ?_)
    fun _ => rfl
  exact List.forall_mem_cons.mpr ⟨hl, List.forall_mem_singleton.mpr hrhs⟩

/-- Both operands of an arithmetic operator, as values of one type. -/
theorem safe_coerce_both {lhs rhs : Slot} {t : Ty} {span : Span} {β : Type}
    {f : Slot → Slot → CompileM β} {Q : β → Compilation → Prop} (hr : c.registry = r)
    (hl : Held r c.extent lhs) (hrhs : Held r c.extent rhs) (ht : r.Knows t)
    (hf : ∀ lhs rhs c₁, Extends c c₁ → c₁.extent.Holds (lhs.address, r.length t) →
      c₁.extent.Holds (rhs.address, r.length t) → Safe Extends (f lhs rhs) c₁ Q) :
    Safe Extends (do
      let lhs ← coerce lhs t span
      let rhs ← coerce rhs t span
      f lhs rhs) c Q := by
  refine (safe_coerce hr hl ht).bind fun lhs c₁ h₁ ⟨hl, hltype⟩ => ?_
  refine (safe_coerce (h₁.registry.trans hr) (hrhs.mono h₁.extent) ht).bind
    fun rhs c₂ h₂ ⟨hrhs, hrtype⟩ => ?_
  have hl := (hl.mono h₂.extent).storage
  have hrhs := hrhs.storage
  rw [hltype] at hl
  rw [hrtype] at hrhs
  exact hf lhs rhs c₂ (Steady.trans h₁ h₂) hl hrhs

theorem safe_applyFloat {op : BinaryOp} {lhs rhs : Slot} {span : Span} (hr : c.registry = r)
    (hl : Held r c.extent lhs) (hrhs : Held r c.extent rhs)
    (hdest : ∀ d ∈ dest, Held r c.extent d) :
    Safe Extends (applyFloat op lhs rhs span dest) c fun s c' =>
      Held r c'.extent s ∧ r.length s.type = Prim.int.size := by
  unfold applyFloat
  split
  · exact .fail
  · rename_i floatOp _
    refine safe_coerce_both hr hl hrhs (Registry.knows_prim .float) fun lhs rhs c₁ h₁ hl hrhs => ?_
    have hwide : r.Knows (if floatOp.isComparison then Ty.int else Ty.float) ∧
        r.length (if floatOp.isComparison then Ty.int else Ty.float) = Prim.float.size := by
      split
      · exact ⟨Registry.knows_prim .int, rfl⟩
      · exact ⟨Registry.knows_prim .float, rfl⟩
    refine (safe_result (i := fun dst => .float floatOp dst lhs.address rhs.address)
      (h₁.registry.trans hr) hwide.1 (fun d hd => (hdest d hd).mono h₁.extent)
      (fun _ _ => trivial) (fun _ => ?_) fun _ => ?_).mono ?_
    · exact List.forall_mem_cons.mpr ⟨hl, List.forall_mem_singleton.mpr hrhs⟩
    · rw [hwide.2]
      rfl
    · rintro s _ _ ⟨hs, htype⟩
      refine ⟨hs, ?_⟩
      rw [htype, hwide.2]
      rfl

/-- The result of an operator that is not lazy has the size of a word. -/
theorem safe_applyBinary {op : BinaryOp} {lhs rhs : Slot} {span : Span} (hc : Ready r c)
    (hl : Held r c.extent lhs) (hrhs : Held r c.extent rhs)
    (hdest : ∀ d ∈ dest, Held r c.extent d) :
    Safe Extends (applyBinary op lhs rhs span dest) c fun s c' =>
      Held r c'.extent s ∧ r.length s.type = Prim.int.size := by
  have hword : ∀ {s : Slot} {x : Extent}, Held r x s ∧ s.type = .int →
      Held r x s ∧ r.length s.type = Prim.int.size := fun ⟨hs, htype⟩ => ⟨hs, htype ▸ rfl⟩
  have hr := hc.registry
  have hsize := hc.sound.pointer
  unfold applyBinary
  split
  · split
    · exact safe_applyFloat hr hl hrhs hdest
    · refine safe_coerce_both hr hl hrhs (Registry.knows_prim .int)
        fun lhs rhs c₁ h₁ hl hrhs => ?_
      exact (safe_applyInt (h₁.registry.trans hr) hl hrhs
        fun d hd => (hdest d hd).mono h₁.extent).mono fun _ _ _ => hword
  · split
    · rename_i hpointers
      obtain ⟨hpl, hpr⟩ := Bool.and_eq_true_iff.mp hpointers
      have hpl := (Bool.and_eq_true_iff.mp hpl).2
      -- Pointers are compared as words; the second may use storage behind that of the first.
      refine (safe_asWord hr hl hpl hsize).bind fun lhs c₁ h₁ ⟨hl, hltype⟩ => ?_
      have hr₁ := h₁.registry.trans hr
      refine (safe_asWord hr₁ (hrhs.mono h₁.extent) hpr hsize).bind
        fun rhs c₂ h₂ ⟨hrhs, hrtype⟩ => ?_
      have hl := (hl.mono h₂.extent).storage
      have hrhs := hrhs.storage
      rw [hltype] at hl
      rw [hrtype] at hrhs
      exact (safe_applyInt (h₂.registry.trans hr₁) hl hrhs fun d hd =>
        (hdest d hd).mono (Steady.trans h₁ h₂).extent).mono fun _ _ _ => hword
    · exact .get_bind .fail

theorem safe_jumpIfEqual {subject candidate : Slot} {target : Label} {span : Span}
    (hc : Ready r c) (hsubject : Held r c.extent subject)
    (hcandidate : Held r c.extent candidate) :
    Safe Extends (jumpIfEqual subject candidate target span) c fun _ _ => True := by
  unfold jumpIfEqual
  refine (safe_applyBinary hc hsubject hcandidate fun _ hd => by cases hd).bind
    fun equal c₁ _ ⟨hequal, hlength⟩ => ?_
  have hstorage := hequal.storage
  rw [hlength] at hstorage
  refine (safe_emit ?_ (List.forall_mem_nil _) (by trivial)).weaken
  exact List.forall_mem_singleton.mpr hstorage

/-- A lazy operator, from a step that yields a condition and one that fills the result. -/
theorem safe_lazyOperator {isAnd : Bool} {left : CompileM Address} {right : Slot → CompileM Unit}
    (hc : Ready r c) (hdest : ∀ d ∈ dest, Held r c.extent d)
    (hleft : ∀ c₁, Ready r c₁ →
      Safe Extends left c₁ fun a c' => c'.extent.Holds (a, Prim.int.size))
    (hright : ∀ s c₁, Ready r c₁ → Held r c₁.extent s →
      Safe Extends (right s) c₁ fun _ _ => True) :
    Safe Extends (lazyOperator isAnd left right dest) c fun s c' => Held r c'.extent s := by
  unfold lazyOperator
  refine (safe_resultAddress hc.registry (Registry.knows_prim .int) hdest).bind
    fun dst c₁ h₁ hdst => ?_
  have hc₁ := hc.after h₁
  refine safe_freshLabel.bind fun otherwise c₂ h₂ _ => ?_
  refine safe_freshLabel.bind fun done c₃ h₃ _ => ?_
  have hc₃ := (hc₁.after h₂).after h₃
  have hdst₃ := (hdst.mono h₂.extent).mono h₃.extent
  refine (hleft c₃ hc₃).bind fun a c₄ h₄ ha => ?_
  refine safe_emit_bind (List.forall_mem_singleton.mpr ha) (List.forall_mem_nil _) trivial
    fun c₅ h₅ _ => ?_
  have hc₅ := (hc₃.after h₄).after h₅
  have hdst₅ := (hdst₃.mono h₄.extent).mono h₅.extent
  -- The two branches in whichever order.
  have hfill : ∀ c₆, Ready r c₆ → Held r c₆.extent ⟨.int, dst⟩ →
      Safe Extends (withTemps (right ⟨.int, dst⟩)) c₆ fun _ _ => True := by
    intro c₆ hc₆ hdst₆
    refine safe_withTemps fun c₇ hw hx hregs => ?_
    refine hright _ c₇ (hc₆.within hw ?_) (hdst₆.mono hw.extent)
    rw [hregs]
    exact hc₆.registers
  have himm : ∀ (v : Int) c₆, Held r c₆.extent ⟨.int, dst⟩ →
      Safe Extends (emit (.imm dst v Prim.int.size)) c₆ fun _ _ => True := by
    intro v c₆ hdst₆
    refine (safe_emit (List.forall_mem_nil _) ?_ (by trivial)).weaken
    exact List.forall_mem_singleton.mpr hdst₆.storage
  have hend : ∀ c₆, Held r c₆.extent ⟨.int, dst⟩ →
      Safe Extends (do
        emitLabel done
        return ⟨.int, dst⟩) c₆ fun s c' => Held r c'.extent s :=
    fun c₆ hdst₆ => safe_emitLabel.bind fun _ c₇ h₇ _ => .pure (hdst₆.mono h₇.extent)
  split
  · refine (hfill c₅ hc₅ hdst₅).bind fun _ c₆ h₆ _ => ?_
    have hdst₆ := hdst₅.mono h₆.extent
    refine safe_emitGoto.bind fun _ c₇ h₇ _ => ?_
    have hdst₇ := hdst₆.mono h₇.extent
    refine safe_emitLabel.bind fun _ c₈ h₈ _ => ?_
    have hdst₈ := hdst₇.mono h₈.extent
    exact (himm 0 c₈ hdst₈).bind fun _ c₉ h₉ _ => hend c₉ (hdst₈.mono h₉.extent)
  · refine (himm 1 c₅ hdst₅).bind fun _ c₆ h₆ _ => ?_
    have hdst₆ := hdst₅.mono h₆.extent
    refine safe_emitGoto.bind fun _ c₇ h₇ _ => ?_
    have hdst₇ := hdst₆.mono h₇.extent
    refine safe_emitLabel.bind fun _ c₈ h₈ _ => ?_
    have hc₈ := ((hc₅.after h₆).after h₇).after h₈
    have hdst₈ := hdst₇.mono h₈.extent
    exact (hfill c₈ hc₈ hdst₈).bind fun _ c₉ h₉ _ => hend c₉ (hdst₈.mono h₉.extent)

/-! ## Casts -/

theorem safe_castTo {value : Slot} {target : Ty} {span : Span} (hc : Ready r c)
    (hvalue : Held r c.extent value) (ht : r.Knows target)
    (hdest : ∀ d ∈ dest, Held r c.extent d) :
    Safe Extends (castTo value target span dest) c fun s c' => Held r c'.extent s := by
  have hr := hc.registry
  unfold castTo
  refine .get_bind ?_
  dsimp only
  rw [hr]
  split
  · exact .pure hvalue
  · rename_i hne
    split
    · rename_i hnumeric
      obtain ⟨hs, htarget⟩ := Bool.and_eq_true_iff.mp hnumeric
      obtain ⟨k, hk⟩ := r.exists_conversion? hs htarget hne
      rw [hk]
      refine (safe_resultAddress hr ht hdest).bind fun dst c₁ h₁ hdst => ?_
      refine (safe_convertInto (h₁.registry.trans hr) hk (hvalue.mono h₁.extent).storage
        hdst.storage).bind fun _ c₂ h₂ _ => ?_
      exact .pure (hdst.mono h₂.extent)
    · split
      · refine (safe_resultAddress hr ht hdest).bind fun dst c₁ h₁ hdst => ?_
        refine (safe_copyBits (hvalue.mono h₁.extent).storage hdst.storage).bind
          fun _ c₂ h₂ _ => ?_
        exact .pure (hdst.mono h₂.extent)
      · exact .fail

theorem safe_instanceTest {value : Slot} {valueSpan : Span} {owner : TypeExpr} (hc : Ready r c)
    (hvalue : Held r c.extent value) (hdest : ∀ d ∈ dest, Held r c.extent d) :
    Safe Extends (instanceTest value valueSpan owner dest) c fun s c' => Held r c'.extent s := by
  unfold instanceTest
  cases hclass : value.type.pointeeClass? with
  | none => exact .typeName_bind .fail_bind
  | some owner' =>
    obtain ⟨hpointer, _⟩ := eq_pointer_of_pointeeClass? hclass
    have hstorage := hvalue.storage
    rw [hpointer] at hstorage
    refine (safe_resolveClass_ready hc owner).bind fun type c₁ h₁ ⟨hknown, htype⟩ => ?_
    have hc₁ := hc.after h₁
    refine (safe_classId hc₁.registry hknown (isClassLike_of_isClass htype)).bind ?_
    rintro id c₂ - ⟨rfl, -⟩
    have hdest₁ : ∀ d ∈ dest, Held r c₂.extent d := fun d hd => (hdest d hd).mono h₁.extent
    refine (safe_resultAddress hc₁.registry (Registry.knows_prim .int) hdest₁).bind
      fun dst c₃ h₃ hdst => ?_
    have hc₃ := hc₁.after h₃
    have hstorage₃ := (hstorage.mono h₁.extent (Nat.le_refl _)).mono h₃.extent (Nat.le_refl _)
    refine (safe_withRegister (P := fun _ x => Held r x ⟨.int, dst⟩)
      (Nat.lt_of_lt_of_le Nat.zero_lt_two hc₃.registers) fun reg c₄ h₄ hx _ => ?_).bind
      fun _ c₅ h₅ hdst₅ => .pure hdst₅
    rw [← hx] at hstorage₃ hdst
    refine safe_emit_bind (List.forall_mem_singleton.mpr ?_) (List.forall_mem_nil _) trivial
      fun c₅ h₅ hx₅ => ?_
    · rw [h₄.registry, hc₃.registry]
      exact hstorage₃
    · rw [← hx₅] at hdst
      refine (safe_emit (i := .instanceOf dst reg id) (List.forall_mem_nil _)
        (List.forall_mem_singleton.mpr hdst.storage) trivial).mono fun _ c₆ h₆ _ => ?_
      exact hdst.mono h₆.extent

/-! ## Joins -/

theorem safe_commonType {types : List Ty} {span : Span} :
    Safe Extends (commonType types span) c fun t c' => c' = c ∧ t ∈ types := by
  unfold commonType
  refine .get_bind ?_
  dsimp only
  split
  · rename_i t ht
    exact .pure ⟨rfl, mem_of_commonType? ht⟩
  · exact .fail

theorem safe_joinInto {value slot : Slot} {span : Span} (hr : c.registry = r)
    (hvalue : Held r c.extent value) (hslot : Held r c.extent slot) :
    Safe Extends (joinInto value slot span) c fun _ _ => True := by
  unfold joinInto
  refine (safe_checkConversion hr).bind fun k c₁ h₁ ⟨_, hk⟩ => ?_
  exact safe_convertInto (h₁.registry.trans hr) hk (hvalue.mono h₁.extent).storage
    (hslot.mono h₁.extent).storage

theorem safe_joinAll {slot : Slot} {done : Label} {branches : List Branch} (hr : c.registry = r)
    (hslot : Held r c.extent slot) (hbranches : ∀ b ∈ branches, Held r c.extent b.value) :
    Safe Extends (joinAll slot done branches) c fun _ _ => True := by
  unfold joinAll
  refine Safe.forM (I := fun _ => True) (fun b hb c₁ h₁ _ => ?_) trivial
  have hr₁ := h₁.registry.trans hr
  refine safe_emitLabel.bind fun _ c₂ h₂ _ => ?_
  refine (safe_joinInto (h₂.registry.trans hr₁)
    (((hbranches b hb).mono h₁.extent).mono h₂.extent)
    ((hslot.mono h₁.extent).mono h₂.extent)).bind fun _ c₃ _ _ => ?_
  exact safe_emitGoto.weaken

end CompileM

end ClassLang
