import ClassLang.Proofs.Lowering.Traversal
import ClassLang.Proofs.Safety.Objects

/-!
# Expressions are safe

From a state that is ready, every expression compiles to a place that can be read, or fails at a
position. The proof follows the tree. A destination that is offered lies in the storage, and since
the storage only grows it still does when the result is written there.
-/

namespace ClassLang

open CompileM Lowering

namespace CompileM

variable {r : Registry} {c : Compilation} {dest : Option Slot}

/-! ## Uses of a place -/

/-- Nothing is offered. -/
theorem held_none {x : Extent} : ∀ d ∈ (none : Option Slot), Held r x d :=
  fun _ hd => by cases hd

/-- A slot is offered. -/
theorem held_some {x : Extent} {s : Slot} (h : Held r x s) : ∀ d ∈ some s, Held r x d := by
  intro d hd
  injection hd with hd
  exact hd ▸ h

/-- A step that compiles a place that can be read. -/
def Locates (r : Registry) (p : CompileM Place) : Prop :=
  ∀ c, Ready r c → Safe Extends p c fun p c' => p.Held r c'.extent

/-- A step that compiles a value, with its result in a destination if it likes. -/
def Evaluates (r : Registry) (dest : Option Slot) (s : CompileM Slot) : Prop :=
  ∀ c, Ready r c → (∀ d ∈ dest, Held r c.extent d) →
    Safe Extends s c fun s c' => Held r c'.extent s

theorem Evaluates.slotPlace {s : CompileM Slot} (h : Evaluates r dest s) (hc : Ready r c)
    (hdest : ∀ d ∈ dest, Held r c.extent d) :
    Safe Extends (slotPlace s) c fun p c' => p.Held r c'.extent := by
  unfold Lowering.slotPlace
  exact (h c hc hdest).bind fun s _ _ hs => .pure hs.ofSlot

theorem safe_asSlot {p : CompileM Place} (hc : Ready r c)
    (hp : Safe Extends p c fun p c' => p.Held r c'.extent)
    (hdest : ∀ d ∈ dest, Held r c.extent d) :
    Safe Extends (asSlot p dest) c fun s c' => Held r c'.extent s := by
  unfold asSlot
  refine hp.bind fun p c₁ h₁ hplace => ?_
  exact (safe_read (hc.after h₁) hplace fun d hd => (hdest d hd).mono h₁.extent).mono
    fun _ _ _ h => h.1

theorem safe_asValue {e : Expr} {p : CompileM Place} (hc : Ready r c)
    (hp : Safe Extends p c fun p c' => p.Held r c'.extent)
    (hdest : ∀ d ∈ dest, Held r c.extent d) :
    Safe Extends (asValue e p dest) c fun s c' => Held r c'.extent s := by
  unfold asValue
  exact (safe_asSlot hc hp hdest).bind fun s _ _ hs => safe_requireValue hs

theorem safe_asCondition {e : Expr} {p : CompileM Place} (hc : Ready r c)
    (hp : Safe Extends p c fun p c' => p.Held r c'.extent) :
    Safe Extends (asCondition e p) c fun a c' => c'.extent.Holds (a, Prim.int.size) := by
  unfold asCondition
  refine (safe_asSlot hc hp held_none).bind fun s c₁ h₁ hs => ?_
  exact safe_condition (hc.after h₁).registry hs

theorem safe_intrinsicCall {intrinsic : Intrinsic} {operand : Expr} {p : CompileM Place}
    (hc : Ready r c) (hp : Locates r p) :
    Safe Extends (intrinsicCall intrinsic operand p) c fun s c' => Held r c'.extent s := by
  unfold intrinsicCall
  split
  · exact safe_sizeOfOperand hc fun c₁ hc₁ => (safe_asSlot hc₁ (hp c₁ hc₁) held_none).weaken
  · refine (safe_asValue hc (hp c hc) held_none).bind fun s c₁ h₁ hs => ?_
    exact safe_lengthOfArray (hc.after h₁) hs

/-- An expression that compiles to a place that can be read, wherever its value is wanted. -/
def Readable (r : Registry) (e : Expr) : Prop :=
  ∀ ⦃c dest⦄, Ready r c → (∀ d ∈ dest, Held r c.extent d) →
    Safe Extends (place dest e) c fun p c' => p.Held r c'.extent

namespace Readable

variable {e : Expr}

theorem locates (he : Readable r e) : Locates r (place none e) := fun _ hc => he hc held_none

theorem evaluates (he : Readable r e) : Evaluates r dest (asValue e (place dest e) dest) :=
  fun _ hc hdest => safe_asValue hc (he hc hdest) hdest

theorem slot (he : Readable r e) (hc : Ready r c) :
    Safe Extends (asSlot (place none e) none) c fun s c' => Held r c'.extent s :=
  safe_asSlot hc (he hc held_none) held_none

theorem value (he : Readable r e) (hc : Ready r c) :
    Safe Extends (asValue e (place none e) none) c fun s c' => Held r c'.extent s :=
  he.evaluates c hc held_none

theorem condition (he : Readable r e) (hc : Ready r c) :
    Safe Extends (asCondition e (place none e)) c fun a c' =>
      c'.extent.Holds (a, Prim.int.size) :=
  safe_asCondition hc (he hc held_none)

/-- The value is left in a slot that is offered for it. -/
theorem settled {span : Span} {s : Slot} (he : Readable r e) (hc : Ready r c)
    (hs : Held r c.extent s) :
    Safe Extends (do settle (← asSlot (place (some s) e) (some s)) s span) c
      fun _ _ => True := by
  refine (safe_asSlot hc (he hc (held_some hs)) (held_some hs)).bind fun v c₁ h₁ hv => ?_
  exact safe_settle (hc.after h₁).registry hv (hs.mono h₁.extent)

end Readable

/-! ## Constructs with branches -/

theorem safe_conditional {test : CompileM Address} {yes no : CompileM Slot}
    {yesSpan noSpan span : Span} (hc : Ready r c) (hdest : ∀ d ∈ dest, Held r c.extent d)
    (htest : ∀ c₁, Ready r c₁ →
      Safe Extends test c₁ fun a c' => c'.extent.Holds (a, Prim.int.size))
    (hyes : Evaluates r dest yes) (hno : Evaluates r dest no) :
    Safe Extends (conditional test yes no yesSpan noSpan span dest) c fun s c' =>
      Held r c'.extent s := by
  unfold conditional
  refine safe_freshLabel.bind fun otherwise c₁ h₁ _ => ?_
  refine safe_freshLabel.bind fun done c₂ h₂ _ => ?_
  refine safe_freshLabel.bind fun join c₃ h₃ _ => ?_
  have hx₃ := Steady.trans (Steady.trans h₁ h₂) h₃
  refine (htest c₃ (hc.after hx₃)).bind fun a c₄ h₄ ha => ?_
  refine safe_emit_bind (List.forall_mem_singleton.mpr ha) (List.forall_mem_nil _) trivial
    fun c₅ h₅ _ => ?_
  have hx₅ := Steady.trans (Steady.trans hx₃ h₄) h₅
  refine (hyes c₅ (hc.after hx₅) fun d hd => (hdest d hd).mono hx₅.extent).bind
    fun yesValue c₆ h₆ hyesValue => ?_
  refine safe_emitGoto.bind fun _ c₇ h₇ _ => ?_
  refine safe_emitLabel.bind fun _ c₈ h₈ _ => ?_
  have hx₈ := Steady.trans (Steady.trans (Steady.trans hx₅ h₆) h₇) h₈
  have hyesValue := hyesValue.mono (Steady.trans h₇ h₈).extent
  refine (hno c₈ (hc.after hx₈) fun d hd => (hdest d hd).mono hx₈.extent).bind
    fun noValue c₉ h₉ hnoValue => ?_
  have hx₉ := Steady.trans hx₈ h₉
  have hc₉ := hc.after hx₉
  have hyesValue := hyesValue.mono h₉.extent
  refine safe_commonType.bind ?_
  rintro type c₁₀ - ⟨rfl, htype⟩
  -- Branches are joined at the type of one of them.
  have hknown : r.Knows type := by
    rcases List.mem_cons.mp htype with rfl | htype
    · exact hyesValue.known
    · rw [List.mem_singleton.mp htype]
      exact hnoValue.known
  refine (safe_resultAddress hc₉.registry hknown
    fun d hd => (hdest d hd).mono hx₉.extent).bind fun dst c₁₁ h₁₁ hresult => ?_
  have hc₁₁ := hc₉.after h₁₁
  refine (safe_joinInto hc₁₁.registry (hnoValue.mono h₁₁.extent) hresult).bind
    fun _ c₁₂ h₁₂ _ => ?_
  refine safe_emitGoto.bind fun _ c₁₃ h₁₃ _ => ?_
  refine safe_emitLabel.bind fun _ c₁₄ h₁₄ _ => ?_
  have hx₁₄ := Steady.trans (Steady.trans h₁₂ h₁₃) h₁₄
  have hresult := hresult.mono hx₁₄.extent
  refine (safe_joinInto (hc₁₁.after hx₁₄).registry
    (hyesValue.mono (Steady.trans h₁₁ hx₁₄).extent) hresult).bind fun _ c₁₅ h₁₅ _ => ?_
  refine safe_emitLabel.bind fun _ c₁₆ h₁₆ _ => ?_
  exact .pure (hresult.mono (Steady.trans h₁₅ h₁₆).extent)

theorem safe_switch {subject default : CompileM Slot} {arms : List Arm} {defaultSpan span : Span}
    (hc : Ready r c) (hdest : ∀ d ∈ dest, Held r c.extent d)
    (hsubject : Evaluates r none subject) (hdefault : Evaluates r dest default)
    (htests : ∀ s c₁, Ready r c₁ → Held r c₁.extent s →
      Safe Extends (armTests s arms) c₁ fun _ _ => True)
    (hbodies : ∀ ls c₁, Ready r c₁ → (∀ d ∈ dest, Held r c₁.extent d) →
      Safe Extends (armBodies dest arms ls) c₁ fun bs c' =>
        ∀ b ∈ bs, Held r c'.extent b.value) :
    Safe Extends (switch subject default arms defaultSpan span dest) c fun s c' =>
      Held r c'.extent s := by
  unfold switch
  refine (hsubject c hc held_none).bind fun subject c₁ h₁ hsubject => ?_
  refine safe_freshLabel.bind fun done c₂ h₂ _ => ?_
  have hx₂ := Steady.trans h₁ h₂
  refine (htests subject c₂ (hc.after hx₂) (hsubject.mono h₂.extent)).bind
    fun bodies c₃ h₃ _ => ?_
  refine safe_freshLabel.bind fun join c₄ h₄ _ => ?_
  have hx₄ := Steady.trans (Steady.trans hx₂ h₃) h₄
  refine (hdefault c₄ (hc.after hx₄) fun d hd => (hdest d hd).mono hx₄.extent).bind
    fun value c₅ h₅ hvalue => ?_
  refine safe_emitGoto.bind fun _ c₆ h₆ _ => ?_
  have hx₆ := Steady.trans (Steady.trans hx₄ h₅) h₆
  refine (hbodies bodies c₆ (hc.after hx₆) fun d hd => (hdest d hd).mono hx₆.extent).bind
    fun branches c₇ h₇ hbranches => ?_
  have hx₇ := Steady.trans hx₆ h₇
  have hc₇ := hc.after hx₇
  -- The default is one more branch, and later storage does not take away from its value.
  have hall : ∀ b ∈ ⟨value, join, defaultSpan⟩ :: branches, Held r c₇.extent b.value :=
    List.forall_mem_cons.mpr ⟨hvalue.mono (Steady.trans h₆ h₇).extent, hbranches⟩
  refine safe_commonType.bind ?_
  rintro type c₈ - ⟨rfl, htype⟩
  obtain ⟨b, hb, rfl⟩ := List.mem_map.mp htype
  refine (safe_resultAddress hc₇.registry (hall b hb).known
    fun d hd => (hdest d hd).mono hx₇.extent).bind fun dst c₉ h₉ hresult => ?_
  refine (safe_joinAll (hc₇.after h₉).registry hresult
    fun b hb => (hall b hb).mono h₉.extent).bind fun _ c₁₀ h₁₀ _ => ?_
  refine safe_emitLabel.bind fun _ c₁₁ h₁₁ _ => ?_
  exact .pure (hresult.mono (Steady.trans h₁₀ h₁₁).extent)

/-! ## Lists of expressions -/

section Lists

variable {es : List Expr} {arms : List Arm}

theorem supplies_values (hes : ∀ e ∈ es, Readable r e) : Supplies r (values es) := by
  intro c hc
  induction es generalizing c with
  | nil =>
    unfold values
    exact .pure (List.forall_mem_nil _)
  | cons e es ih =>
    obtain ⟨he, hes⟩ := List.forall_mem_cons.mp hes
    unfold values
    refine (he.value hc).bind fun v c₁ h₁ hv => ?_
    refine (ih hes c₁ (hc.after h₁)).bind fun vs c₂ h₂ hvs => ?_
    exact .pure (List.forall_mem_cons.mpr ⟨hv.mono h₂.extent, hvs⟩)

theorem safe_dimensions (hes : ∀ e ∈ es, Readable r e) (hc : Ready r c) :
    Safe Extends (dimensions es) c fun as c' =>
      as.length = es.length ∧ ∀ a ∈ as, c'.extent.Holds (a, Prim.int.size) := by
  induction es generalizing c with
  | nil =>
    unfold dimensions
    exact .pure ⟨rfl, List.forall_mem_nil _⟩
  | cons e es ih =>
    obtain ⟨he, hes⟩ := List.forall_mem_cons.mp hes
    unfold dimensions
    refine (he.value hc).bind fun v c₁ h₁ hv => ?_
    have hc₁ := hc.after h₁
    refine (safe_dimension hc₁.registry hv).bind fun a c₂ h₂ ha => ?_
    refine (ih hes (hc₁.after h₂)).bind fun as c₃ h₃ ⟨hlength, has⟩ => ?_
    exact .pure ⟨congrArg (· + 1) hlength,
      List.forall_mem_cons.mpr ⟨ha.mono h₃.extent (Nat.le_refl _), has⟩⟩

theorem Readable.safe_coerced {element : Ty} (hes : ∀ e ∈ es, Readable r e)
    (helement : r.Knows element) (hc : Ready r c) :
    Safe Extends (coerced element es) c fun vs c' =>
      ∀ v ∈ vs, Held r c'.extent v ∧ v.type = element := by
  induction es generalizing c with
  | nil =>
    unfold coerced
    exact .pure (List.forall_mem_nil _)
  | cons e es ih =>
    obtain ⟨he, hes⟩ := List.forall_mem_cons.mp hes
    unfold coerced
    refine (he.value hc).bind fun v c₁ h₁ hv => ?_
    have hc₁ := hc.after h₁
    refine (safe_coerce hc₁.registry hv helement).bind fun v c₂ h₂ ⟨hv, htype⟩ => ?_
    refine (ih hes (hc₁.after h₂)).bind fun vs c₃ h₃ hvs => ?_
    exact .pure (List.forall_mem_cons.mpr ⟨⟨hv.mono h₃.extent, htype⟩, hvs⟩)

theorem Readable.safe_tests {subject : Slot} {target : Label} (hes : ∀ e ∈ es, Readable r e)
    (hc : Ready r c) (hsubject : Held r c.extent subject) :
    Safe Extends (tests subject target es) c fun _ _ => True := by
  induction es generalizing c with
  | nil =>
    unfold tests
    exact .pure trivial
  | cons e es ih =>
    obtain ⟨he, hes⟩ := List.forall_mem_cons.mp hes
    unfold tests
    -- The registers of one test are free again for the next.
    refine (safe_withTemps (P := fun _ => True) fun c₁ hw hx hregs => ?_).bind
      fun _ c₂ h₂ _ => ih hes (hc.after h₂) (hsubject.mono h₂.extent)
    have hc₁ : Ready r c₁ := hc.within hw (hregs ▸ hc.registers)
    refine (he.value hc₁).bind fun v c₂ h₂ hv => ?_
    exact safe_jumpIfEqual (hc₁.after h₂) ((hsubject.mono hw.extent).mono h₂.extent) hv

theorem safe_armTests {subject : Slot} (harms : ∀ arm ∈ arms, ∀ e ∈ arm.values, Readable r e)
    (hc : Ready r c) (hsubject : Held r c.extent subject) :
    Safe Extends (armTests subject arms) c fun _ _ => True := by
  induction arms generalizing c with
  | nil =>
    unfold armTests
    exact .pure trivial
  | cons arm arms ih =>
    obtain ⟨vs, result, span⟩ := arm
    obtain ⟨hvs, harms⟩ := List.forall_mem_cons.mp harms
    unfold armTests
    refine safe_freshLabel.bind fun body c₁ h₁ _ => ?_
    have hc₁ := hc.after h₁
    have hsubject₁ := hsubject.mono h₁.extent
    refine (Readable.safe_tests hvs hc₁ hsubject₁).bind fun _ c₂ h₂ _ => ?_
    exact (ih harms (hc₁.after h₂) (hsubject₁.mono h₂.extent)).bind fun _ _ _ _ => .pure trivial

theorem safe_armBodies {ls : List Label} (harms : ∀ arm ∈ arms, Readable r arm.result)
    (hc : Ready r c) (hdest : ∀ d ∈ dest, Held r c.extent d) :
    Safe Extends (armBodies dest arms ls) c fun bs c' => ∀ b ∈ bs, Held r c'.extent b.value := by
  induction arms generalizing c ls with
  | nil =>
    rw [armBodies]
    · exact .pure (List.forall_mem_nil _)
    · simp
  | cons arm arms ih =>
    obtain ⟨vs, result, span⟩ := arm
    obtain ⟨hresult, harms⟩ := List.forall_mem_cons.mp harms
    cases ls with
    | nil =>
      rw [armBodies]
      · exact .pure (List.forall_mem_nil _)
      · simp
    | cons l ls =>
      unfold armBodies
      refine safe_emitLabel.bind fun _ c₁ h₁ _ => ?_
      refine safe_freshLabel.bind fun join c₂ h₂ _ => ?_
      have hx₂ := Steady.trans h₁ h₂
      have hc₂ := hc.after hx₂
      have hdest₂ := fun d hd => (hdest d hd).mono hx₂.extent
      refine (hresult.evaluates c₂ hc₂ hdest₂).bind fun v c₃ h₃ hv => ?_
      refine safe_emitGoto.bind fun _ c₄ h₄ _ => ?_
      have hx₄ := Steady.trans h₃ h₄
      refine (ih harms (hc₂.after hx₄) fun d hd => (hdest₂ d hd).mono hx₄.extent).bind
        fun bs c₅ h₅ hbs => ?_
      exact .pure (List.forall_mem_cons.mpr ⟨hv.mono (Steady.trans h₄ h₅).extent, hbs⟩)

end Lists

/-! ## The forms of an expression -/

/-- Taking the implicit receiver: it starts in the frame. -/
theorem safe_implicitReceiver {span : Span} (hc : Ready r c)
    (hmethod : c.scopes.receiverClass?.isSome = true) :
    Safe Extends (receiverBinding span) c fun b c' =>
      c' = c ∧ Copyable c.extent r.pointerSize b.address := by
  refine safe_receiverBinding.mono ?_
  rintro b c' - ⟨hc', -, e, he, hb⟩
  obtain ⟨d, span'⟩ := e
  have hb : d = .variable b := hb
  subst hb
  obtain ⟨k, hk⟩ := hc.receiver hmethod b span' he
  have hstorage := ((hc.names "this" _ he).2 b rfl).storage
  refine ⟨hc', .inr ⟨k, ?_, hk⟩⟩
  have hstorage : c.extent.Holds (b.address, r.length b.type) := hstorage
  rw [hk] at hstorage
  exact Nat.le_trans (Nat.le_add_right ..) hstorage

namespace Readable

variable {e left right : Expr} {es args : List Expr} {span : Span}

theorem literal {l : Literal} : Readable r (.literal l span) := by
  intro c dest hc hdest
  unfold place
  exact Evaluates.slotPlace (fun c hc _ => safe_literalSlot hc) hc hdest

theorem name {n : String} : Readable r (.name n span) := by
  intro c dest hc _
  unfold place
  exact safe_namePlace hc

theorem receiver : Readable r (.receiver span) := by
  intro c dest hc _
  unfold place
  exact safe_receiverPlace hc

theorem binary {op : BinaryOp} (hleft : Readable r left) (hright : Readable r right) :
    Readable r (.binary op left right span) := by
  intro c dest hc hdest
  unfold place
  split
  · refine Evaluates.slotPlace (fun c hc hdest => ?_) hc hdest
    exact safe_lazyOperator hc hdest (fun _ hc₁ => hleft.condition hc₁)
      fun _ _ hc₁ hs => hright.settled hc₁ hs
  · refine Evaluates.slotPlace (fun c hc hdest => ?_) hc hdest
    refine (hleft.value hc).bind fun lhs c₁ h₁ hl => ?_
    have hc₁ := hc.after h₁
    refine (hright.value hc₁).bind fun rhs c₂ h₂ hr => ?_
    exact (safe_applyBinary (hc₁.after h₂) (hl.mono h₂.extent) hr
      fun d hd => (hdest d hd).mono (Steady.trans h₁ h₂).extent).mono fun _ _ _ h => h.1

theorem unary {op : UnaryOp} (he : Readable r e) : Readable r (.unary op e span) := by
  intro c dest hc hdest
  cases op with
  | neg =>
    unfold place
    refine Evaluates.slotPlace (fun c hc hdest => ?_) hc hdest
    refine (he.value hc).bind fun s c₁ h₁ hs => ?_
    exact safe_negate (hc.after h₁).registry hs fun d hd => (hdest d hd).mono h₁.extent
  | not =>
    unfold place
    refine Evaluates.slotPlace (fun c hc hdest => ?_) hc hdest
    refine (he.condition hc).bind fun a c₁ h₁ ha => ?_
    exact (safe_applyOne (hc.after h₁).registry (Registry.knows_prim .int) rfl ha
      fun d hd => (hdest d hd).mono h₁.extent).mono fun _ _ _ h => h.1
  | bitNot =>
    unfold place
    refine Evaluates.slotPlace (fun c hc hdest => ?_) hc hdest
    refine (he.value hc).bind fun s c₁ h₁ hs => ?_
    exact (safe_applyIntegral (hc.after h₁).registry hs
      fun d hd => (hdest d hd).mono h₁.extent).mono fun _ _ _ h => h.1
  | deref =>
    unfold place
    exact (he.slot hc).bind fun s c₁ _ hs => safe_pointeePlace hs
  | addrOf =>
    unfold place
    refine Evaluates.slotPlace (fun c hc hdest => ?_) hc hdest
    refine (he.locates c hc).bind fun p c₁ h₁ hp => ?_
    exact safe_addressOfOperand (hc.after h₁) hp fun d hd => (hdest d hd).mono h₁.extent

theorem assign {target value : Expr} (htarget : Readable r target) (hvalue : Readable r value) :
    Readable r (.assign target value span) := by
  intro c dest hc hdest
  unfold place
  refine Evaluates.slotPlace (fun c hc hdest => ?_) hc hdest
  split
  · exact .fail_bind
  · refine (htarget.locates c hc).bind fun p c₁ h₁ hp => ?_
    have hc₁ := hc.after h₁
    refine safe_checkAssignable.bind ?_
    rintro _ c₂ - rfl
    refine safe_writePlace hc₁ hp (fun s hs => hvalue.settled hc₁ hs) ?_
    refine (hvalue.value hc₁).bind fun v c₃ h₃ hv => ?_
    exact (safe_coerce (hc₁.after h₃).registry hv hp.known).mono fun _ _ _ h => h.1

/-- A call of what a name stands for: a function, an intrinsic with one operand, or a value. -/
theorem callName {n : String} {nameSpan : Span} (hargs : ∀ e ∈ args, Readable r e) :
    Readable r (.call (.name n nameSpan) args span) := by
  intro c dest hc hdest
  unfold place
  refine Evaluates.slotPlace (fun c hc _ => ?_) hc hdest
  refine safe_meaning.bind ?_
  rintro d c₁ - ⟨rfl, e, he, hd⟩
  have husable := hc.names n e he
  rw [hd] at husable
  have hnative : ∀ native, d = .native native → c₁.scopes.Offers native :=
    fun native hn => ⟨n, e, he, hd.trans hn⟩
  refine safe_callNamed hc husable hnative (fun i => ?_) (supplies_values hargs)
  match args with
  | [operand] => exact safe_intrinsicCall hc (hargs operand (List.mem_singleton.mpr rfl)).locates
  | [] => exact .fail
  | _ :: _ :: _ => exact .fail

/-- A call of a member of an object. The object is compiled again when the member is a field. -/
theorem callMember {object : Expr} {member : Ident} {memberSpan : Span}
    (hobject : Readable r object) (hargs : ∀ e ∈ args, Readable r e) :
    Readable r (.call (.member object member memberSpan) args span) := by
  intro c dest hc hdest
  unfold place
  refine Evaluates.slotPlace (fun c hc _ => ?_) hc hdest
  refine (hobject.locates c hc).bind fun p c₁ h₁ hp => ?_
  refine safe_callMember (hc.after h₁) hp (fun c₂ hc₂ => ?_) (supplies_values hargs)
  refine (hobject.locates c₂ hc₂).bind fun q c₃ h₃ hq => ?_
  have hc₃ := hc₂.after h₃
  refine (safe_fieldPlace hc₃ hq).bind fun field c₄ h₄ hfield => ?_
  exact (safe_read (hc₃.after h₄) hfield held_none).bind fun s c₅ _ hs =>
    safe_requireValue hs.1

/-- A call of a method of a class: on the receiver of the method that is compiled, or on the
first argument. -/
theorem callScoped {owner : TypeExpr} {member : Ident} {memberSpan : Span}
    (hargs : ∀ e ∈ args, Readable r e) :
    Readable r (.call (.scopedName owner member memberSpan) args span) := by
  intro c dest hc hdest
  unfold place
  refine Evaluates.slotPlace (fun c hc _ => ?_) hc hdest
  refine (safe_scopedMethod hc).bind fun type c₁ h₁ ⟨hknown, _⟩ => ?_
  have hc₁ := hc.after h₁
  refine safe_receiverIsImplicit.bind ?_
  rintro implicit c₂ - ⟨rfl, himplicit⟩
  split
  · rename_i htrue
    refine (safe_implicitReceiver hc₁ (himplicit htrue)).bind ?_
    rintro b c₃ - ⟨rfl, hthis⟩
    exact safe_callStatic hc₁ hknown hthis (supplies_values hargs)
  · match args with
    | [] => exact .typeName_bind .fail
    | first :: rest =>
      obtain ⟨hfirst, hrest⟩ := List.forall_mem_cons.mp hargs
      refine (hfirst.value hc₁).bind fun v c₃ h₃ hv => ?_
      have hc₃ := hc₁.after h₃
      refine (safe_coerce hc₃.registry hv (Registry.knows_pointer.mpr hknown)).bind
        fun receiver c₄ h₄ ⟨hreceiver, htype⟩ => ?_
      have hstorage := hreceiver.storage
      rw [htype] at hstorage
      exact safe_callStatic (hc₃.after h₄) hknown (.inl hstorage) (supplies_values hrest)

/-- A call of a value: every other form of callee. -/
theorem callValue {callee : Expr} (hcallee : Readable r callee)
    (hargs : ∀ e ∈ args, Readable r e)
    (hform : ∀ dest, place dest (.call callee args span) = slotPlace do
      Lowering.callValue (← asValue callee (place none callee) none) (values args)
        (args.map (·.span)) span) :
    Readable r (.call callee args span) := by
  intro c dest hc hdest
  rw [hform]
  refine Evaluates.slotPlace (fun c hc _ => ?_) hc hdest
  refine (hcallee.value hc).bind fun s c₁ h₁ hs => ?_
  exact safe_callValue (hc.after h₁) hs (supplies_values hargs)

theorem member {object : Expr} {field : Ident} (hobject : Readable r object) :
    Readable r (.member object field span) := by
  intro c dest hc _
  unfold place
  refine (hobject.locates c hc).bind fun p c₁ h₁ hp => ?_
  exact safe_fieldPlace (hc.after h₁) hp

theorem scopedName {owner : TypeExpr} {field : Ident} :
    Readable r (.scopedName owner field span) := by
  intro c dest hc hdest
  unfold place
  exact Evaluates.slotPlace (fun c hc _ => safe_scopedValue hc) hc hdest

theorem index {object position : Expr} (hobject : Readable r object)
    (hposition : Readable r position) : Readable r (.index object position span) := by
  intro c dest hc _
  unfold place
  refine (hobject.slot hc).bind fun array c₁ h₁ harray => ?_
  have hc₁ := hc.after h₁
  refine safe_elementType.bind ?_
  rintro element c₂ - ⟨rfl, htype⟩
  refine (hposition.slot hc₁).bind fun index c₃ h₃ hindex => ?_
  exact safe_elementPlace (hc₁.after h₃) (harray.mono h₃.extent) htype hindex

theorem newObject {owner : TypeExpr} (hargs : ∀ e ∈ args, Readable r e) :
    Readable r (.newObject owner args span) := by
  intro c dest hc hdest
  unfold place
  exact Evaluates.slotPlace (fun c hc _ => safe_newObject hc (supplies_values hargs)) hc hdest

theorem newArray {element : TypeExpr} (hes : ∀ e ∈ es, Readable r e) :
    Readable r (.newArray element es span) := by
  intro c dest hc hdest
  unfold place
  exact Evaluates.slotPlace
    (fun c hc _ => safe_newArray hc fun c hc => safe_dimensions hes hc) hc hdest

theorem array (hes : ∀ e ∈ es, Readable r e) : Readable r (.array es span) := by
  intro c dest hc hdest
  unfold place
  refine Evaluates.slotPlace (fun c hc _ => ?_) hc hdest
  match es with
  | [] => exact .fail
  | first :: rest =>
    obtain ⟨hfirst, hrest⟩ := List.forall_mem_cons.mp hes
    refine safe_requireNative.bind ?_
    rintro _ c₁ - ⟨rfl, hoffers⟩
    refine (hfirst.value hc).bind fun v c₂ h₂ hv => ?_
    have hc₂ := hc.after h₂
    refine (Readable.safe_coerced hrest hv.known hc₂).bind fun vs c₃ h₃ hvs => ?_
    refine safe_arrayOf (hc₂.after h₃) hv.known ((Steady.trans h₂ h₃).scopes ▸ hoffers) ?_
    exact List.forall_mem_cons.mpr ⟨⟨hv.mono h₃.extent, rfl⟩, hvs⟩

theorem cast {target : TypeExpr} (he : Readable r e) : Readable r (.cast e target span) := by
  intro c dest hc hdest
  unfold place
  refine Evaluates.slotPlace (fun c hc hdest => ?_) hc hdest
  refine (he.value hc).bind fun v c₁ h₁ hv => ?_
  have hc₁ := hc.after h₁
  refine (safe_resolveType_ready hc₁ target).bind fun t c₂ h₂ ht => ?_
  exact safe_castTo (hc₁.after h₂) (hv.mono h₂.extent) ht
    fun d hd => (hdest d hd).mono (Steady.trans h₁ h₂).extent

theorem instanceOf {owner : TypeExpr} (he : Readable r e) :
    Readable r (.instanceOf e owner span) := by
  intro c dest hc hdest
  unfold place
  refine Evaluates.slotPlace (fun c hc hdest => ?_) hc hdest
  refine (he.value hc).bind fun v c₁ h₁ hv => ?_
  exact safe_instanceTest (hc.after h₁) hv fun d hd => (hdest d hd).mono h₁.extent

theorem conditional {test yes no : Expr} (htest : Readable r test) (hyes : Readable r yes)
    (hno : Readable r no) : Readable r (.conditional test yes no span) := by
  intro c dest hc hdest
  rw [place_conditional]
  refine Evaluates.slotPlace (fun c hc hdest => ?_) hc hdest
  exact safe_conditional hc hdest (fun _ hc => htest.condition hc) hyes.evaluates hno.evaluates

theorem switch {subject default : Expr} {arms : List Arm} (hsubject : Readable r subject)
    (hvalues : ∀ arm ∈ arms, ∀ e ∈ arm.values, Readable r e)
    (hresults : ∀ arm ∈ arms, Readable r arm.result) (hdefault : Readable r default) :
    Readable r (.switch subject arms default span) := by
  intro c dest hc hdest
  rw [place_switch]
  refine Evaluates.slotPlace (fun c hc hdest => ?_) hc hdest
  exact safe_switch hc hdest hsubject.evaluates hdefault.evaluates
    (fun _ _ hc hs => safe_armTests hvalues hc hs)
    fun _ _ hc hdest => safe_armBodies hresults hc hdest

theorem placeholder {n : String} : Readable r (.placeholder n span) := by
  intro c dest _ _
  unfold place
  exact .fail

end Readable

/-! ## The tree -/

mutual

theorem readable : ∀ e : Expr, Readable r e
  | .literal .. => .literal
  | .name .. => .name
  | .receiver _ => .receiver
  | .binary _ left right _ => .binary (readable left) (readable right)
  | .unary _ e _ => .unary (readable e)
  | .assign target value _ => .assign (readable target) (readable value)
  | .call callee args _ => by
    have hcallee := readable callee
    have hargs := readable_all args
    cases callee with
    | name n nameSpan => exact .callName hargs
    | member object member memberSpan => exact .callMember (readable object) hargs
    | scopedName owner member memberSpan => exact .callScoped hargs
    | _ => exact .callValue hcallee hargs fun _ => by simp only [place]
  | .member object .. => .member (readable object)
  | .scopedName .. => .scopedName
  | .index object position _ => .index (readable object) (readable position)
  | .newObject _ args _ => .newObject (readable_all args)
  | .newArray _ dims _ => .newArray (readable_all dims)
  | .array es _ => .array (readable_all es)
  | .cast e .. => .cast (readable e)
  | .instanceOf e .. => .instanceOf (readable e)
  | .conditional test yes no _ => .conditional (readable test) (readable yes) (readable no)
  | .switch subject arms default _ =>
    .switch (readable subject) (fun arm h => (readable_arms arms arm h).1)
      (fun arm h => (readable_arms arms arm h).2) (readable default)
  | .placeholder .. => .placeholder

theorem readable_all : ∀ es : List Expr, ∀ e ∈ es, Readable r e
  | [] => List.forall_mem_nil _
  | e :: es => List.forall_mem_cons.mpr ⟨readable e, readable_all es⟩

theorem readable_arms : ∀ arms : List Arm, ∀ arm ∈ arms,
    (∀ e ∈ arm.values, Readable r e) ∧ Readable r arm.result
  | [] => List.forall_mem_nil _
  | .mk vs result _ :: arms =>
    List.forall_mem_cons.mpr ⟨⟨readable_all vs, readable result⟩, readable_arms arms⟩

end

theorem safe_place (e : Expr) (hc : Ready r c) (hdest : ∀ d ∈ dest, Held r c.extent d) :
    Safe Extends (place dest e) c fun p c' => p.Held r c'.extent :=
  readable e hc hdest

theorem safe_values (es : List Expr) (hc : Ready r c) :
    Safe Extends (values es) c fun vs c' => ∀ v ∈ vs, Held r c'.extent v :=
  supplies_values (fun e _ => readable e) c hc

theorem safe_coerced (element : Ty) (helement : r.Knows element) (es : List Expr)
    (hc : Ready r c) : Safe Extends (coerced element es) c fun vs c' =>
      ∀ v ∈ vs, Held r c'.extent v ∧ v.type = element :=
  Readable.safe_coerced (fun e _ => readable e) helement hc

theorem safe_tests (es : List Expr) {subject : Slot} {target : Label} (hc : Ready r c)
    (hsubject : Held r c.extent subject) :
    Safe Extends (tests subject target es) c fun _ _ => True :=
  Readable.safe_tests (fun e _ => readable e) hc hsubject

/-! ## Expressions -/

theorem safe_expr (e : Expr) (hc : Ready r c) (hdest : ∀ d ∈ dest, Held r c.extent d) :
    Safe Extends (expr e dest) c fun s c' => Held r c'.extent s :=
  safe_asSlot hc (safe_place e hc hdest) hdest

theorem safe_value (e : Expr) (hc : Ready r c) :
    Safe Extends (value e) c fun s c' => Held r c'.extent s :=
  safe_asValue hc (safe_place e hc held_none) held_none

theorem safe_into (e : Expr) {slot : Slot} (hc : Ready r c) (hslot : Held r c.extent slot) :
    Safe Extends (into e slot) c fun _ _ => True := by
  unfold into
  exact (readable e).settled hc hslot

theorem safe_probeType (e : Expr) (hc : Ready r c) :
    Safe Extends (probeType e) c fun t _ => r.Knows t := by
  unfold probeType
  refine (safe_probe (P := fun s => r.Knows s.type) fun c₁ hw hx hregs => ?_).bind
    fun s _ _ hs => .pure hs
  have hc₁ : Ready r c₁ := hc.within hw (hregs ▸ hc.registers)
  exact (safe_expr e hc₁ held_none).mono fun _ _ _ h => h.known

end CompileM

end ClassLang
