import ClassLang.Proofs.Integer.Switch

/-!
# Integer expressions are compiled correctly

The code for an integer expression runs to its end, in any surroundings, and computes the value of
the expression. The proof follows the tree. An expression that is offered a destination may write
there before it is done, so the induction speaks about all destinations at once: operands, which
must not touch the variables, are compiled without one, and only what is computed last gets the
destination of the whole.
-/

namespace ClassLang.Lowering

open CompileM Machine

variable {u : Arithmetic} {s : Scopes} {limit : Nat} {dest : Option Slot} {c c' : Compilation}

/-! ## Literals and names -/

/-- A result in a slot is read without any code. -/
theorem evaluates_slotPlace {step : CompileM Slot} {f : (String → Int64) → Int64}
    (h : Evaluates u s limit dest step f) :
    Evaluates u s limit dest (asSlot (slotPlace step) dest) f := by
  intro c c' slot hrun
  simp only [asSlot, slotPlace, yields_bind, yields_pure, Place.ofSlot] at hrun
  obtain ⟨_, _, ⟨slot', c₁, hstep, rfl, rfl⟩, hread⟩ := hrun
  rw [read, yields_pure] at hread
  obtain ⟨rfl, rfl⟩ := hread
  exact h hstep

theorem evaluates_literal {l : Literal} (hl : l.isIntegral = true) :
    Evaluates u s limit dest (literalSlot l) fun _ => l.integer := by
  intro c c' slot h hready _
  simp only [literalSlot, yields_bind] at h
  obtain ⟨a, c₁, hintern, h⟩ := h
  obtain ⟨hadds, rfl, hpool⟩ := adds_intern hintern
  obtain ⟨offset, hplace, hbytes⟩ := LiteralPool.intern_place hready.sound hl
  rw [← hpool] at hbytes
  rw [hplace] at h
  have hcomputes : ∀ p : Prim, p.isIntegral = true → l.encode.length = p.size →
      Bytes.word l.encode = l.integer →
      Computes u s limit dest c c₁ [] ⟨.prim p, .literal offset⟩ p fun _ => l.integer := by
    intro p hp hlen hword
    refine ⟨hadds, ⟨rfl, hp, fun _ _ => trivial⟩, ?_⟩
    intro m hm
    refine ⟨m, .nil m, ?_, .refl _ _ m⟩
    rw [Store.value, ← hlen, hm.read hbytes, hword]
  cases l with
  | int v =>
    rw [yields_pure] at h
    obtain ⟨rfl, rfl⟩ := h
    exact ⟨[], .int, hcomputes .int rfl rfl (Bytes.word_littleEndian v)⟩
  | char v =>
    rw [yields_pure] at h
    obtain ⟨rfl, rfl⟩ := h
    exact ⟨[], .char, hcomputes .char rfl rfl rfl⟩
  | float bits => cases hl
  | str v => cases hl

/-- A variable is read where it is. -/
theorem evaluates_name {name : String} {span : Span}
    (hname : (s.integer? limit name).isSome = true) :
    Evaluates u s limit dest (asSlot (namePlace name span) dest) fun env => env name := by
  intro c c' slot h hready _
  obtain ⟨⟨p, offset⟩, hint⟩ := Option.isSome_iff_exists.mp hname
  obtain ⟨hp, hle, isConst, span', span'', hfind⟩ := Scopes.integer?_eq_some hint
  simp only [asSlot, namePlace, meaning, meaning?, yields_bind, yields_get, yields_pure] at h
  simp only [hready.scopes, hfind, and_assoc, exists_and_left, exists_eq_left, Option.map_some,
    yields_pure] at h
  obtain ⟨rfl, rfl⟩ := h
  refine ⟨[], p, .nil _, ⟨rfl, hp, ?_⟩, ?_⟩
  · exact Address.holds_frame (Nat.le_trans hle hready.limit)
  · intro m _
    refine ⟨m, .nil m, ?_, .refl _ _ m⟩
    show _ = s.valuesIn limit m name
    rw [Scopes.valuesIn, hint]

/-! ## Uses of a value -/

theorem evaluates_asValue {e : Expr} {step : CompileM Place} {f : (String → Int64) → Int64}
    (h : Evaluates u s limit dest (asSlot step dest) f) :
    Evaluates u s limit dest (asValue e step dest) f := by
  intro c c' slot hrun hready hdest
  simp only [asValue, yields_bind] at hrun
  obtain ⟨value, c₁, hvalue, hrun⟩ := hrun
  obtain ⟨piece, p, hcomputes⟩ := h hvalue hready hdest
  rw [requireValue, integral_ne_void hcomputes.integral] at hrun
  simp only [Bool.false_eq_true, if_false, yields_pure] at hrun
  obtain ⟨rfl, rfl⟩ := hrun
  exact ⟨piece, p, hcomputes⟩

theorem evaluatesWord_asCondition {e : Expr} {step : CompileM Place}
    {f : (String → Int64) → Int64} (h : Evaluates u s limit none (asSlot step none) f) :
    EvaluatesWord u s limit (asCondition e step) f := by
  intro c c' a hrun hready
  simp only [asCondition, yields_bind] at hrun
  obtain ⟨value, c₁, hvalue, hrun⟩ := hrun
  obtain ⟨s₁, p, hcomputes⟩ := h hvalue hready (.none _)
  obtain ⟨s₂, hmaps⟩ := maps_condition (u := u) hcomputes.integral hrun
  exact ⟨s₁ ++ s₂, hcomputes.map hmaps hcomputes.adds.top⟩

/-- What was compiled with a destination is then left there, if it is not there already. -/
theorem evaluatesInto_settle {step : Slot → CompileM Place} (span : Span)
    {f : (String → Int64) → Int64}
    (h : ∀ result, Evaluates u s limit (some result) (asSlot (step result) (some result)) f) :
    EvaluatesInto u s limit
      (fun result => do settle (← asSlot (step result) (some result)) result span) f := by
  intro result p c c' v hrun hready hresult
  simp only [yields_bind] at hrun
  obtain ⟨value, c₁, hvalue, hrun⟩ := hrun
  have hoffered : Offered c.frame.top (some result) := by
    rintro _ ⟨⟩
    exact ⟨p, hresult⟩
  obtain ⟨s₁, q, hcomputes⟩ := h result hvalue hready hoffered
  obtain ⟨s₂, _, _, hmaps⟩ := maps_settle (u := u) hcomputes.integral
    (hresult.mono hcomputes.adds.top) (.inr ⟨result, rfl, hresult.type, rfl⟩) hrun
  exact ⟨s₁ ++ s₂, hcomputes.map hmaps (Nat.le_refl _)⟩

/-! ## Operators -/

theorem evaluates_unary {step : CompileM Slot} {apply : Slot → CompileM Slot}
    {f : (String → Int64) → Int64} {g : Int64 → Int64} (hstep : Evaluates u s limit none step f)
    (happly : ∀ {c c' value slot p}, Integral c.frame.top value p → Offered c.frame.top dest →
      Yields (apply value) c slot c' →
      ∃ piece q, Maps u dest c.frame.top c c' piece value.address p slot q g) :
    Evaluates u s limit dest (do apply (← step)) fun env => g (f env) := by
  intro c c' slot hrun hready hdest
  simp only [yields_bind] at hrun
  obtain ⟨value, c₁, hvalue, hrun⟩ := hrun
  obtain ⟨s₁, p, hcomputes⟩ := hstep hvalue hready (.none _)
  obtain ⟨s₂, q, hmaps⟩ := happly hcomputes.integral (hdest.mono hcomputes.adds.top) hrun
  exact ⟨s₁ ++ s₂, q, (hcomputes.offer dest).map hmaps hcomputes.adds.top⟩

theorem evaluates_not {step : CompileM Address} {f : (String → Int64) → Int64}
    (hstep : EvaluatesWord u s limit step f) :
    Evaluates u s limit dest (do applyOne .logicalNot (← step) .int dest)
      fun env => truth (f env = 0) := by
  intro c c' slot hrun hready hdest
  simp only [yields_bind] at hrun
  obtain ⟨a, c₁, ha, hrun⟩ := hrun
  obtain ⟨s₁, hcomputes⟩ := hstep ha hready
  obtain ⟨s₂, hmaps⟩ := maps_applyOne (u := u) (hdest.mono hcomputes.adds.top) hrun
  exact ⟨s₁ ++ s₂, .int, (hcomputes.offer dest).map hmaps hcomputes.adds.top⟩

/-- An operator that is not lazy. The left operand is still there when the right one has been
computed, because that was compiled without a destination. -/
theorem evaluates_binary {op : BinaryOp} {left right : CompileM Slot} {span : Span}
    {f g : (String → Int64) → Int64} (hleft : Evaluates u s limit none left f)
    (hright : Evaluates u s limit none right g) :
    Evaluates u s limit dest (do
      let lhs ← left
      let rhs ← right
      applyBinary op lhs rhs span dest) fun env => op.apply u (f env) (g env) := by
  intro c c' slot hrun hready hdest
  simp only [yields_bind] at hrun
  obtain ⟨lhs, c₁, hl, rhs, c₂, hr, hrun⟩ := hrun
  obtain ⟨s₁, p, hlhs⟩ := hleft hl hready (.none _)
  have hready₁ := hready.adds hlhs.adds
  obtain ⟨s₂, q, hrhs⟩ := hright hr hready₁ (.none _)
  have hadds := hlhs.adds.trans hrhs.adds
  obtain ⟨s₃, hadds₃, hslot, hruns₃⟩ := runs_applyBinary (u := u)
    (hlhs.integral.mono hrhs.adds.top) hrhs.integral (hdest.mono hadds.top) hrun
  refine ⟨s₁ ++ (s₂ ++ s₃), .int, ?_, hslot, ?_⟩
  · simpa using hadds.trans hadds₃
  · intro m hm
    obtain ⟨m₁, hruns₁, hvalue₁, hspares₁, hvars₁, hm₁⟩ :=
      hlhs.before hready (hrhs.adds.trans hadds₃) hm
    obtain ⟨m₂, hruns₂, hvalue₂, hspares₂, _, _⟩ := hrhs.before hready₁ hadds₃ hm₁
    obtain ⟨m₃, hruns₃, hvalue₃, hspares₃⟩ := hruns₃ m₂
    refine ⟨m₃, hruns₁.trans (hruns₂.trans hruns₃), ?_, ?_⟩
    · rw [hvalue₃, hvalue₂, hspares₂.value hlhs.integral.holds, hvalue₁, hvars₁]
    · exact ((hspares₁.trans hspares₂ hlhs.adds.top).offer dest).trans hspares₃ hadds.top

theorem evaluates_cast {step : CompileM Slot} {target : TypeExpr} {q : Prim} {span : Span}
    {f : (String → Int64) → Int64} (htarget : target.integral? = some q)
    (hstep : Evaluates u s limit none step f) :
    Evaluates u s limit dest (do
      let value ← step
      castTo value (← resolveType target) span dest) fun env => q.fit (f env) := by
  cases target with
  | named name args nameSpan =>
    cases args with
    | cons t ts => cases htarget
    | nil =>
      obtain ⟨hname, hq⟩ := Option.filter_eq_some_iff.mp htarget
      refine evaluates_unary hstep ?_
      intro c c' value slot p hvalue hdest hrun
      simp only [resolveType, hname, List.isEmpty_nil, if_true, pure_bind] at hrun
      obtain ⟨piece, hmaps⟩ := maps_castTo hvalue hq hdest hrun
      exact ⟨piece, q, hmaps⟩
  | _ => cases htarget

/-! ## The tree -/

section Tree

variable (u : Arithmetic) (s : Scopes) (limit : Nat)

mutual

theorem expr_evaluates : ∀ e : Expr,
    e.isInteger (fun n => (s.integer? limit n).isSome) = true → ∀ dest,
      Evaluates u s limit dest (asSlot (place dest e) dest) fun env => e.eval u env
  | .literal l _, h, dest => by
    simp only [place, Expr.eval]
    exact evaluates_slotPlace (evaluates_literal h)
  | .name n _, h, dest => by
    simp only [place, Expr.eval]
    exact evaluates_name h
  | .binary op l r _, h, dest => by
    obtain ⟨hl, hr⟩ := Bool.and_eq_true_iff.mp h
    have hleft := expr_evaluates l hl none
    have hright := expr_evaluates r hr
    cases hlazy : op.isLazy with
    | true =>
      simp only [place, hlazy, if_true, Expr.eval_of_isLazy u _ hlazy]
      exact evaluates_slotPlace (evaluates_lazyOperator (evaluatesWord_asCondition hleft)
        (evaluatesInto_settle _ fun result => hright (some result)))
    | false =>
      simp only [place, hlazy, Bool.false_eq_true, if_false, Expr.eval_of_not_isLazy u _ hlazy]
      exact evaluates_slotPlace (evaluates_binary (evaluates_asValue hleft)
        (evaluates_asValue (hright none)))
  | .unary op e _, h, dest => by
    obtain ⟨hop, he⟩ := Bool.and_eq_true_iff.mp h
    have hvalue := expr_evaluates e he none
    simp only [place]
    cases op with
    | neg =>
      simp only [Expr.eval]
      refine evaluates_slotPlace (evaluates_unary (evaluates_asValue hvalue) ?_)
      intro c c' value slot p hp hdest hrun
      exact (maps_negate hp hdest hrun).imp fun piece hmaps => ⟨.int, hmaps⟩
    | not =>
      simp only [Expr.eval]
      exact evaluates_slotPlace (evaluates_not (evaluatesWord_asCondition hvalue))
    | bitNot =>
      simp only [Expr.eval]
      refine evaluates_slotPlace (evaluates_unary (evaluates_asValue hvalue) ?_)
      intro c c' value slot p hp hdest hrun
      exact (maps_applyIntegral hp hdest hrun).imp fun piece hmaps => ⟨.int, hmaps⟩
    -- Pointers are no integers, so these two are not among the integer expressions.
    | deref => cases hop
    | addrOf => cases hop
  | .cast e t _, h, dest => by
    obtain ⟨ht, he⟩ := Bool.and_eq_true_iff.mp h
    obtain ⟨q, hq⟩ := Option.isSome_iff_exists.mp ht
    have hvalue := expr_evaluates e he none
    simp only [place, Expr.eval, hq]
    exact evaluates_slotPlace (evaluates_cast hq (evaluates_asValue hvalue))
  | .conditional test yes no _, h, dest => by
    obtain ⟨htest, h⟩ := Bool.and_eq_true_iff.mp h
    obtain ⟨hyes, hno⟩ := Bool.and_eq_true_iff.mp h
    have htest := expr_evaluates test htest none
    have hyes := expr_evaluates yes hyes dest
    have hno := expr_evaluates no hno dest
    simp only [place, Expr.eval]
    exact evaluates_slotPlace (evaluates_conditional (evaluatesWord_asCondition htest)
      (evaluates_asValue hyes) (evaluates_asValue hno))
  | .switch subject arms default _, h, dest => by
    obtain ⟨hsubject, h⟩ := Bool.and_eq_true_iff.mp h
    obtain ⟨harms, hdefault⟩ := Bool.and_eq_true_iff.mp h
    have hsubject := expr_evaluates subject hsubject none
    have hdefault := expr_evaluates default hdefault dest
    simp only [place, Expr.eval]
    exact evaluates_slotPlace (evaluates_switch (evaluates_asValue hsubject)
      (armTests_selects arms harms) (evaluates_asValue hdefault)
      (armBodies_bodies arms harms))

theorem tests_selects : ∀ es : List Expr,
    Expr.allInteger (fun n => (s.integer? limit n).isSome) es = true →
    ∀ {subject p target c c' v}, Yields (tests subject target es) c v c' → Ready s limit c →
      Integral c.frame.top subject p → ∃ piece, Selects u s limit c c' piece [] subject p
        fun env x => if Expr.anyEqual u env x es then some target else none
  | [], _, subject, p, target, c, c', v, hrun, _, _ => by
    rw [tests, yields_pure] at hrun
    obtain ⟨_, rfl⟩ := hrun
    exact ⟨[], .of_adds (.nil c')⟩
  | e :: es, h, subject, p, target, c, c', v, hrun, hready, hsubject => by
    obtain ⟨he, hes⟩ := Bool.and_eq_true_iff.mp h
    rw [tests, yields_bind] at hrun
    obtain ⟨_, c₁, htest, hrun⟩ := hrun
    obtain ⟨s₁, hfirst⟩ := selects_test (evaluates_asValue (expr_evaluates e he none)) hready
      hsubject htest
    obtain ⟨s₂, hrest⟩ := tests_selects es hes hrun (hready.adds hfirst.adds)
      (hsubject.mono hfirst.adds.top)
    refine ⟨s₁ ++ s₂, (hfirst.trans hrest hready hsubject).congr ?_⟩
    intro env x
    rw [Expr.anyEqual]
    by_cases heq : x = e.eval u env
    · simp [heq]
    · simp [heq]

theorem armTests_selects : ∀ arms : List Arm,
    Expr.armsInteger (fun n => (s.integer? limit n).isSome) arms = true →
    ∀ {subject p c c' ls}, Yields (armTests subject arms) c ls c' → Ready s limit c →
      Integral c.frame.top subject p → ls.length = arms.length ∧ ∃ piece,
        Selects u s limit c c' piece ls subject p fun env x => Expr.selected? u env x arms ls
  | [], _, subject, p, c, c', ls, hrun, _, _ => by
    rw [armTests, yields_pure] at hrun
    obtain ⟨rfl, rfl⟩ := hrun
    exact ⟨rfl, [], .of_adds (.nil c')⟩
  | .mk vs result _ :: arms, h, subject, p, c, c', ls, hrun, hready, hsubject => by
    obtain ⟨hvs, h⟩ := Bool.and_eq_true_iff.mp h
    obtain ⟨_, harms⟩ := Bool.and_eq_true_iff.mp h
    simp only [armTests, yields_bind, yields_pure] at hrun
    obtain ⟨l, c₁, hl, _, c₂, htests, ls, c₃, hrun, rfl, rfl⟩ := hrun
    have hmade := adds_freshLabel hl
    have hready₁ := hready.adds hmade
    have hsubject₁ := hsubject.mono hmade.top
    obtain ⟨s₁, hfirst⟩ := tests_selects vs hvs htests hready₁ hsubject₁
    obtain ⟨hlen, s₂, hrest⟩ := armTests_selects arms harms hrun (hready₁.adds hfirst.adds)
      (hsubject₁.mono hfirst.adds.top)
    have hboth := hfirst.trans hrest hready₁ hsubject₁
    have hall := (Selects.of_adds hmade).trans hboth hready hsubject
    refine ⟨congrArg Nat.succ hlen, s₁ ++ s₂, hall.congr ?_⟩
    intro env x
    rw [Expr.selected?]
    split
    · rfl
    · rfl

theorem armBodies_bodies : ∀ arms : List Arm,
    Expr.armsInteger (fun n => (s.integer? limit n).isSome) arms = true →
    ∀ {dest c c' ls bs}, Yields (armBodies dest arms ls) c bs c' → Ready s limit c →
      Offered c.frame.top dest → ls.length = arms.length →
      ∃ piece, Bodies u s limit dest c c' piece (arms.zip ls) bs
  | [], _, dest, c, c', ls, bs, hrun, _, _, _ => by
    simp only [armBodies, yields_pure] at hrun
    obtain ⟨rfl, rfl⟩ := hrun
    exact ⟨[], .nil⟩
  | .mk vs result _ :: arms, h, dest, c, c', [], bs, hrun, _, _, hlen => by cases hlen
  | .mk vs result _ :: arms, h, dest, c, c', l :: ls, bs, hrun, hready, hdest, hlen => by
    obtain ⟨_, h⟩ := Bool.and_eq_true_iff.mp h
    obtain ⟨hresult, harms⟩ := Bool.and_eq_true_iff.mp h
    have hresult := expr_evaluates result hresult dest
    simp only [armBodies, yields_bind, yields_emitLabel, yields_emitGoto, yields_pure] at hrun
    obtain ⟨_, _, rfl, j, c₁, hj, value, c₂, hvalue, _, _, rfl, bs, c₃, hrun, rfl, rfl⟩ := hrun
    have hlabel := adds_label c l
    have hmade := adds_freshLabel hj
    have hready₁ := (hready.adds hlabel).adds hmade
    have hdest₁ := hdest.mono (hlabel.trans hmade).top
    obtain ⟨s₁, p, hcomputes⟩ := evaluates_asValue hresult hvalue hready₁ hdest₁
    have hgoto := adds_emit (c := c₂) (i := .goto j) rfl
    obtain ⟨s₂, hrest⟩ := armBodies_bodies arms harms hrun
      ((hready₁.adds hcomputes.adds).adds hgoto) (hdest₁.mono (hcomputes.adds.trans hgoto).top)
      (Nat.succ.inj hlen)
    exact ⟨_, .cons hmade hcomputes rfl hrest⟩

end

end Tree

/-- Two variables, `x` of type `int` and behind it `y` of type `char`. -/
def twoVariables : Compilation where
  options := {}
  registry := Registry.initial 8
  scopes := ⟨⟨.global, ((Table.empty.insert "x"
    ⟨.variable ⟨.int, .frame 0, false, .unknown⟩, .unknown⟩).insert "y"
    ⟨.variable ⟨.char, .frame 8, false, .unknown⟩, .unknown⟩)⟩, []⟩
  frame := { Frame.initial 8 with top := 9 }
  listing := .empty
  literals := .empty
  warnings := #[]
  muted := 0
  path := ""
  moduleScopes := .empty
  bodies := .empty
  globals := []
  deferring := false
  deferred := []
  failedPath := none

/-- `if x < 10 and y then x + 1 else switch y { 0, 'b' => -x, default => 7 }` -/
def steppedOrSwitched : Expr :=
  let x := Expr.name "x" .unknown
  let y := Expr.name "y" .unknown
  let number (v : Int64) := Expr.literal (.int v) .unknown
  .conditional (.binary .and (.binary .less x (number 10) .unknown) y .unknown)
    (.binary .add x (number 1) .unknown)
    (.switch y [.mk [number 0, .literal (.char 98) .unknown] (.unary .neg x .unknown) .unknown]
      (number 7) .unknown) .unknown

/-- Arithmetic that the expression does not depend on. -/
def someArithmetic : Arithmetic where
  byZero _ _ := 0
  shiftLeft := (· <<< ·)
  shiftRight := (· >>> ·)
  float _ x _ := x
  floatNeg := id
  intToFloat := id
  floatToInt := id
  pointerSize := 8
  pointer _ := []
  pointee _ := .frame 0

/-- A store in which `x` is three and `y` is `'a'`. -/
def threeAndLetter (p : LiteralPool) : Store where
  bytes
    | .frame n => [3, 0, 0, 0, 0, 0, 0, 0, 97].getD n 0
    | .literal n => p.bytes.getD n 0
    | _ => 0
  registers _ := .frame 0

end ClassLang.Lowering
