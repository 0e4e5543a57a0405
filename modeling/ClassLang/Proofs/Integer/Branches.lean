import ClassLang.Proofs.Integer.Operations

/-!
# Branches of integer expressions

Lazy operators, conditionals and switches. Only one branch is run, and it may use the destination
that the whole expression was offered: nothing is read from there afterwards but the value of the
branch itself. The branches are then joined at a common type, which holds the values of all of
them, so that joining changes no value.
-/

namespace ClassLang.Lowering

open CompileM Machine

variable {u : Arithmetic} {s : Scopes} {limit : Nat} {dest : Option Slot} {c c' : Compilation}

/-- What is written for a result is written for the destination. -/
theorem spares_of_result {top top' : Nat} {m m' : Store} {a : Address} {p : Prim}
    (h : m.Spares top' (some ⟨.prim p, a⟩) m') (ha : Writable top dest a p) (hle : top ≤ top') :
    m.Spares top dest m' := by
  intro b hb hdest
  refine h b (hb.mono hle) ?_
  rintro d hd ⟨q, i, hq, hi, rfl⟩
  injection hd with hd
  subst hd
  injection hq with hq
  subst hq
  rcases ha with ⟨n, rfl, hn⟩ | ⟨d', hd', htype, rfl⟩
  · have hlt : n + i < top := hb
    omega
  · exact hdest d' hd' ⟨p, i, htype, hi, rfl⟩

theorem inStore_of_spares {top : Nat} {m m' : Store} {p : LiteralPool}
    (h : m.Spares top none m') (hp : p.InStore m) : p.InStore m' := by
  intro i b hb
  rw [h (.literal i) trivial fun d hd => by cases hd]
  exact hp i b hb

/-- After an operand has been computed, variables and literals are what they were. -/
theorem Computes.before {c₁ c₂ : Compilation} {s₁ s₂ : List Instr} {made placed : List Label}
    {slot : Slot} {p : Prim} {value : (String → Int64) → Int64} {m : Store}
    (h : Computes u s limit none c c₁ s₁ slot p value) (hready : Ready s limit c)
    (hlater : Adds c₁ c₂ s₂ made placed) (hm : c₂.literals.InStore m) :
    ∃ m₁, Runs u s₁ m m₁ ∧ m₁.value p slot.address = value (s.valuesIn limit m) ∧
      m.Spares c.frame.top none m₁ ∧ s.valuesIn limit m₁ = s.valuesIn limit m ∧
      c₂.literals.InStore m₁ := by
  obtain ⟨m₁, hruns, hvalue, hspares⟩ := h.runs m (hlater.inStore hm)
  exact ⟨m₁, hruns, hvalue, hspares, Scopes.valuesIn_congr hspares hready.limit,
    inStore_of_spares hspares hm⟩

/-- A step whose temporaries are given back leaves its result where it was before. -/
theorem evaluatesInto_withTemps {step : Slot → CompileM Unit} {value : (String → Int64) → Int64}
    (hstep : EvaluatesInto u s limit step value) :
    EvaluatesInto u s limit (fun result => withTemps (step result)) value := by
  intro result p c c' v h hready hresult
  obtain ⟨c₁, hrun, htop, hliterals, hadds⟩ := adds_withTemps h
  obtain ⟨piece, hcomputes⟩ := hstep hrun ⟨hready.scopes, hready.limit, hready.sound⟩ hresult
  refine ⟨piece, hadds hcomputes.adds, htop ▸ hresult, ?_⟩
  intro m hm
  exact hcomputes.runs m (hliterals ▸ hm)

/-- Storing a small number. -/
theorem computes_imm {slot : Slot} {v : Int} {w : Int64} (hslot : Integral c.frame.top slot .int)
    (hv : immediate v 8 = Prim.int.encode w) :
    Computes u s limit (some slot) c (c.add [.imm slot.address v Prim.int.size])
      [.imm slot.address v Prim.int.size] slot .int (fun _ => w) := by
  refine ⟨adds_emit rfl, hslot, ?_⟩
  intro m _
  refine ⟨m.write slot.address (Prim.int.encode w), ?_, ?_, ?_⟩
  · exact .effect (congrArg (fun bs => some (m.write slot.address bs)) hv)
  · rw [Store.value_write_encode, Prim.fit_int]
  · exact Store.spares_write (Prim.length_encode ..) (.inr ⟨slot, rfl, hslot.type, rfl⟩)

/-- Two branches that leave their values in one slot. -/
theorem computes_ifElse {c₁ c₂ c₃ c₄ : Compilation} {test yes no : List Instr} {a : Address}
    {o d : Label} {slot : Slot} {f g h : (String → Int64) → Int64} (hready : Ready s limit c₁)
    (hmade : Adds c c₁ [] [o, d] []) (hslot : Writable c.frame.top dest slot.address .int)
    (htest : Computes u s limit none c₁ c₂ test ⟨.int, a⟩ .int f)
    (hyes : Computes u s limit (some slot) (c₂.add [.ifFalse a o]) c₃ yes slot .int g)
    (hno : Computes u s limit (some slot) ((c₃.add [.goto d]).add [.label o]) c₄ no slot .int h) :
    Computes u s limit dest c (c₄.add [.label d])
      (test ++ .ifFalse a o :: (yes ++ .goto d :: .label o :: (no ++ [.label d]))) slot .int
      fun env => if f env = 0 then h env else g env := by
  have hjump := adds_emit (c := c₂) (i := .ifFalse a o) rfl
  have hbetween := (adds_emit (c := c₃) (i := .goto d) rfl).trans (adds_label _ o)
  have hend := adds_label c₄ d
  have hlast := (hbetween.trans hno.adds).trans hend
  have hlater := (hjump.trans hyes.adds).trans hlast
  have hall := ((hmade.trans htest.adds).trans hlater).settle (by simp)
  have htop₁ : c.frame.top ≤ c₁.frame.top := hmade.top
  have htop₂ : c.frame.top ≤ c₂.frame.top := Nat.le_trans htop₁ htest.adds.top
  have htop₃ : c.frame.top ≤ c₃.frame.top := Nat.le_trans htop₂ hyes.adds.top
  have heta : (⟨.prim .int, slot.address⟩ : Slot) = slot := by rw [← hno.integral.type]
  refine ⟨by simpa using hall, hno.integral, ?_⟩
  intro m hm
  obtain ⟨m₁, hrun₁, hvalue₁, hspares₁, hvars₁, hm₁⟩ := htest.before hready hlater hm
  -- The word that is tested has the value of the test.
  by_cases hzero : f (s.valuesIn limit m) = 0
  · obtain ⟨m₂, hrun₂, hvalue₂, hspares₂⟩ := hno.runs m₁ (hend.inStore hm₁)
    refine ⟨m₂, .ifElse hrun₁ (fun _ => hrun₂) ?_, ?_, ?_⟩
    · intro hne
      exact absurd (hvalue₁.trans hzero) hne
    · rw [hvalue₂, hvars₁, if_pos hzero]
    · rw [← heta] at hspares₂
      exact ((hspares₁.mono htop₁).offer dest).trans (spares_of_result hspares₂ hslot htop₃)
        (Nat.le_refl _)
  · obtain ⟨m₂, hrun₂, hvalue₂, hspares₂⟩ := hyes.runs m₁ (hlast.inStore hm₁)
    refine ⟨m₂, .ifElse hrun₁ ?_ (fun _ => hrun₂), ?_, ?_⟩
    · intro heq
      exact absurd (hvalue₁.symm.trans heq) hzero
    · rw [hvalue₂, hvars₁, if_neg hzero]
    · rw [← heta] at hspares₂
      exact ((hspares₁.mono htop₁).offer dest).trans (spares_of_result hspares₂ hslot htop₂)
        (Nat.le_refl _)

/-- `and` and `or`. -/
theorem evaluates_lazyOperator {isAnd : Bool} {left : CompileM Address}
    {right : Slot → CompileM Unit} {f g : (String → Int64) → Int64}
    (hleft : EvaluatesWord u s limit left f) (hright : EvaluatesInto u s limit right g) :
    Evaluates u s limit dest (lazyOperator isAnd left right dest) fun env =>
      if f env = 0 then if isAnd then 0 else g env else if isAnd then g env else 1 := by
  intro c c' slot h hready hdest
  simp only [lazyOperator, yields_bind, yields_emit] at h
  obtain ⟨dst, c₁, hresult, o, c₂, ho, d, c₃, hd, a, c₄, hl, _, c₅, rfl, h⟩ := h
  obtain ⟨hadds₁, hslot, hdst⟩ := resultAddress_spec (p := .int) rfl hdest hresult
  have hlabels := (adds_freshLabel ho).trans (adds_freshLabel hd)
  have hmade := hadds₁.trans hlabels
  have hready₃ := hready.adds hmade
  obtain ⟨test, htest⟩ := hleft hl hready₃
  have hjump := adds_emit (c := c₄) (i := .ifFalse a o) rfl
  have hready₅ := (hready₃.adds htest.adds).adds hjump
  have hslot₅ := hslot.mono (hlabels.trans (htest.adds.trans hjump)).top
  cases isAnd with
  | true =>
    simp only [if_true, yields_bind, yields_emitGoto, yields_emitLabel, yields_emit,
      yields_pure] at h
    obtain ⟨_, c₆, hr, _, _, rfl, _, _, rfl, _, _, rfl, _, _, rfl, rfl, rfl⟩ := h
    obtain ⟨yes, hyes⟩ := evaluatesInto_withTemps hright hr hready₅ hslot₅
    simp only [Prim.fit_int] at hyes
    have hbetween := (adds_emit (c := c₆) (i := .goto d) rfl).trans (adds_label _ o)
    -- `and` is 0 without its right operand.
    have hno : Computes u s limit (some ⟨.int, dst⟩) ((c₆.add [.goto d]).add [.label o]) _ _ _ .int
        fun _ => 0 :=
      computes_imm (hslot₅.mono (hyes.adds.trans hbetween).top) (v := 0) (by decide)
    have hwhole := computes_ifElse hready₃ hmade hdst htest hyes hno
    exact ⟨_, _, hwhole⟩
  | false =>
    simp only [Bool.false_eq_true, if_false, yields_bind, yields_emitGoto, yields_emitLabel,
      yields_emit, yields_pure] at h
    obtain ⟨_, _, rfl, _, _, rfl, _, _, rfl, _, c₆, hr, _, _, rfl, rfl, rfl⟩ := h
    -- `or` is 1 without its right operand.
    have hyes : Computes u s limit (some ⟨.int, dst⟩) (c₄.add [.ifFalse a o]) _ _ _ .int
        fun _ => 1 := computes_imm hslot₅ (v := 1) (by decide)
    have hbetween := (adds_emit (c := (c₄.add [.ifFalse a o]).add [.imm dst 1 Prim.int.size])
      (i := .goto d) rfl).trans (adds_label _ o)
    have hlater := hyes.adds.trans hbetween
    obtain ⟨no, hno⟩ := evaluatesInto_withTemps hright hr (hready₅.adds hlater)
      (hslot₅.mono hlater.top)
    simp only [Prim.fit_int] at hno
    have hwhole := computes_ifElse hready₃ hmade hdst htest hyes hno
    exact ⟨_, _, hwhole⟩

/-! ## Joins -/

/-- Integral types are joined at one of them that holds the values of all. -/
theorem yields_commonType {ts : List Ty} {span : Span} {t : Ty}
    (hts : ∀ t ∈ ts, ∃ p : Prim, p.isIntegral = true ∧ t = .prim p)
    (h : Yields (commonType ts span) c t c') :
    c' = c ∧ ∃ q : Prim, q.isIntegral = true ∧ t = .prim q ∧
      ∀ p : Prim, .prim p ∈ ts → p.size ≤ q.size := by
  simp only [commonType, yields_bind, yields_get, and_assoc, exists_and_left,
    exists_eq_left] at h
  split at h
  · rename_i t' hcommon
    rw [yields_pure] at h
    obtain ⟨rfl, rfl⟩ := h
    refine ⟨rfl, ?_⟩
    unfold commonType? at hcommon
    rw [Option.or_eq_some_iff] at hcommon
    rcases hcommon with hstrong | ⟨hnone, hweak⟩
    · obtain ⟨q, hq, rfl⟩ := hts t (List.mem_of_find?_eq_some hstrong)
      have hall := List.find?_some (p := fun t => ts.all (c'.registry.convertsStrongly · t)) hstrong
      refine ⟨q, hq, rfl, ?_⟩
      intro p hp
      obtain ⟨p', hp', heq⟩ := hts _ hp
      injection heq with heq
      subst heq
      exact (convertsStrongly_integral _ hp' hq).mp (List.all_eq_true.mp hall _ hp)
    · -- The widest of the types would have been found.
      exfalso
      rw [List.find?_eq_none] at hnone
      have hwidest : ∀ q : Prim, q.isIntegral = true → .prim q ∈ ts →
          ¬∀ p : Prim, p.isIntegral = true → .prim p ∈ ts → p.size ≤ q.size := by
        intro q hq hmem hle
        refine hnone _ hmem (List.all_eq_true.mpr ?_)
        intro t' ht'
        obtain ⟨p, hp, rfl⟩ := hts t' ht'
        exact (convertsStrongly_integral _ hp hq).mpr (hle p hp ht')
      by_cases hint : Ty.prim .int ∈ ts
      · exact hwidest .int rfl hint fun p _ _ => p.size_le
      · have hbyte : ∀ p : Prim, p.isIntegral = true → .prim p ∈ ts → p.size = 1 := by
          intro p hp hmem
          rcases prim_cases hp with rfl | rfl | rfl
          · exact absurd hmem hint
          · rfl
          · rfl
        have hmem := List.mem_of_find?_eq_some hweak
        obtain ⟨q, hq, rfl⟩ := hts t hmem
        refine hwidest q hq hmem ?_
        intro p hp hp'
        exact Nat.le_of_eq ((hbyte p hp hp').trans (hbyte q hq hmem).symm)
  · exact absurd h yields_fail.mp

/-- A value that was computed is converted into the result, which can hold it. -/
theorem Computes.join {c₁ c₂ c₃ : Compilation} {s₁ s₂ : List Instr} {value result : Slot}
    {p q : Prim} {f : (String → Int64) → Int64} {m : Store}
    (h : Computes u s limit dest c c₁ s₁ value p f)
    (hjoin : Maps u dest c'.frame.top c₂ c₃ s₂ value.address p result q q.fit)
    (htop : c'.frame.top ≤ c.frame.top) (hq : q.isIntegral = true) (hsize : p.size ≤ q.size)
    (hm : c₁.literals.InStore m) :
    ∃ m₁ m₂, Runs u s₁ m m₁ ∧ Runs u s₂ m₁ m₂ ∧
      m₂.value q result.address = f (s.valuesIn limit m) ∧ m.Spares c'.frame.top dest m₂ := by
  obtain ⟨m₁, hruns₁, hvalue₁, hspares₁⟩ := h.runs m hm
  obtain ⟨m₂, hruns₂, hvalue₂, hspares₂⟩ := hjoin.runs m₁
  refine ⟨m₁, m₂, hruns₁, hruns₂, ?_, (hspares₁.mono htop).trans hspares₂ (Nat.le_refl _)⟩
  rw [hvalue₂, m₁.fit_value _ hq hsize, hvalue₁]

/-- Two branches that are joined at one type, which holds the values of both. -/
theorem computes_ifElseJoin {c₁ c₂ c₃ c₄ c₅ c₆ c₇ : Compilation}
    {test yes no joinYes joinNo : List Instr} {a : Address} {o d j : Label}
    {yv nv result : Slot} {p q t : Prim} {f g h : (String → Int64) → Int64}
    (hready : Ready s limit c₁) (hmade : Adds c c₁ [] [o, d, j] [])
    (htest : Computes u s limit none c₁ c₂ test ⟨.int, a⟩ .int f)
    (hyes : Computes u s limit dest (c₂.add [.ifFalse a o]) c₃ yes yv p g)
    (hno : Computes u s limit dest ((c₃.add [.goto j]).add [.label o]) c₄ no nv q h)
    (hresult : Adds c₄ c₅ [] [] [])
    (hjoinNo : Maps u dest c.frame.top c₅ c₆ joinNo nv.address q result t t.fit)
    (hjoinYes : Maps u dest c.frame.top ((c₆.add [.goto d]).add [.label j]) c₇ joinYes yv.address
      p result t t.fit)
    (ht : t.isIntegral = true) (hp : p.size ≤ t.size) (hq : q.size ≤ t.size) :
    Computes u s limit dest c (c₇.add [.label d])
      (test ++ .ifFalse a o :: (yes ++ .goto j :: .label o :: (no ++ (joinNo ++
        .goto d :: .label j :: (joinYes ++ [.label d]))))) result t
      fun env => if f env = 0 then h env else g env := by
  have hjump := adds_emit (c := c₂) (i := .ifFalse a o) rfl
  have hother := (adds_emit (c := c₃) (i := .goto j) rfl).trans (adds_label _ o)
  have hlabelJ := (adds_emit (c := c₆) (i := .goto d) rfl).trans (adds_label _ j)
  have hend := adds_label c₇ d
  -- What follows each part, for the literals that the part needs.
  have hafterNo := ((hresult.trans hjoinNo.adds).trans (hlabelJ.trans hjoinYes.adds)).trans hend
  have hafterYes := hother.trans (hno.adds.trans hafterNo)
  have hlater := (hjump.trans hyes.adds).trans hafterYes
  have hall := (hmade.trans (htest.adds.trans hlater)).settle (by
    simpa using (List.Perm.swap j d []).cons o)
  have hbeforeYes := hmade.trans (htest.adds.trans hjump)
  have hbeforeNo := hbeforeYes.trans (hyes.adds.trans hother)
  refine ⟨by simpa using hall, hjoinYes.integral, fun m hm => ?_⟩
  obtain ⟨m₁, hrun₁, hvalue₁, hspares₁, hvars₁, hm₁⟩ := htest.before hready hlater hm
  have hspares₁ := (hspares₁.mono hmade.top).offer dest
  by_cases hzero : f (s.valuesIn limit m) = 0
  · obtain ⟨m₂, m₃, hrun₂, hrun₃, hvalue₃, hspares₃⟩ :=
      hno.join hjoinNo hbeforeNo.top ht hq (hafterNo.inStore hm₁)
    refine ⟨m₃, .ifElseJoin hrun₁ (fun _ => hrun₂.trans hrun₃) ?_, ?_,
      hspares₁.trans hspares₃ (Nat.le_refl _)⟩
    · intro hne
      exact absurd (hvalue₁.trans hzero) hne
    · rw [hvalue₃, hvars₁, if_pos hzero]
  · obtain ⟨m₂, m₃, hrun₂, hrun₃, hvalue₃, hspares₃⟩ :=
      hyes.join hjoinYes hbeforeYes.top ht hp (hafterYes.inStore hm₁)
    refine ⟨m₃, .ifElseJoin hrun₁ ?_ (fun _ => ⟨m₂, hrun₂, hrun₃⟩), ?_,
      hspares₁.trans hspares₃ (Nat.le_refl _)⟩
    · intro heq
      exact absurd (hvalue₁.symm.trans heq) hzero
    · rw [hvalue₃, hvars₁, if_neg hzero]

/-- A conditional, from its test and its branches. -/
theorem evaluates_conditional {test : CompileM Address} {yes no : CompileM Slot}
    {yesSpan noSpan span : Span} {f g h : (String → Int64) → Int64}
    (htest : EvaluatesWord u s limit test f) (hyes : Evaluates u s limit dest yes g)
    (hno : Evaluates u s limit dest no h) :
    Evaluates u s limit dest (do
      let otherwise ← freshLabel .otherwise
      let done ← freshLabel .endIf
      let join ← freshLabel .general
      emit (.ifFalse (← test) otherwise)
      let yesValue ← yes
      emitGoto join
      emitLabel otherwise
      let noValue ← no
      let type ← commonType [yesValue.type, noValue.type] span
      let result : Slot := ⟨type, ← resultAddress type dest⟩
      joinInto noValue result noSpan
      emitGoto done
      emitLabel join
      joinInto yesValue result yesSpan
      emitLabel done
      return result) fun env => if f env = 0 then h env else g env := by
  intro c c' slot hrun hready hdest
  simp only [yields_bind, yields_emit, yields_emitGoto, yields_emitLabel, yields_pure] at hrun
  obtain ⟨o, c₁, ho, d, c₂, hd, j, c₃, hj, a, c₄, ha, _, _, rfl, yv, c₅, hy, _, _, rfl, _, _, rfl,
    nv, c₆, hn, t, c₇, ht, dst, c₈, hres, _, c₉, hjn, _, _, rfl, _, _, rfl, _, c₁₀, hjy, _, _, rfl,
    rfl, rfl⟩ := hrun
  have hmade := ((adds_freshLabel ho).trans (adds_freshLabel hd)).trans (adds_freshLabel hj)
  have hready₃ := hready.adds hmade
  obtain ⟨test, hctest⟩ := htest ha hready₃
  have hbeforeYes := hmade.trans (hctest.adds.trans (adds_emit (i := .ifFalse a o) rfl))
  obtain ⟨yes, p, hcyes⟩ := hyes hy (hready.adds hbeforeYes) (hdest.mono hbeforeYes.top)
  have hother := (adds_emit (c := c₅) (i := .goto j) rfl).trans (adds_label _ o)
  have hbeforeNo := hbeforeYes.trans (hcyes.adds.trans hother)
  obtain ⟨no, q, hcno⟩ := hno hn (hready.adds hbeforeNo) (hdest.mono hbeforeNo.top)
  have hbefore := hbeforeNo.trans hcno.adds
  have hintegral : ∀ t ∈ [yv.type, nv.type], ∃ p : Prim, p.isIntegral = true ∧ t = .prim p :=
    List.forall_mem_cons.mpr ⟨⟨p, hcyes.integral.integral, hcyes.integral.type⟩,
      List.forall_mem_singleton.mpr ⟨q, hcno.integral.integral, hcno.integral.type⟩⟩
  -- The common type holds the values of both branches, so the joins lose nothing.
  obtain ⟨rfl, r, hr, rfl, hsize⟩ := yields_commonType hintegral ht
  obtain ⟨hadds₈, hslot, hdst⟩ := resultAddress_spec hr (hdest.mono hbefore.top) hres
  have hdst := hdst.mono hbefore.top
  obtain ⟨joinNo, _, _, hmno⟩ :=
    maps_joinInto (u := u) (hcno.integral.mono hadds₈.top) hslot hdst hjn
  have hlabelJ := (adds_emit (c := c₉) (i := .goto d) rfl).trans (adds_label _ j)
  have hafterYes := (hother.trans hcno.adds).trans (hadds₈.trans (hmno.adds.trans hlabelJ))
  obtain ⟨joinYes, _, _, hmyes⟩ := maps_joinInto (u := u) (hcyes.integral.mono hafterYes.top)
    (hslot.mono (hmno.adds.trans hlabelJ).top) hdst hjy
  have hwhole := computes_ifElseJoin hready₃ hmade hctest hcyes hcno hadds₈ hmno hmyes hr
    (hsize p (by simp [hcyes.integral.type])) (hsize q (by simp [hcno.integral.type]))
  exact ⟨_, r, hwhole⟩

end ClassLang.Lowering
