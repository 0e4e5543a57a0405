import ClassLang.Proofs.Lowering.Fragment

/-!
# Constructs that jump are complete

The lazy operators, conditionals, switches and the loops that fill nested arrays make labels, jump
to them and place them. Each construct places what it made, so it is a complete fragment when its
parts are. A switch makes the labels of its arms while it tests their values, and places them in
front of the bodies; the jumps out of the bodies go to the blocks that join the branches.
-/

namespace ClassLang.Lowering

open CompileM Machine

variable {c c' : Compilation}

/-! ## Two branches -/

theorem emits_lazyOperator {isAnd : Bool} {left : CompileM Address} {right : Slot → CompileM Unit}
    {dest : Option Slot} (hleft : Emits Address left) (hright : ∀ s, Emits Unit (right s)) :
    Emits Slot (lazyOperator isAnd left right dest) := by
  intro c c' slot h
  simp only [lazyOperator, yields_bind, yields_emit] at h
  obtain ⟨dst, c₁, hresult, o, c₂, ho, d, c₃, hd, a, c₄, hl, _, _, rfl, h⟩ := h
  obtain ⟨s₁, hs₁⟩ := emits hresult
  obtain ⟨s₂, hs₂⟩ := hleft hl
  have hstart := (((hs₁.trans (.freshLabel ho)).trans (.freshLabel hd)).trans hs₂).trans
    (.ifFalse c₄ a o)
  cases isAnd with
  | true =>
    simp only [if_true, yields_bind, yields_emitGoto, yields_emitLabel, yields_emit,
      yields_pure] at h
    obtain ⟨_, c₅, hr, _, _, rfl, _, _, rfl, _, _, rfl, _, _, rfl, rfl, rfl⟩ := h
    obtain ⟨s₃, hs₃⟩ := fragment_withTemps (hright _) hr
    have hmiddle := (hs₃.trans (.goto c₅ d)).trans (.label _ o)
    have hlast := (hmiddle.trans (.straight _ (i := .imm dst 0 Prim.int.size) rfl)).trans
      (.label _ d)
    have hall := hstart.trans hlast
    exact ⟨_, hall.complete (by simp) (by simp)⟩
  | false =>
    simp only [Bool.false_eq_true, if_false, yields_bind, yields_emitGoto, yields_emitLabel,
      yields_emit, yields_pure] at h
    obtain ⟨_, _, rfl, _, _, rfl, _, _, rfl, _, c₅, hr, _, _, rfl, rfl, rfl⟩ := h
    have hmiddle := ((hstart.trans (.straight _ (i := .imm dst 1 Prim.int.size) rfl)).trans
      (.goto _ d)).trans (.label _ o)
    obtain ⟨s₃, hs₃⟩ := fragment_withTemps (hright _) hr
    have hall := (hmiddle.trans hs₃).trans (.label _ d)
    exact ⟨_, hall.complete (by simp) (by simp)⟩

theorem emits_conditional {test : CompileM Address} {yes no : CompileM Slot}
    {yesSpan noSpan span : Span} {dest : Option Slot} (htest : Emits Address test)
    (hyes : Emits Slot yes) (hno : Emits Slot no) :
    Emits Slot (conditional test yes no yesSpan noSpan span dest) := by
  intro c c' slot h
  simp only [conditional, yields_bind, yields_emit, yields_emitGoto, yields_emitLabel,
    yields_pure] at h
  obtain ⟨o, c₁, ho, d, c₂, hd, j, c₃, hj, a, c₄, ha, _, _, rfl, yv, c₅, hy, _, _, rfl, _, _, rfl,
    nv, c₆, hn, t, c₇, ht, dst, c₈, hres, _, c₉, hjn, _, _, rfl, _, _, rfl, _, c₁₀, hjy, _, _, rfl,
    rfl, rfl⟩ := h
  obtain ⟨s₁, hs₁⟩ := htest ha
  obtain ⟨s₂, hs₂⟩ := hyes hy
  obtain ⟨s₃, hs₃⟩ := hno hn
  obtain ⟨s₄, hs₄⟩ := emits ht
  obtain ⟨s₅, hs₅⟩ := emits hres
  obtain ⟨s₆, hs₆⟩ := emits hjn
  obtain ⟨s₇, hs₇⟩ := emits hjy
  have hmade := ((Fragment.freshLabel ho).trans (.freshLabel hd)).trans (.freshLabel hj)
  have hfirst := ((hmade.trans hs₁).trans (.ifFalse c₄ a o)).trans hs₂
  have hsecond := ((Fragment.goto c₅ j).trans (.label _ o)).trans (hs₃.trans (hs₄.trans hs₅))
  have hjoins := ((hs₆.trans (.goto c₉ d)).trans (.label _ j)).trans (hs₇.trans (.label c₁₀ d))
  refine ⟨_, (hfirst.trans (hsecond.trans hjoins)).complete ?_ (by simp)⟩
  simpa using (List.Perm.swap j d []).cons o

/-! ## Nested arrays -/

theorem emits_fillNested {array count : Address} {inner : CompileM Address}
    (hinner : Emits Address inner) : Emits Unit (fillNested array count inner) := by
  have hinner : Has Emits inner := ⟨hinner⟩
  intro c c' a h
  simp only [fillNested, yields_bind, yields_emit, yields_emitGoto, yields_emitLabel] at h
  obtain ⟨size, c₂, hsize, one, c₃, hone, position, c₄, hposition, inside, c₅, hinside, top, c₆,
    htop, done, c₇, hdone, _, _, rfl, _, _, rfl, _, _, rfl, _, _, rfl, _, c₈, hbody, _, _, rfl,
    _, _, rfl, rfl⟩ := h
  obtain ⟨s₂, hs₂⟩ := emits hsize
  obtain ⟨s₃, hs₃⟩ := emits hone
  obtain ⟨s₄, hs₄⟩ := emits hposition
  obtain ⟨s₅, hs₅⟩ := emits hinside
  obtain ⟨s₆, hs₆⟩ := emits hbody
  have hbefore := ((hs₂.trans hs₃).trans hs₄).trans hs₅
  have hmade := (Fragment.freshLabel htop).trans (.freshLabel hdone)
  have hstart := (Fragment.straight c₇ (i := .imm position 0 Prim.int.size) rfl).trans
    (.label _ top)
  have hentry := (hstart.trans (.straight _ (i := .int .lt inside position count) rfl)).trans
    (.ifFalse _ inside done)
  have hnext := hs₆.trans (.straight c₈ (i := .int .add position position one) rfl)
  have hexit := (hnext.trans (.goto _ top)).trans (.label _ done)
  exact ⟨_, (((hbefore.trans hmade).trans hentry).trans hexit).complete (by simp) (by simp)⟩

/-! ## Switches -/

/-- Tests jump to the label of the body only. -/
theorem fragment_tests {subject : Slot} {target : Label} {es : List Expr} {v : Unit}
    (hvalues : ∀ e ∈ es, Emits Slot (asValue e (place none e) none))
    (h : Yields (tests subject target es) c v c') :
    ∃ piece, Fragment c c' piece [] [] [target] := by
  induction es generalizing c with
  | nil =>
    rw [tests, yields_pure] at h
    obtain ⟨_, rfl⟩ := h
    exact ⟨[], (Fragment.nil _).widen (by simp)⟩
  | cons e es ih =>
    rw [tests, yields_bind] at h
    obtain ⟨_, c₁, hfirst, hrest⟩ := h
    have htest : ∀ ⦃c c' a⦄, Yields (do
        jumpIfEqual subject (← asValue e (place none e) none) target e.span) c a c' →
        ∃ piece, Fragment c c' piece [] [] [target] := by
      intro c c' a h
      simp only [jumpIfEqual, yields_bind, yields_emit] at h
      obtain ⟨value, c₁, hvalue, equal, c₂, hequal, rfl⟩ := h
      obtain ⟨s₁, hs₁⟩ := hvalues e List.mem_cons_self hvalue
      obtain ⟨s₂, hs₂⟩ := emits hequal
      exact ⟨_, (hs₁.trans hs₂).trans (.ifTrue c₂ equal.address target)⟩
    obtain ⟨s₁, hs₁⟩ := fragment_withTemps htest hfirst
    obtain ⟨s₂, hs₂⟩ := ih (fun e he => hvalues e (List.mem_cons_of_mem _ he)) hrest
    exact ⟨_, (hs₁.trans hs₂).widen (by simp)⟩

/-- The tests of all arms make the labels of the bodies and jump to them. -/
theorem fragment_armTests {subject : Slot} {arms : List Arm} {ls : List Label}
    (hvalues : ∀ arm ∈ arms, ∀ e ∈ arm.values, Emits Slot (asValue e (place none e) none))
    (h : Yields (armTests subject arms) c ls c') :
    ls.length = arms.length ∧ ∃ piece, Fragment c c' piece ls [] ls := by
  induction arms generalizing c ls with
  | nil =>
    rw [armTests, yields_pure] at h
    obtain ⟨rfl, rfl⟩ := h
    exact ⟨rfl, [], .nil _⟩
  | cons arm arms ih =>
    obtain ⟨vs, result, span⟩ := arm
    simp only [armTests, yields_bind, yields_pure] at h
    obtain ⟨l, c₁, hl, _, c₂, htests, ls, c₃, hrest, rfl, rfl⟩ := h
    obtain ⟨s₁, hs₁⟩ := fragment_tests (hvalues _ List.mem_cons_self) htests
    obtain ⟨hlen, s₂, hs₂⟩ := ih (fun arm harm => hvalues arm (List.mem_cons_of_mem _ harm)) hrest
    exact ⟨congrArg Nat.succ hlen, _, ((Fragment.freshLabel hl).trans hs₁).trans hs₂⟩

/-- The bodies place their own labels, and each of them jumps to the join of its branch. -/
theorem fragment_armBodies {dest : Option Slot} {arms : List Arm} {ls : List Label}
    {branches : List Branch} (hlen : ls.length = arms.length)
    (hresults : ∀ arm ∈ arms, Emits Slot (asValue arm.result (place dest arm.result) dest))
    (h : Yields (armBodies dest arms ls) c branches c') :
    ∃ piece, Fragment c c' piece (branches.map (·.join)) ls (branches.map (·.join)) := by
  induction arms generalizing c ls branches with
  | nil =>
    obtain rfl := List.length_eq_zero_iff.mp hlen
    simp only [armBodies, yields_pure] at h
    obtain ⟨rfl, rfl⟩ := h
    exact ⟨[], .nil _⟩
  | cons arm arms ih =>
    obtain ⟨vs, result, span⟩ := arm
    cases ls with
    | nil => cases hlen
    | cons l ls =>
      simp only [armBodies, yields_bind, yields_emitLabel, yields_emitGoto, yields_pure] at h
      obtain ⟨_, _, rfl, j, c₁, hj, value, c₂, hvalue, _, _, rfl, bs, c₃, hrest, rfl, rfl⟩ := h
      have hresult : Emits Slot (asValue result (place dest result) dest) :=
        hresults (.mk vs result span) List.mem_cons_self
      obtain ⟨s₁, hs₁⟩ := hresult hvalue
      obtain ⟨s₂, hs₂⟩ := ih (Nat.succ.inj hlen)
        (fun arm harm => hresults arm (List.mem_cons_of_mem _ harm)) hrest
      have hbody := ((Fragment.label c l).trans (.freshLabel hj)).trans (hs₁.trans (.goto c₂ j))
      exact ⟨_, by simpa using hbody.trans hs₂⟩

/-- The joins place their labels and all jump to the end. -/
theorem fragment_joinAll {dest : Slot} {done : Label} {branches : List Branch} {v : Unit}
    (h : Yields (joinAll dest done branches) c v c') :
    ∃ piece, Fragment c c' piece [] (branches.map (·.join)) [done] := by
  induction branches generalizing c with
  | nil =>
    rw [joinAll, yields_forM_nil] at h
    subst h
    exact ⟨[], (Fragment.nil _).widen (by simp)⟩
  | cons b branches ih =>
    simp only [joinAll, yields_forM_cons, yields_bind, yields_emitLabel, yields_emitGoto] at h
    obtain ⟨_, c₁, ⟨_, _, rfl, _, c₂, hjoin, rfl⟩, hrest⟩ := h
    obtain ⟨s₁, hs₁⟩ := emits hjoin
    obtain ⟨s₂, hs₂⟩ := ih hrest
    have hall := ((Fragment.label c b.join).trans (hs₁.trans (.goto c₂ done))).trans hs₂
    exact ⟨_, hall.widen (by simp)⟩

theorem emits_switch {subject default : CompileM Slot} {arms : List Arm} {defaultSpan span : Span}
    {dest : Option Slot} (hsubject : Emits Slot subject) (hdefault : Emits Slot default)
    (harms : ∀ arm ∈ arms, (∀ e ∈ arm.values, Emits Slot (asValue e (place none e) none)) ∧
      Emits Slot (asValue arm.result (place dest arm.result) dest)) :
    Emits Slot (switch subject default arms defaultSpan span dest) := by
  intro c c' slot h
  simp only [switch, yields_bind, yields_emitGoto, yields_emitLabel, yields_pure] at h
  obtain ⟨v, c₁, hv, d, c₂, hd, ls, c₃, hls, j, c₄, hj, dv, c₅, hdv, _, _, rfl, bs, c₆, hbs, t, c₇,
    ht, dst, c₈, hres, _, c₉, hjoin, _, _, rfl, rfl, rfl⟩ := h
  obtain ⟨s₁, hs₁⟩ := hsubject hv
  obtain ⟨hlen, s₂, hs₂⟩ := fragment_armTests (fun arm harm => (harms arm harm).1) hls
  obtain ⟨s₃, hs₃⟩ := hdefault hdv
  obtain ⟨s₄, hs₄⟩ := fragment_armBodies hlen (fun arm harm => (harms arm harm).2) hbs
  obtain ⟨s₅, hs₅⟩ := emits ht
  obtain ⟨s₆, hs₆⟩ := emits hres
  obtain ⟨s₇, hs₇⟩ := fragment_joinAll hjoin
  have htests := (hs₁.trans (.freshLabel hd)).trans hs₂
  have hbodies := (((Fragment.freshLabel hj).trans hs₃).trans (.goto c₅ j)).trans hs₄
  have hjoins := ((hs₅.trans hs₆).trans hs₇).trans (.label c₉ d)
  have hall := (htests.trans hbodies).trans hjoins
  refine ⟨_, hall.complete ?_ ?_⟩
  · have hperm : (ls ++ j :: bs.map (·.join) ++ [d]).Perm (d :: (ls ++ j :: bs.map (·.join))) :=
      List.perm_append_comm
    simpa using hperm.symm
  · -- The labels that are jumped to are those that the switch makes.
    intro l hl
    simp at hl ⊢
    grind

instance : Whole Emits where
  lazyOperator := emits_lazyOperator
  conditional := emits_conditional
  switch := emits_switch
  fillNested := emits_fillNested

end ClassLang.Lowering
