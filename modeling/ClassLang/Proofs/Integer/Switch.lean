import ClassLang.Proofs.Integer.Branches

/-!
# Switches of integer expressions

The code of a switch first compares its subject with the values of all arms, in order, and jumps
to the body of the first arm that has an equal one. Behind the tests there is the default, then
the bodies of the arms. Each of these ends with a jump to a block of its own that joins its value
with the others, so at most one body and one such block are run.
-/

namespace ClassLang

namespace Expr

/-- The label that stands for the first arm that a value selects. -/
def selected? (u : Arithmetic) (env : String → Int64) (v : Int64) :
    List Arm → List Label → Option Label
  | .mk vs _ _ :: arms, l :: ls =>
    if anyEqual u env v vs then some l else selected? u env v arms ls
  | _, _ => none

theorem evalArms_of_selected?_none {u : Arithmetic} {env : String → Int64} {v default : Int64}
    {arms : List Arm} {ls : List Label} (hlen : ls.length = arms.length)
    (h : selected? u env v arms ls = none) : evalArms u env v arms default = default := by
  induction arms generalizing ls with
  | nil => rw [evalArms]
  | cons arm arms ih =>
    obtain ⟨vs, result, span⟩ := arm
    cases ls with
    | nil => cases hlen
    | cons l ls =>
      rw [selected?] at h
      split at h
      · cases h
      · rename_i hany
        rw [evalArms, if_neg hany]
        exact ih (Nat.succ.inj hlen) h

/-- The value of a switch is that of the arm whose label was selected. -/
theorem evalArms_of_selected?_some {u : Arithmetic} {env : String → Int64} {v : Int64}
    {arms : List Arm} {ls : List Label} {l : Label} (h : selected? u env v arms ls = some l)
    (default : Int64) :
    ∃ arm, (arm, l) ∈ arms.zip ls ∧ evalArms u env v arms default = arm.result.eval u env := by
  induction arms generalizing ls with
  | nil => cases h
  | cons arm arms ih =>
    obtain ⟨vs, result, span⟩ := arm
    cases ls with
    | nil => cases h
    | cons l' ls =>
      rw [selected?] at h
      rw [List.zip_cons_cons, evalArms]
      split at h
      · rename_i hany
        injection h with h
        subst h
        exact ⟨_, List.mem_cons_self, if_pos hany⟩
      · rename_i hany
        obtain ⟨arm, hmem, heq⟩ := ih h
        exact ⟨arm, List.mem_cons_of_mem _ hmem, (if_neg hany).trans heq⟩

end Expr

namespace Lowering

open CompileM Machine

variable {u : Arithmetic} {s : Scopes} {limit : Nat} {dest : Option Slot} {c c' : Compilation}

/-! ## Tests -/

/-- The piece of code jumps to the label that the value of the subject selects, if there is one,
and runs to its end if there is none. The labels were made by the step. -/
structure Selects (u : Arithmetic) (s : Scopes) (limit : Nat) (c c' : Compilation)
    (piece : List Instr) (made : List Label) (subject : Slot) (p : Prim)
    (select : (String → Int64) → Int64 → Option Label) : Prop where
  adds : Adds c c' piece made []
  runs : ∀ m, c'.literals.InStore m → ∃ m',
    Exits u piece (select (s.valuesIn limit m) (m.value p subject.address)) m m' ∧
      m.Spares c.frame.top none m'

theorem Selects.of_adds {made : List Label} {subject : Slot} {p : Prim}
    (h : Adds c c' [] made []) : Selects u s limit c c' [] made subject p fun _ _ => none :=
  ⟨h, fun m _ => ⟨m, .nil m, .refl _ _ m⟩⟩

theorem Selects.congr {piece : List Instr} {made : List Label} {subject : Slot} {p : Prim}
    {f g : (String → Int64) → Int64 → Option Label}
    (h : Selects u s limit c c' piece made subject p f) (hfg : ∀ env v, f env v = g env v) :
    Selects u s limit c c' piece made subject p g := by
  obtain rfl : f = g := funext fun env => funext (hfg env)
  exact h

/-- Tests in a row: the later ones count if the earlier ones select nothing. -/
theorem Selects.trans {c₁ : Compilation} {s₁ s₂ : List Instr} {made₁ made₂ : List Label}
    {subject : Slot} {p : Prim} {f g : (String → Int64) → Int64 → Option Label}
    (h₁ : Selects u s limit c c₁ s₁ made₁ subject p f)
    (h₂ : Selects u s limit c₁ c' s₂ made₂ subject p g) (hready : Ready s limit c)
    (hsubject : Integral c.frame.top subject p) :
    Selects u s limit c c' (s₁ ++ s₂) (made₁ ++ made₂) subject p
      fun env v => (f env v).or (g env v) := by
  refine ⟨h₁.adds.trans h₂.adds, ?_⟩
  intro m hm
  obtain ⟨m₁, hexits₁, hspares₁⟩ := h₁.runs m (h₂.adds.inStore hm)
  cases hf : f (s.valuesIn limit m) (m.value p subject.address) with
  | some l =>
    rw [hf] at hexits₁
    exact ⟨m₁, JumpsTo.append hexits₁ s₂, hspares₁⟩
  | none =>
    rw [hf] at hexits₁
    obtain ⟨m₂, hexits₂, hspares₂⟩ := h₂.runs m₁ (inStore_of_spares hspares₁ hm)
    rw [Scopes.valuesIn_congr hspares₁ hready.limit, hspares₁.value hsubject.holds] at hexits₂
    refine ⟨m₂, ?_, hspares₁.trans hspares₂ h₁.adds.top⟩
    cases hg : g (s.valuesIn limit m) (m.value p subject.address) with
    | some l =>
      rw [hg] at hexits₂
      exact Runs.jump hexits₁ hexits₂
    | none =>
      rw [hg] at hexits₂
      exact Runs.trans hexits₁ hexits₂

/-- The test for one value of an arm. -/
theorem selects_test {value : CompileM Slot} {subject : Slot} {p : Prim} {target : Label}
    {span : Span} {v : Unit} {f : (String → Int64) → Int64}
    (hvalue : Evaluates u s limit none value f) (hready : Ready s limit c)
    (hsubject : Integral c.frame.top subject p)
    (h : Yields (withTemps do jumpIfEqual subject (← value) target span) c v c') :
    ∃ piece, Selects u s limit c c' piece [] subject p
      fun env x => if x = f env then some target else none := by
  obtain ⟨c₁, hrun, htop, hliterals, hadds⟩ := adds_withTemps h
  simp only [jumpIfEqual, yields_bind, yields_emit] at hrun
  obtain ⟨candidate, c₂, hcandidate, equal, c₃, hequal, rfl⟩ := hrun
  have hready : Ready s limit { c with frame := c.frame.pushBlock.2 } :=
    ⟨hready.scopes, hready.limit, hready.sound⟩
  obtain ⟨s₁, q, hcomputes⟩ := hvalue hcandidate hready (.none _)
  obtain ⟨s₂, hadds₂, hint, hruns⟩ := runs_applyBinary (u := u)
    (hsubject.mono hcomputes.adds.top) hcomputes.integral (.none _) hequal
  have hjump := adds_emit (c := c₃) (i := .ifTrue equal.address target) rfl
  refine ⟨_, hadds ((hcomputes.adds.trans hadds₂).trans hjump), ?_⟩
  intro m hm
  rw [hliterals] at hm
  obtain ⟨m₁, hruns₁, hvalue₁, hspares₁, _, _⟩ := hcomputes.before hready hadds₂ hm
  obtain ⟨m₂, hruns₂, hvalue₂, hspares₂⟩ := hruns m₁
  rw [hvalue₁, hspares₁.value hsubject.holds] at hvalue₂
  refine ⟨m₂, ?_, hspares₁.trans hspares₂ hcomputes.adds.top⟩
  have hboth := hruns₁.trans hruns₂
  -- The jump is taken if the two values are the same.
  by_cases heq : m.value p subject.address = f (s.valuesIn limit m)
  · rw [if_pos heq]
    refine hboth.jump (.ifTrue target ?_)
    rw [Store.word, hvalue₂, Ne, BinaryOp.apply, truth_eq_zero, heq]
    simp
  · rw [if_neg heq]
    refine hboth.trans (.ifTrue target ?_)
    rw [Store.word, hvalue₂, BinaryOp.apply, truth_eq_zero]
    exact decide_eq_false heq

/-! ## Bodies -/

/-- The piece of code holds bodies of arms. Entered at the label of an arm, it computes the result
of that arm and goes on to the join of a branch that has the value. -/
structure Bodies (u : Arithmetic) (s : Scopes) (limit : Nat) (dest : Option Slot)
    (c c' : Compilation) (piece : List Instr) (arms : List (Arm × Label))
    (branches : List Branch) : Prop where
  adds : Adds c c' piece (branches.map (·.join)) (arms.map (·.2))
  integral : ∀ b ∈ branches, ∃ p, Integral c'.frame.top b.value p
  runs : ∀ arm ∈ arms, ∃ b ∈ branches, ∃ p, b.value.type = .prim p ∧
    ∀ m, c'.literals.InStore m → ∃ m', Passes u piece arm.2 b.join m m' ∧
      m'.value p b.value.address = arm.1.result.eval u (s.valuesIn limit m) ∧
      m.Spares c.frame.top dest m'

theorem Bodies.nil : Bodies u s limit dest c c [] [] [] :=
  ⟨.nil c, fun _ hb => absurd hb List.not_mem_nil, fun _ h => absurd h List.not_mem_nil⟩

/-- One body in front of others. -/
theorem Bodies.cons {c₁ c₂ c₃ : Compilation} {s₁ s₂ : List Instr} {arm : Arm} {l j : Label}
    {arms : List (Arm × Label)} {value : Slot} {p : Prim} {branches : List Branch} {span : Span}
    (hmade : Adds (c.add [.label l]) c₁ [] [j] [])
    (hvalue : Computes u s limit dest c₁ c₂ s₁ value p (arm.result.eval u ·))
    (hc₃ : c₃ = c₂.add [.goto j])
    (hrest : Bodies u s limit dest c₃ c' s₂ arms branches) :
    Bodies u s limit dest c c' (.label l :: (s₁ ++ .goto j :: s₂)) ((arm, l) :: arms)
      (⟨value, j, span⟩ :: branches) := by
  subst hc₃
  have hlabel := adds_label c l
  have hgoto := adds_emit (c := c₂) (i := .goto j) rfl
  have hbefore := (hlabel.trans hmade).trans (hvalue.adds.trans hgoto)
  refine ⟨?_, ?_, ?_⟩
  · simpa using hbefore.trans hrest.adds
  · intro b hb
    rcases List.mem_cons.mp hb with rfl | hb
    · exact ⟨p, hvalue.integral.mono (hgoto.trans hrest.adds).top⟩
    · exact hrest.integral b hb
  · intro arm' harm
    -- Entered at the first label the code leaves before the rest; else it is entered behind it.
    rcases List.mem_cons.mp harm with rfl | harm
    · refine ⟨_, List.mem_cons_self, p, hvalue.integral.type, ?_⟩
      intro m hm
      obtain ⟨m', hruns, hvalue', hspares⟩ :=
        hvalue.runs m ((hgoto.trans hrest.adds).inStore hm)
      refine ⟨m', ⟨[], _, rfl, ?_⟩, hvalue', hspares.mono (hlabel.trans hmade).top⟩
      simpa using (hruns.jump (.goto j m')).append s₂
    · obtain ⟨b, hb, q, htype, hruns⟩ := hrest.runs arm' harm
      refine ⟨b, List.mem_cons_of_mem _ hb, q, htype, ?_⟩
      intro m hm
      obtain ⟨m', hpasses, hvalue', hspares⟩ := hruns m hm
      have hpasses := hpasses.prepend (.label l :: (s₁ ++ [.goto j]))
      rw [List.cons_append, List.append_assoc] at hpasses
      exact ⟨m', hpasses, hvalue', hspares.mono hbefore.top⟩

/-! ## Joins -/

/-- Each branch is converted into the result, behind its own label. -/
theorem passes_joinAll {top : Nat} {result : Slot} {q : Prim} {done : Label}
    {branches : List Branch} {v : Unit} (hresult : Integral c.frame.top result q)
    (hdst : Writable top dest result.address q)
    (hbranches : ∀ b ∈ branches, ∃ p, Integral c.frame.top b.value p)
    (h : Yields (joinAll result done branches) c v c') :
    ∃ piece, Adds c c' piece [] (branches.map (·.join)) ∧
      ∀ b ∈ branches, ∀ p, b.value.type = .prim p → ∀ m, ∃ m', Passes u piece b.join done m m' ∧
        m'.value q result.address = q.fit (m.value p b.value.address) ∧ m.Spares top dest m' := by
  induction branches generalizing c with
  | nil =>
    rw [joinAll, yields_forM_nil] at h
    subst h
    exact ⟨[], .nil _, fun _ hb => absurd hb List.not_mem_nil⟩
  | cons b branches ih =>
    simp only [joinAll, yields_forM_cons, yields_bind, yields_emitLabel, yields_emitGoto] at h
    obtain ⟨_, c₁, ⟨_, _, rfl, _, c₂, hjoin, rfl⟩, h⟩ := h
    obtain ⟨p, hp⟩ := hbranches b List.mem_cons_self
    have hlabel := adds_label c b.join
    obtain ⟨s₁, _, _, hmaps⟩ := maps_joinInto (u := u) (hp.mono hlabel.top)
      (hresult.mono hlabel.top) hdst hjoin
    have hgoto := adds_emit (c := c₂) (i := .goto done) rfl
    have hbefore := hlabel.trans (hmaps.adds.trans hgoto)
    obtain ⟨s₂, hadds, hpasses⟩ := ih (hresult.mono hbefore.top) (fun b' hb' => by
      obtain ⟨p', hp'⟩ := hbranches b' (List.mem_cons_of_mem _ hb')
      exact ⟨p', hp'.mono hbefore.top⟩) h
    refine ⟨.label b.join :: (s₁ ++ .goto done :: s₂), by simpa using hbefore.trans hadds, ?_⟩
    intro b' hb' p' htype m
    -- The join of the branch is the first one, or it is entered behind it.
    rcases List.mem_cons.mp hb' with rfl | hb'
    · have heq : p' = p := Ty.prim.inj (htype.symm.trans hp.type)
      subst heq
      obtain ⟨m', hruns, hvalue, hspares⟩ := hmaps.runs m
      refine ⟨m', ⟨[], _, rfl, ?_⟩, hvalue, hspares⟩
      simpa using (hruns.jump (.goto done m')).append s₂
    · obtain ⟨m', hpass, hvalue, hspares⟩ := hpasses b' hb' p' htype m
      have hpass := hpass.prepend (.label b.join :: (s₁ ++ [.goto done]))
      rw [List.cons_append, List.append_assoc] at hpass
      exact ⟨m', hpass, hvalue, hspares⟩

/-! ## Switches -/

/-- Whether the subject selects a body or the default is run: the join of a branch is reached that
has the value of the switch. -/
theorem reaches_join {c₁ c₂ c₃ c₄ c₅ c₆ : Compilation} {s₁ s₂ s₃ s₄ : List Instr}
    {arms : List Arm} {ls : List Label} {v dv : Slot} {p pd : Prim} {d j : Label}
    {bs : List Branch} (span : Span) {f g : (String → Int64) → Int64} {m : Store}
    (hready : Ready s limit c) (hlen : ls.length = arms.length)
    (hsubject : Computes u s limit none c c₁ s₁ v p f) (hdone : Adds c₁ c₂ [] [d] [])
    (hselects : Selects u s limit c₂ c₃ s₂ ls v p fun env x => Expr.selected? u env x arms ls)
    (hmade : Adds c₃ c₄ [] [j] []) (hdefault : Computes u s limit dest c₄ c₅ s₃ dv pd g)
    (hbodies : Bodies u s limit dest (c₅.add [.goto j]) c₆ s₄ (arms.zip ls) bs)
    (hm : c₆.literals.InStore m) :
    ∃ b ∈ (⟨dv, j, span⟩ :: bs : List Branch), ∃ p m', b.value.type = .prim p ∧
      JumpsTo u (s₁ ++ (s₂ ++ (s₃ ++ .goto j :: s₄))) b.join m m' ∧
      m'.value p b.value.address = Expr.evalArms u (s.valuesIn limit m)
        (f (s.valuesIn limit m)) arms (g (s.valuesIn limit m)) ∧
      m.Spares c.frame.top dest m' := by
  have hgoto := adds_emit (c := c₅) (i := .goto j) rfl
  have hafterDefault := hgoto.trans hbodies.adds
  have hafterTests := hmade.trans (hdefault.adds.trans hafterDefault)
  have hafterSubject := hdone.trans (hselects.adds.trans hafterTests)
  have hbefore₂ := hsubject.adds.trans hdone
  have hbefore₄ := hbefore₂.trans (hselects.adds.trans hmade)
  have hbefore₅ := hbefore₄.trans (hdefault.adds.trans hgoto)
  obtain ⟨m₁, hrun₁, hvalue₁, hspares₁, hvars₁, hm₁⟩ := hsubject.before hready hafterSubject hm
  obtain ⟨m₂, hexits, hspares₂⟩ := hselects.runs m₁ (hafterTests.inStore hm₁)
  have hspares₁₂ := hspares₁.trans hspares₂ hbefore₂.top
  have hvars₂ := Scopes.valuesIn_congr (s := s) hspares₁₂ hready.limit
  have hm₂ := inStore_of_spares hspares₂ hm₁
  rw [hvars₁, hvalue₁] at hexits
  -- No test jumps, and the default follows; or one does, to the body of its arm.
  cases hselected : Expr.selected? u (s.valuesIn limit m) (f (s.valuesIn limit m)) arms ls with
  | none =>
    rw [hselected] at hexits
    obtain ⟨m₃, hrun₃, hvalue₃, hspares₃⟩ := hdefault.runs m₂ (hafterDefault.inStore hm₂)
    refine ⟨_, List.mem_cons_self, pd, m₃, hdefault.integral.type, ?_, ?_, ?_⟩
    · have hjump := ((hrun₁.trans hexits).trans hrun₃).jump (.goto j m₃)
      simpa using hjump.append s₄
    · rw [hvalue₃, hvars₂, Expr.evalArms_of_selected?_none hlen hselected]
    · exact (hspares₁₂.offer dest).trans hspares₃ hbefore₄.top
  | some l =>
    rw [hselected] at hexits
    obtain ⟨arm, harm, heval⟩ := Expr.evalArms_of_selected?_some hselected
      (g (s.valuesIn limit m))
    obtain ⟨b, hb, p', htype, hruns⟩ := hbodies.runs _ harm
    obtain ⟨m₃, hpasses, hvalue₃, hspares₃⟩ := hruns m₂ hm₂
    refine ⟨b, List.mem_cons_of_mem _ hb, p', m₃, htype, ?_, ?_, ?_⟩
    · have hjump := (hrun₁.jump hexits).append (s₃ ++ [.goto j])
      simpa using hjump.pass hpasses
    · rw [hvalue₃, hvars₂, heval]
    · exact (hspares₁₂.offer dest).trans hspares₃ hbefore₅.top

/-- A switch, from its subject, its default, and the tests and bodies of its arms. -/
theorem evaluates_switch {subject default : CompileM Slot} {arms : List Arm}
    {defaultSpan span : Span} {f g : (String → Int64) → Int64}
    (hsubject : Evaluates u s limit none subject f)
    (htests : ∀ {v p c c' ls}, Yields (armTests v arms) c ls c' → Ready s limit c →
      Integral c.frame.top v p → ls.length = arms.length ∧ ∃ piece,
        Selects u s limit c c' piece ls v p fun env x => Expr.selected? u env x arms ls)
    (hdefault : Evaluates u s limit dest default g)
    (hbodies : ∀ {c c' ls bs}, Yields (armBodies dest arms ls) c bs c' → Ready s limit c →
      Offered c.frame.top dest → ls.length = arms.length →
      ∃ piece, Bodies u s limit dest c c' piece (arms.zip ls) bs) :
    Evaluates u s limit dest (do
      let subject ← subject
      let done ← freshLabel .endCase
      let bodies ← armTests subject arms
      let join ← freshLabel .general
      let value ← default
      emitGoto join
      let branches := ⟨value, join, defaultSpan⟩ :: (← armBodies dest arms bodies)
      let type ← commonType (branches.map (·.value.type)) span
      let result : Slot := ⟨type, ← resultAddress type dest⟩
      joinAll result done branches
      emitLabel done
      return result) fun env => Expr.evalArms u env (f env) arms (g env) := by
  intro c c' slot hrun hready hdest
  simp only [yields_bind, yields_emitGoto, yields_emitLabel, yields_pure] at hrun
  obtain ⟨v, c₁, hv, d, c₂, hd, ls, c₃, hls, j, c₄, hj, dv, c₅, hdv, _, _, rfl, bs, c₆, hbs, t, c₇,
    ht, dst, c₈, hres, _, c₉, hjoin, _, _, rfl, rfl, rfl⟩ := hrun
  -- the parts, in the order in which they are lowered
  obtain ⟨s₁, p, hsubject⟩ := hsubject hv hready (.none _)
  have hdone := adds_freshLabel hd
  have hready₂ := (hready.adds hsubject.adds).adds hdone
  obtain ⟨hlen, s₂, hselects⟩ := htests hls hready₂ (hsubject.integral.mono hdone.top)
  have hmade := adds_freshLabel hj
  have hready₄ := (hready₂.adds hselects.adds).adds hmade
  have hbefore := (hsubject.adds.trans hdone).trans (hselects.adds.trans hmade)
  obtain ⟨s₃, pd, hdefault⟩ := hdefault hdv hready₄ (hdest.mono hbefore.top)
  have hgoto := adds_emit (c := c₅) (i := .goto j) rfl
  have hbefore₅ := hbefore.trans (hdefault.adds.trans hgoto)
  obtain ⟨s₄, hbodies⟩ := hbodies hbs ((hready₄.adds hdefault.adds).adds hgoto)
    (hdest.mono hbefore₅.top) hlen
  have hbefore₆ := hbefore₅.trans hbodies.adds
  have hbranches : ∀ b ∈ (⟨dv, j, defaultSpan⟩ :: bs : List Branch),
      ∃ p, Integral c₆.frame.top b.value p :=
    List.forall_mem_cons.mpr
      ⟨⟨pd, hdefault.integral.mono (hgoto.trans hbodies.adds).top⟩, hbodies.integral⟩
  obtain ⟨rfl, q, hq, rfl, hsize⟩ := yields_commonType (by
    intro t ht
    obtain ⟨b, hb, rfl⟩ := List.mem_map.mp ht
    obtain ⟨p, hp⟩ := hbranches b hb
    exact ⟨p, hp.integral, hp.type⟩) ht
  obtain ⟨hadds₈, hslot, hdst⟩ := resultAddress_spec hq (hdest.mono hbefore₆.top) hres
  obtain ⟨s₅, hadds₉, hjoins⟩ := passes_joinAll (u := u) hslot (hdst.mono hbefore₆.top)
    (fun b hb => by
      obtain ⟨p, hp⟩ := hbranches b hb
      exact ⟨p, hp.mono hadds₈.top⟩) hjoin
  have hafterBodies := (hadds₈.trans hadds₉).trans (adds_label c₉ d)
  have hall := (hbefore₆.trans hafterBodies).settle (by
    have hls : (arms.zip ls).map (·.2) = ls := List.map_snd_zip (Nat.le_of_eq hlen)
    simpa [hls] using (List.perm_append_singleton d (ls ++ j :: bs.map (·.join))).symm)
  refine ⟨s₁ ++ (s₂ ++ (s₃ ++ .goto j :: (s₄ ++ (s₅ ++ [.label d])))), q, by simpa using hall,
    hslot.mono hadds₉.top, fun m hm => ?_⟩
  obtain ⟨b, hb, p', m₃, htype, hjump, hvalue₃, hspares₃⟩ := reaches_join defaultSpan
    hready hlen hsubject hdone hselects hmade hdefault hbodies (hafterBodies.inStore hm)
  obtain ⟨m₄, hpasses, hvalue₄, hspares₄⟩ := hjoins b hb p' htype m₃
  refine ⟨m₄, ?_, ?_, hspares₃.trans hspares₄ (Nat.le_refl _)⟩
  · simpa using (hjump.pass hpasses).land (.nil m₄)
  · have hle := hsize p' (List.mem_map.mpr ⟨b, hb, htype⟩)
    rw [hvalue₄, m₃.fit_value _ hq hle, hvalue₃]

end Lowering

end ClassLang
