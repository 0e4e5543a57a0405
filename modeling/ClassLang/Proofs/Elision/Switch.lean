import ClassLang.Proofs.Elision.Branches

/-!
# Switches that agree

The tests compare the same bytes on both sides, so they jump to the label of the same arm, or to
none. Labels and branches of the two compilations are counted through together: the lists hold
families over `Bool`, one for each arm.
-/

namespace ClassLang.Elision

open CompileM Lowering Machine

variable {w : Layout} {c c₁ c₂ c' : Bool → Compilation} {dest : Bool → Option Slot}
  {subject result : Bool → Slot}

/-! ## Tests -/

/-- A value that later steps without a destination leave as it is. -/
structure Lasts (w : Layout) (c : Bool → Compilation) (slot : Bool → Slot) : Prop where
  type : ∀ i j, (slot i).type = (slot j).type
  below : ∀ i, (slot i).below w.registry (tops c i)
  kept : ∀ ⦃m m'⦄, Kept w nowhere (tops c) m m' → Agree w m slot → Agree w m' slot

theorem Lasts.mono (h : Lasts w c subject) (hle : ∀ i, tops c i ≤ tops c' i) :
    Lasts w c' subject where
  type := h.type
  below i := (h.below i).mono (hle i)
  kept _ _ hkept := h.kept (hkept.mono hle)

theorem Computes.lasts {piece : Bool → List Instr} {slot : Bool → Slot} {t : Ty} {points : Prop}
    (h : Computes w nowhere c c' piece slot t points) (htwins : Twins w c) : Lasts w c' slot where
  type i j := (h.type i).trans (h.type j).symm
  below := h.rests.below (h.twins htwins) (offered_nowhere w c')
  kept _ _ hkept hagree := hagree.kept h.rests htwins hkept

/-- The two pieces of code jump to labels of the same arm, or both run to their ends. -/
structure Selects (w : Layout) (c c' : Bool → Compilation) (piece : Bool → List Instr)
    (subject : Bool → Slot) (ls : List (Bool → Label)) : Prop where
  grows : ∀ i, Grows (c i) (c' i) (piece i)
  literals : ∀ i j, (c' i).literals = (c' j).literals
  runs : ∀ m, Common w m → Agree w m subject → ∃ m', ∃ target : Option (Bool → Label),
    (∀ l ∈ target, l ∈ ls) ∧
    (∀ i, Exits w.machine (piece i) (target.map (· i)) (m i) (m' i)) ∧
    Kept w nowhere (tops c) m m'

namespace Selects

variable {s₁ s₂ : Bool → List Instr} {ls ls' : List (Bool → Label)}

theorem twins (h : Selects w c c' s₁ subject ls) (htwins : Twins w c) : Twins w c' :=
  htwins.grows h.grows h.literals

/-- Steps that add no code select nothing. -/
theorem silent (hgrows : ∀ i, Grows (c i) (c' i) [])
    (hliterals : ∀ i j, (c' i).literals = (c' j).literals) :
    Selects w c c' (fun _ => []) subject ls :=
  ⟨hgrows, hliterals, fun m hm _ => ⟨m, none, by simp, fun i => .nil (m i), .refl hm⟩⟩

theorem widen (h : Selects w c c' s₁ subject ls) (hsub : ∀ l ∈ ls, l ∈ ls') :
    Selects w c c' s₁ subject ls' := by
  refine ⟨h.grows, h.literals, fun m hm hagree => ?_⟩
  obtain ⟨m', target, htarget, hexits, hkept⟩ := h.runs m hm hagree
  exact ⟨m', target, fun l hl => hsub l (htarget l hl), hexits, hkept⟩

/-- Tests in a row: the later ones count if the earlier ones select nothing. -/
theorem trans (h₁ : Selects w c c₁ s₁ subject ls) (h₂ : Selects w c₁ c' s₂ subject ls')
    (hsubject : Lasts w c subject) :
    Selects w c c' (fun i => s₁ i ++ s₂ i) subject (ls ++ ls') := by
  refine ⟨fun i => (h₁.grows i).trans (h₂.grows i), h₂.literals, fun m hm hagree => ?_⟩
  obtain ⟨m₁, target, htarget, hexits₁, hkept₁⟩ := h₁.runs m hm hagree
  cases target with
  | some l =>
    refine ⟨m₁, some l, fun k hk => List.mem_append_left _ (htarget k hk), fun i => ?_, hkept₁⟩
    exact JumpsTo.append (hexits₁ i) (s₂ i)
  | none =>
    obtain ⟨m₂, target, htarget, hexits₂, hkept₂⟩ :=
      h₂.runs m₁ hkept₁.commonly (hsubject.kept hkept₁ hagree)
    refine ⟨m₂, target, fun k hk => List.mem_append_right _ (htarget k hk), fun i => ?_,
      hkept₁.trans hkept₂ fun i => (h₁.grows i).top⟩
    cases target with
    | some l => exact Runs.jump (hexits₁ i) (hexits₂ i)
    | none => exact Runs.trans (hexits₁ i) (hexits₂ i)

end Selects

/-- The test for one value of an arm. -/
theorem selects_test {step : Bool → CompileM Slot} {points : Prop} {target : Bool → Label}
    {span : Span} {v : Bool → Unit} (h : Agrees w nowhere step points) (htwins : Twins w c)
    (hsubject : Lasts w c subject)
    (hrun : ∀ i, Yields (withTemps do jumpIfEqual (subject i) (← step i) (target i) span)
      (c i) (v i) (c' i)) :
    ∃ piece, Selects w c c' piece subject [target] := by
  choose c₁ hrun _ hliterals hadds using fun i => adds_withTemps (hrun i)
  simp only [jumpIfEqual, yields_bind, yields_emit] at hrun
  choose candidate c₂ hcandidate equal c₃ hequal hc₁ using hrun
  have htwins₀ : Twins w fun i => { c i with frame := (c i).frame.pushBlock.2 } :=
    ⟨htwins.registry, htwins.scopes, htwins.limit, htwins.literals⟩
  obtain ⟨s₁, t, hcomputes⟩ := h hcandidate htwins₀ (offered_nowhere w _)
  have htwins₂ := hcomputes.twins htwins₀
  have hbelow := hcomputes.rests.below htwins₂ (offered_nowhere w c₂)
  choose s₂ hproduces using fun i => produces_applyBinary (u := w.machine) (htwins₂.registry i)
    ((hsubject.below i).mono (hcomputes.top_le i)) (hbelow i)
    (fun d hd => absurd hd (Option.not_mem_none d)) (hequal i)
  have hgrows : ∀ i, Grows (c i) (c' i)
      (s₁ i ++ (s₂ i ++ [.ifTrue (equal i).address (target i)])) := by
    intro i
    obtain ⟨made, placed, hpiece⟩ := (hcomputes.grows i).trans ((hproduces i).grows.trans
      (Grows.emit (c₃ i) (.ifTrue (equal i).address (target i))))
    rw [← hc₁ i] at hpiece
    exact .of_adds (hadds i hpiece)
  refine ⟨_, hgrows, fun i j => ?_, fun m hm hagree => ?_⟩
  · have hsame : ∀ i, (c' i).literals = (c₂ i).literals := by
      intro i
      rw [hliterals i, hc₁ i]
      exact (hproduces i).literals
    rw [hsame i, hsame j]
    exact hcomputes.literals i j
  · obtain ⟨m₁, hruns₁, hagree₁, _, hkept₁⟩ := hcomputes.runs m hm
    have hagree := hsubject.kept hkept₁ hagree
    choose m₂ hruns₂ hcontents hleaves using fun i => (hproduces i).runs (m₁ i)
    have hkept := hkept₁.leave hleaves hcomputes.top_le htwins₂.limit
    -- The comparison is a function of types and bytes, which agree.
    have hword : ∀ i j, (m₂ i).word (equal i).address = (m₂ j).word (equal j).address := by
      intro i j
      have hint : ∀ i, w.registry.length (equal i).type = 8 := by
        intro i
        rw [(hproduces i).type, length_operationType]
      rw [word_eq (hint i), word_eq (hint j), hcontents i, hcontents j, hsubject.type i j,
        hcomputes.type i, hcomputes.type j, hagree i j, hagree₁ i j]
    by_cases hzero : (m₂ true).word (equal true).address = 0
    · refine ⟨m₂, none, by simp, fun i => ?_, hkept⟩
      have htest : Runs w.machine [.ifTrue (equal i).address (target i)] (m₂ i) (m₂ i) :=
        .ifTrue (target i) ((hword i true).trans hzero)
      exact (hruns₁ i).trans ((hruns₂ i).trans htest)
    · refine ⟨m₂, some target, by simp, fun i => ?_, hkept⟩
      have htest : JumpsTo w.machine [.ifTrue (equal i).address (target i)] (target i) (m₂ i)
          (m₂ i) := .ifTrue (target i) fun h => hzero ((hword true i).trans h)
      exact (hruns₁ i).jump ((hruns₂ i).jump htest)

/-- The tests of one arm jump to one label. -/
theorem selects_tests {target : Bool → Label} {es : List Expr} {v : Bool → Unit}
    (hvalues : ∀ e ∈ es, ∃ points, Agrees w nowhere (fun _ => asValue e (place none e) none) points)
    (htwins : Twins w c) (hsubject : Lasts w c subject)
    (hrun : ∀ i, Yields (tests (subject i) (target i) es) (c i) (v i) (c' i)) :
    ∃ piece, Selects w c c' piece subject [target] := by
  induction es generalizing c with
  | nil =>
    simp only [tests, yields_pure] at hrun
    obtain rfl : c' = c := funext fun i => (hrun i).2
    exact ⟨_, .silent (fun i => .nil (c' i)) htwins.literals⟩
  | cons e es ih =>
    simp only [tests, yields_bind] at hrun
    choose v₁ c₁ hfirst hrest using hrun
    obtain ⟨points, he⟩ := hvalues e List.mem_cons_self
    obtain ⟨s₁, hs₁⟩ := selects_test he htwins hsubject hfirst
    obtain ⟨s₂, hs₂⟩ := ih (fun e he => hvalues e (List.mem_cons_of_mem _ he)) (hs₁.twins htwins)
      (hsubject.mono fun i => (hs₁.grows i).top) hrest
    exact ⟨_, (hs₁.trans hs₂ hsubject).widen (by simp)⟩

/-- The tests of all arms make the labels of the bodies and select among them. -/
theorem selects_armTests {arms : List Arm} {ls : Bool → List Label}
    (hvalues : ∀ arm ∈ arms, ∀ e ∈ arm.values,
      ∃ points, Agrees w nowhere (fun _ => asValue e (place none e) none) points)
    (htwins : Twins w c) (hsubject : Lasts w c subject)
    (hrun : ∀ i, Yields (armTests (subject i) arms) (c i) (ls i) (c' i)) :
    ∃ bodies : List (Bool → Label), (∀ i, ls i = bodies.map (· i)) ∧
      bodies.length = arms.length ∧ ∃ piece, Selects w c c' piece subject bodies := by
  induction arms generalizing c ls with
  | nil =>
    simp only [armTests, yields_pure] at hrun
    obtain rfl : c' = c := funext fun i => (hrun i).2
    exact ⟨[], fun i => (hrun i).1, rfl, _, .silent (fun i => .nil (c' i)) htwins.literals⟩
  | cons arm arms ih =>
    obtain ⟨vs, result, span⟩ := arm
    simp only [armTests, yields_bind, yields_pure] at hrun
    choose l c₁ hl v c₂ htests ls' c₃ hrest hls hc' using hrun
    obtain rfl : c' = c₃ := funext hc'
    obtain ⟨htwins₁, hmade⟩ := htwins.freshLabel hl
    have hsubject₁ := hsubject.mono fun i => (hmade i).top
    obtain ⟨s₁, hs₁⟩ := selects_tests (hvalues _ List.mem_cons_self) htwins₁ hsubject₁ htests
    obtain ⟨bodies, hbodies, hlen, s₂, hs₂⟩ :=
      ih (fun arm harm => hvalues arm (List.mem_cons_of_mem _ harm)) (hs₁.twins htwins₁)
        (hsubject₁.mono fun i => (hs₁.grows i).top) hrest
    have hlabel : Selects w c c₁ (fun _ => []) subject [] := .silent hmade htwins₁.literals
    refine ⟨l :: bodies, fun i => ?_, congrArg Nat.succ hlen, _,
      hlabel.trans (hs₁.trans hs₂ hsubject₁) hsubject⟩
    rw [hls i, hbodies i]
    rfl

/-! ## Bodies -/

/-- The value of a branch can be joined into fresh storage or the destination. -/
structure Joinable (w : Layout) (dest : Bool → Option Slot) (c : Bool → Compilation)
    (points : Prop) (value : Bool → Slot) : Prop where
  type : ∀ i j, (value i).type = (value j).type
  pointer : points → ∀ i, IsPointer (value i).type
  apart : ∀ i t, t.beyond (tops c i) ∨ t ∈ dest i → (value i).apart w.registry t

theorem Joinable.mono {points : Prop} {value : Bool → Slot} (h : Joinable w dest c points value)
    (hle : ∀ i, tops c i ≤ tops c' i) : Joinable w dest c' points value where
  type := h.type
  pointer := h.pointer
  apart i t ht := h.apart i t (ht.imp_left fun hbeyond => hbeyond.mono (hle i))

theorem Computes.joinable {piece : Bool → List Instr} {slot : Bool → Slot} {t : Ty} {points : Prop}
    (h : Computes w dest c c' piece slot t points) (htwins : Twins w c)
    (hoffered : Offered w c dest) : Joinable w dest c' points slot where
  type i j := (h.type i).trans (h.type j).symm
  pointer hp i := h.type i ▸ h.pointer hp
  apart i _ ht := h.apart htwins hoffered i ht

/-- Some code leaves the same value in the slots, which `points` if it should. -/
def Leads (w : Layout) (points : Prop) (value : Bool → Slot) (m : Bool → Store) : Prop :=
  Agree w m value ∧ (points → ∀ i, Points w (value i).type ((m i).contents w.registry (value i)))

/-- The two pieces of code hold the bodies of arms. Entered at the labels of an arm, they compute
its result and go on to the joins of its branch. -/
structure Bodies (w : Layout) (dest : Bool → Option Slot) (c c' : Bool → Compilation)
    (piece : Bool → List Instr) (points : Prop) (ls : List (Bool → Label))
    (branches : List (Bool → Branch)) : Prop where
  grows : ∀ i, Grows (c i) (c' i) (piece i)
  literals : ∀ i j, (c' i).literals = (c' j).literals
  joinable : ∀ b ∈ branches, Joinable w dest c' points fun i => (b i).value
  runs : ∀ l ∈ ls, ∃ b ∈ branches, ∀ m, Common w m → ∃ m',
    (∀ i, Passes w.machine (piece i) (l i) (b i).join (m i) (m' i)) ∧
    Leads w points (fun i => (b i).value) m' ∧ Kept w dest (tops c) m m'

theorem Bodies.twins {piece : Bool → List Instr} {points : Prop} {ls : List (Bool → Label)}
    {branches : List (Bool → Branch)} (h : Bodies w dest c c' piece points ls branches)
    (htwins : Twins w c) : Twins w c' := htwins.grows h.grows h.literals

theorem Computes.leads {piece : Bool → List Instr} {slot : Bool → Slot} {t : Ty} {points : Prop}
    (h : Computes w dest c c' piece slot t points) {m : Bool → Store} (hm : Common w m) :
    ∃ m', (∀ i, Runs w.machine (piece i) (m i) (m' i)) ∧ Leads w points slot m' ∧
      Kept w dest (tops c) m m' := by
  obtain ⟨m', hruns, hagree, hpoints, hkept⟩ := h.runs m hm
  exact ⟨m', hruns, ⟨hagree, fun hp i => h.type i ▸ hpoints hp i⟩, hkept⟩

/-- One body in front of others. -/
theorem Bodies.cons {s₁ s₂ : Bool → List Instr} {l j : Bool → Label} {value : Bool → Slot} {t : Ty}
    {points : Prop} {ls : List (Bool → Label)} {branches : List (Bool → Branch)} {span : Span}
    (htwins : Twins w c₁) (hoffered : Offered w c₁ dest)
    (hmade : ∀ i, Grows ((c i).add [.label (l i)]) (c₁ i) [])
    (hvalue : Computes w dest c₁ c₂ s₁ value t points)
    (hrest : Bodies w dest (fun i => (c₂ i).add [.goto (j i)]) c' s₂ points ls branches) :
    Bodies w dest c c' (fun i => .label (l i) :: (s₁ i ++ .goto (j i) :: s₂ i)) points (l :: ls)
      ((fun i => ⟨value i, j i, span⟩) :: branches) := by
  have hbefore : ∀ i, Grows (c i) ((c₂ i).add [.goto (j i)])
      (.label (l i) :: (s₁ i ++ [.goto (j i)])) := fun i =>
    ((Grows.emit (c i) (.label (l i))).trans (hmade i)).trans
      ((hvalue.grows i).trans (.emit (c₂ i) (.goto (j i))))
  have htop₁ : ∀ i, tops c i ≤ tops c₁ i := fun i => (hmade i).top
  refine ⟨fun i => ?_, hrest.literals, fun b hb => ?_, fun k hk => ?_⟩
  · simpa using (hbefore i).trans (hrest.grows i)
  · rcases List.mem_cons.mp hb with rfl | hb
    · exact (hvalue.joinable htwins hoffered).mono fun i => (hrest.grows i).top
    · exact hrest.joinable b hb
  -- Entered at the first label the code leaves before the rest; else it is entered behind it.
  · rcases List.mem_cons.mp hk with rfl | hk
    · refine ⟨_, List.mem_cons_self, fun m hm => ?_⟩
      obtain ⟨m', hruns, hleads, hkept⟩ := hvalue.leads hm
      refine ⟨m', fun i => ⟨[], _, rfl, ?_⟩, hleads, hkept.mono htop₁⟩
      simpa using ((hruns i).jump (.goto (j i) (m' i))).append (s₂ i)
    · obtain ⟨b, hb, hruns⟩ := hrest.runs k hk
      refine ⟨b, List.mem_cons_of_mem _ hb, fun m hm => ?_⟩
      obtain ⟨m', hpasses, hleads, hkept⟩ := hruns m hm
      refine ⟨m', fun i => ?_, hleads, hkept.mono fun i => (hbefore i).top⟩
      have hpasses := (hpasses i).prepend (.label (l i) :: (s₁ i ++ [.goto (j i)]))
      rw [List.cons_append, List.append_assoc] at hpasses
      exact hpasses

theorem bodies_armBodies {arms : List Arm} {points : Prop} {ls : List (Bool → Label)}
    {bs : Bool → List Branch} (hlen : ls.length = arms.length)
    (hresults : ∀ arm ∈ arms, Agrees w dest
      (fun i => asValue arm.result (place (dest i) arm.result) (dest i)) points)
    (htwins : Twins w c) (hoffered : Offered w c dest)
    (hrun : ∀ i, Yields (armBodies (dest i) arms (ls.map (· i))) (c i) (bs i) (c' i)) :
    ∃ branches : List (Bool → Branch), (∀ i, bs i = branches.map (· i)) ∧
      ∃ piece, Bodies w dest c c' piece points ls branches := by
  induction arms generalizing c ls bs with
  | nil =>
    obtain rfl := List.length_eq_zero_iff.mp hlen
    simp only [armBodies, yields_pure] at hrun
    obtain rfl : c' = c := funext fun i => (hrun i).2
    refine ⟨[], fun i => (hrun i).1, fun _ => [], fun i => .nil (c' i), htwins.literals, ?_, ?_⟩
    · exact fun _ hb => absurd hb List.not_mem_nil
    · exact fun _ hl => absurd hl List.not_mem_nil
  | cons arm arms ih =>
    obtain ⟨vs, result, span⟩ := arm
    cases ls with
    | nil => cases hlen
    | cons l ls =>
      simp only [List.map_cons, armBodies, yields_bind, yields_emitLabel, yields_emitGoto,
        yields_pure] at hrun
      choose v₁ c₁ hc₁ j c₂ hj value c₃ hvalue v₂ c₄ hc₄ bs' c₅ hrest hbs hc' using hrun
      obtain rfl : c₁ = fun i => (c i).add [.label (l i)] := funext hc₁
      obtain rfl : c₄ = fun i => (c₃ i).add [.goto (j i)] := funext hc₄
      obtain rfl : c' = c₅ := funext hc'
      obtain ⟨htwins₂, hmade⟩ := (htwins.emit fun i => .label (l i)).freshLabel hj
      have hoffered₂ : Offered w c₂ dest := hoffered.mono fun i => (hmade i).top
      have hresult : Agrees w dest (fun i => asValue result (place (dest i) result) (dest i))
          points := hresults _ List.mem_cons_self
      obtain ⟨s₁, t, hcomputes⟩ := hresult hvalue htwins₂ hoffered₂
      obtain ⟨branches, hbranches, s₂, hbodies⟩ := ih (Nat.succ.inj hlen)
        (fun arm harm => hresults arm (List.mem_cons_of_mem _ harm))
        ((hcomputes.twins htwins₂).emit fun i => .goto (j i))
        (hoffered₂.mono hcomputes.top_le) hrest
      -- The two lists of branches are one list of families.
      refine ⟨(fun i => ⟨value i, j i, result.span⟩) :: branches, fun i => ?_, _,
        .cons htwins₂ hoffered₂ hmade hcomputes hbodies⟩
      rw [hbs i, hbranches i]
      rfl

/-- Behind the tests there is the default, then the bodies. Whichever branch is taken, its join is
reached with its value. -/
theorem Selects.enter {c₃ : Bool → Compilation} {s₁ s₂ s₃ : Bool → List Instr} {j : Bool → Label}
    {value : Bool → Slot} {t : Ty} {points : Prop} {ls : List (Bool → Label)}
    {branches : List (Bool → Branch)} (span : Span) (h : Selects w c c₁ s₁ subject ls)
    (hdefault : Computes w dest c₂ c₃ s₂ value t points)
    (hbodies : Bodies w dest (fun i => (c₃ i).add [.goto (j i)]) c' s₃ points ls branches)
    (hle : ∀ i, tops c i ≤ tops c₂ i) {m : Bool → Store} (hm : Common w m)
    (hagree : Agree w m subject) :
    ∃ b ∈ (fun i => ⟨value i, j i, span⟩) :: branches, ∃ m',
      (∀ i, JumpsTo w.machine (s₁ i ++ (s₂ i ++ .goto (j i) :: s₃ i)) (b i).join (m i) (m' i)) ∧
      Leads w points (fun i => (b i).value) m' ∧ Kept w dest (tops c) m m' := by
  obtain ⟨m₁, target, htarget, hexits, hkept₁⟩ := h.runs m hm hagree
  cases target with
  | none =>
    obtain ⟨m₂, hruns, hleads, hkept₂⟩ := hdefault.leads hkept₁.commonly
    refine ⟨_, List.mem_cons_self, m₂, fun i => ?_, hleads, hkept₁.trans hkept₂ hle⟩
    have hjump := (Runs.trans (hexits i) (hruns i)).jump (.goto (j i) (m₂ i))
    simpa using hjump.append (s₃ i)
  | some l =>
    obtain ⟨b, hb, hruns⟩ := hbodies.runs l (htarget l rfl)
    obtain ⟨m₂, hpasses, hleads, hkept₂⟩ := hruns m₁ hkept₁.commonly
    refine ⟨b, List.mem_cons_of_mem _ hb, m₂, fun i => ?_, hleads,
      hkept₁.trans hkept₂ fun i => Nat.le_trans (hle i) (hdefault.top_le i)⟩
    have hjump := JumpsTo.append (hexits i) (s₂ i ++ [.goto (j i)])
    simpa using hjump.pass (hpasses i)

/-! ## Joins -/

/-- The two pieces of code hold the joins of branches, all into one result. -/
structure Gathers (w : Layout) (dest : Bool → Option Slot) (top : Bool → Nat)
    (c c' : Bool → Compilation) (piece : Bool → List Instr) (branches : List (Bool → Branch))
    (done : Bool → Label) (result : Bool → Slot) : Prop where
  grows : ∀ i, Grows (c i) (c' i) (piece i)
  literals : ∀ i j, (c' i).literals = (c' j).literals
  runs : ∀ b ∈ branches, ∀ m, Agree w m (fun i => (b i).value) → ∃ m',
    (∀ i, Passes w.machine (piece i) (b i).join (done i) (m i) (m' i)) ∧ Agree w m' result ∧
    ((∀ i, (b i).value.type = (result i).type) → ∀ i,
      (m' i).contents w.registry (result i) = (m i).contents w.registry (b i).value) ∧
    ∀ i, (m i).Leaves w.registry (top i) (dest i) (m' i)

theorem gathers_joinAll {top : Bool → Nat} {branches : List (Bool → Branch)}
    {done : Bool → Label} {t : Ty} {v : Bool → Unit} (result : Bool → Slot) (htwins : Twins w c)
    (ht : ∀ i, (result i).type = t) (hresult : ∀ i, (result i).beyond (top i) ∨ result i ∈ dest i)
    (htop : ∀ i, top i ≤ tops c i)
    (hbranches : ∀ b ∈ branches, (∀ i j, (b i).value.type = (b j).value.type) ∧
      ∀ i, (b i).value.apart w.registry (result i))
    (hrun : ∀ i, Yields (joinAll (result i) (done i) (branches.map (· i))) (c i) (v i) (c' i)) :
    ∃ piece, Gathers w dest top c c' piece branches done result := by
  induction branches generalizing c with
  | nil =>
    simp only [List.map_nil, joinAll, yields_forM_nil] at hrun
    obtain rfl : c' = c := funext hrun
    exact ⟨fun _ => [], fun i => .nil (c' i), htwins.literals,
      fun _ hb => absurd hb List.not_mem_nil⟩
  | cons b branches ih =>
    simp only [List.map_cons, joinAll, yields_forM_cons, yields_bind, yields_emitLabel,
      yields_emitGoto] at hrun
    choose v₁ c₁ hfirst hrest using hrun
    choose v₂ c₂ hc₂ v₃ c₃ hjoin hc₁ using hfirst
    obtain rfl : c₂ = fun i => (c i).add [.label (b i).join] := funext hc₂
    obtain rfl : c₁ = fun i => (c₃ i).add [.goto (done i)] := funext hc₁
    obtain ⟨hb, hbranches⟩ := List.forall_mem_cons.mp hbranches
    have htwins₂ := htwins.emit fun i => .label (b i).join
    obtain ⟨s₁, hjoins⟩ := joins_joinInto (fun i => (b i).value) result htwins₂
      (fun i => hb.1 i true) ht hresult htop hb.2 hjoin
    have hbefore : ∀ i, Grows (c i) ((c₃ i).add [.goto (done i)])
        (.label (b i).join :: (s₁ i ++ [.goto (done i)])) := fun i =>
      (Grows.emit (c i) (.label (b i).join)).trans
        ((hjoins.grows i).trans (.emit (c₃ i) (.goto (done i))))
    obtain ⟨s₂, hgathers⟩ := ih ((hjoins.twins htwins₂).emit fun i => .goto (done i))
      (fun i => Nat.le_trans (htop i) (hbefore i).top) hbranches hrest
    refine ⟨fun i => .label (b i).join :: (s₁ i ++ .goto (done i) :: s₂ i), fun i => ?_,
      hgathers.literals, fun b' hb' m hm => ?_⟩
    · simpa using (hbefore i).trans (hgathers.grows i)
    -- The join of the branch is the first one, or it is entered behind it.
    · rcases List.mem_cons.mp hb' with rfl | hb'
      · obtain ⟨m', hruns, hagree, hsame, hleaves⟩ := hjoins.runs m hm
        refine ⟨m', fun i => ⟨[], _, rfl, ?_⟩, hagree, hsame, hleaves⟩
        simpa using ((hruns i).jump (.goto (done i) (m' i))).append (s₂ i)
      · obtain ⟨m', hpasses, hrest⟩ := hgathers.runs b' hb' m hm
        refine ⟨m', fun i => ?_, hrest⟩
        have hpasses := (hpasses i).prepend (.label (b i).join :: (s₁ i ++ [.goto (done i)]))
        rw [List.cons_append, List.append_assoc] at hpasses
        exact hpasses

/-! ## Switches -/

/-- Both sides join all branches at one type, and pointers only with pointers of the same type. -/
theorem commonType_branches {branches : List (Bool → Branch)} {points : Prop} {t : Bool → Ty}
    {span : Span} (htwins : Twins w c)
    (hjoinable : ∀ b ∈ branches, Joinable w dest c points fun i => (b i).value)
    (h : ∀ i, Yields (commonType ((branches.map (· i)).map (·.value.type)) span)
      (c i) (t i) (c' i)) :
    c' = c ∧ ∃ t', (t = fun _ => t') ∧
      (points → IsPointer t' ∧ ∀ b ∈ branches, ∀ i, (b i).value.type = t') := by
  have hsame : ∀ i, (branches.map (· i)).map (·.value.type) =
      branches.map fun b => (b true).value.type := by
    intro i
    rw [List.map_map]
    exact List.map_congr_left fun b hb => (hjoinable b hb).type i true
  simp only [hsame] at h
  obtain ⟨hstays, t', ht, hcommon⟩ := commonType_agrees htwins h
  refine ⟨hstays, t', ht, fun hp => ?_⟩
  obtain ⟨hpointer, hall⟩ := eq_of_commonType?
    (List.forall_mem_map.mpr fun b hb => (hjoinable b hb).pointer hp true) hcommon
  refine ⟨hpointer, fun b hb i => ?_⟩
  rw [(hjoinable b hb).type i true]
  exact List.forall_mem_map.mp hall b hb

/-- The code of a switch: the subject, the tests, the default, the bodies and the joins. -/
theorem computes_switch {c₃ c₄ c₅ c₆ c₇ c₈ : Bool → Compilation}
    {s₁ s₂ s₃ s₄ s₅ : Bool → List Instr} {value : Bool → Slot} {j done : Bool → Label}
    {tsubject tdefault t : Ty} {pointsSubject points : Prop} {ls : List (Bool → Label)}
    {branches : List (Bool → Branch)} {span : Span} (htwins : Twins w c)
    (hsubject : Computes w nowhere c c₁ s₁ subject tsubject pointsSubject)
    (hmade : ∀ i, Grows (c₁ i) (c₂ i) []) (hselects : Selects w c₂ c₃ s₂ subject ls)
    (hmade' : ∀ i, Grows (c₃ i) (c₄ i) [])
    (hdefault : Computes w dest c₄ c₅ s₃ value tdefault points)
    (hbodies : Bodies w dest (fun i => (c₅ i).add [.goto (j i)]) c₆ s₄ points ls branches)
    (htype : ∀ i, (result i).type = t)
    (hreceives : ∀ i, Receives w.registry (dest i) (c₆ i) (c₇ i) (result i))
    (hgathers : Gathers w dest (tops c) c₇ c₈ s₅ ((fun i => ⟨value i, j i, span⟩) :: branches)
      done result)
    (hpointer : points → IsPointer t ∧
      ∀ b ∈ (fun i => ⟨value i, j i, span⟩) :: branches, ∀ i, (b i).value.type = t) :
    Computes w dest c (fun i => (c₈ i).add [.label (done i)])
      (fun i => s₁ i ++ (s₂ i ++ (s₃ i ++ .goto (j i) :: s₄ i)) ++ (s₅ i ++ [.label (done i)]))
      result t points := by
  have hbefore : ∀ i, Grows (c i) (c₆ i) (s₁ i ++ (s₂ i ++ (s₃ i ++ .goto (j i) :: s₄ i))) := by
    intro i
    have htests := ((hsubject.grows i).trans (hmade i)).trans ((hselects.grows i).trans (hmade' i))
    simpa using (htests.trans (hdefault.grows i)).trans
      ((Grows.emit (c₅ i) (.goto (j i))).trans (hbodies.grows i))
  refine ⟨fun i => ?_, hgathers.literals, htype, .of_receives (fun i => ?_) fun i => ?_,
    fun hp => (hpointer hp).1, fun m hm => ?_⟩
  · simpa using (hbefore i).trans ((hreceives i).grows.trans
      ((hgathers.grows i).trans (.emit (c₈ i) (.label (done i)))))
  · exact (hreceives i).writable.imp_left fun h => h.mono (hbefore i).top
  · exact (hreceives i).below.mono (hgathers.grows i).top
  · obtain ⟨m₁, hruns₁, hagree₁, _, hkept₁⟩ := hsubject.runs m hm
    -- Both sides get to the join of the same branch, and the branches gather in one result.
    obtain ⟨b, hb, m₂, hjumps, ⟨hagree₂, hpoints⟩, hkept₂⟩ :=
      hselects.enter span hdefault hbodies
        (fun i => Nat.le_trans (hselects.grows i).top (hmade' i).top) hkept₁.commonly hagree₁
    obtain ⟨m₃, hpasses, hagree₃, hsame, hleaves⟩ := hgathers.runs b hb m₂ hagree₂
    have hkept := hkept₁.trans hkept₂ fun i =>
      Nat.le_trans (hsubject.top_le i) (hmade i).top
    refine ⟨m₃, fun i => ?_, hagree₃, fun hp i => ?_, hkept.leave hleaves (fun _ => Nat.le_refl _)
      htwins.limit⟩
    · simpa using (((hruns₁ i).jump (hjumps i)).pass (hpasses i)).land (.nil (m₃ i))
    · have hbranch := (hpointer hp).2 b hb
      rw [hsame (fun i => (hbranch i).trans (htype i).symm) i, ← hbranch i]
      exact hpoints hp i

/-- A switch, from its subject, its default, and the values and results of its arms. -/
theorem agrees_switch {subject default : Bool → CompileM Slot} {arms : List Arm}
    {defaultSpan span : Span} {pointsSubject points : Prop}
    (hsubject : Agrees w nowhere subject pointsSubject) (hdefault : Agrees w dest default points)
    (hvalues : ∀ arm ∈ arms, ∀ e ∈ arm.values,
      ∃ points, Agrees w nowhere (fun _ => asValue e (place none e) none) points)
    (hresults : ∀ arm ∈ arms, Agrees w dest
      (fun i => asValue arm.result (place (dest i) arm.result) (dest i)) points) :
    Agrees w dest (fun i => switch (subject i) (default i) arms defaultSpan span (dest i))
      points := by
  intro c c' slot hrun htwins hoffered
  simp only [switch, yields_bind, yields_emitGoto, yields_emitLabel, yields_pure] at hrun
  choose v c₁ hv d c₂ hd ls c₃ hls j c₄ hj dv c₅ hdv v₁ c₆ hc₆ bs c₇ hbs t c₈ ht dst c₉ hres v₂ c₁₀
    hjoin v₃ c₁₁ hc₁₁ hslot hc' using hrun
  obtain rfl : c₆ = fun i => (c₅ i).add [.goto (j i)] := funext hc₆
  obtain rfl : c' = fun i => (c₁₀ i).add [.label (d i)] := funext fun i => (hc' i).trans (hc₁₁ i)
  obtain rfl : slot = fun i => ⟨t i, dst i⟩ := funext hslot
  obtain ⟨s₁, tv, hsubject⟩ := hsubject hv htwins (offered_nowhere w c)
  obtain ⟨htwins₂, hmade₂⟩ := (hsubject.twins htwins).freshLabel hd
  have hlasts := (hsubject.lasts htwins).mono fun i => (hmade₂ i).top
  obtain ⟨bodies, hls', hlen, s₂, hselects⟩ := selects_armTests hvalues htwins₂ hlasts hls
  obtain rfl : ls = fun i => bodies.map (· i) := funext hls'
  obtain ⟨htwins₄, hmade₄⟩ := (hselects.twins htwins₂).freshLabel hj
  have htop₄ : ∀ i, tops c i ≤ tops c₄ i := fun i => (((hsubject.grows i).trans (hmade₂ i)).trans
    ((hselects.grows i).trans (hmade₄ i))).top
  have hoffered₄ : Offered w c₄ dest := hoffered.mono htop₄
  obtain ⟨s₃, td, hdefault⟩ := hdefault hdv htwins₄ hoffered₄
  have htwins₆ := (hdefault.twins htwins₄).emit fun i => .goto (j i)
  have hoffered₆ : Offered w (fun i => (c₅ i).add [.goto (j i)]) dest :=
    hoffered₄.mono hdefault.top_le
  obtain ⟨branches, hbs', s₄, hbodies⟩ := bodies_armBodies hlen hresults htwins₆ hoffered₆ hbs
  obtain rfl : bs = fun i => branches.map (· i) := funext hbs'
  have htwins₇ := hbodies.twins htwins₆
  have hoffered₇ : Offered w c₇ dest := hoffered₆.mono fun i => (hbodies.grows i).top
  -- The default is one more branch, in front of those of the arms.
  have hjoinable : ∀ b ∈ (fun i => ⟨dv i, j i, defaultSpan⟩) :: branches,
      Joinable w dest c₇ points fun i => (b i).value := by
    refine List.forall_mem_cons.mpr ⟨?_, hbodies.joinable⟩
    exact (hdefault.joinable htwins₄ hoffered₄).mono fun i => (hbodies.grows i).top
  obtain ⟨rfl, t, rfl, hpointer⟩ := commonType_branches htwins₇ hjoinable ht
  have hreceives : ∀ i, Receives w.registry (dest i) (c₈ i) (c₉ i) ⟨t, dst i⟩ := fun i =>
    receives_resultAddress (htwins₇.registry i) (hoffered₇.below i) (hres i)
  have htwins₉ := htwins₇.step (fun i => (hreceives i).grows) fun i => (hreceives i).literals
  have htop₈ : ∀ i, tops c i ≤ tops c₈ i := fun i => Nat.le_trans (htop₄ i)
    (Nat.le_trans (hdefault.top_le i) (hbodies.grows i).top)
  obtain ⟨s₅, hgathers⟩ := gathers_joinAll (fun i => ⟨t, dst i⟩) htwins₉ (fun _ => rfl)
    (fun i => (hreceives i).writable.imp_left fun h => h.mono (htop₈ i))
    (fun i => Nat.le_trans (htop₈ i) (hreceives i).grows.top)
    (fun b hb => ⟨(hjoinable b hb).type, fun i =>
      (hjoinable b hb).apart i _ (hreceives i).writable⟩) hjoin
  exact ⟨_, t, computes_switch htwins hsubject hmade₂ hselects hmade₄ hdefault hbodies
    (fun _ => rfl) hreceives hgathers hpointer⟩

end ClassLang.Elision
