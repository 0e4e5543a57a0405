import ClassLang.Proofs.Elision.Agreement

/-!
# Branches that agree

Lazy operators and conditionals. Both sides take the same branch, since they test the same word.
The branch may write into the destination of the whole; nothing is read from there afterwards but
the value of the branch itself, which is then joined with the others at a common type.
-/

namespace ClassLang.Elision

open CompileM Lowering Machine

variable {w : Layout} {c c₁ c₂ c₃ c₄ c' : Bool → Compilation} {dest : Bool → Option Slot}
  {slot result : Bool → Slot}

/-- A jump, a label or any other instruction. -/
theorem Twins.emit (h : Twins w c) (i : Bool → Instr) : Twins w fun k => (c k).add [i k] :=
  h.step (fun k => .emit (c k) (i k)) fun _ => rfl

theorem Twins.freshLabel {kind : LabelKind} {l : Bool → Label} (h : Twins w c)
    (hrun : ∀ i, Yields (freshLabel kind) (c i) (l i) (c' i)) :
    Twins w c' ∧ ∀ i, Grows (c i) (c' i) [] := by
  have hgrows : ∀ i, Grows (c i) (c' i) [] := fun i => .of_adds (adds_freshLabel (hrun i))
  refine ⟨h.step hgrows fun i => ?_, hgrows⟩
  have hfresh := hrun i
  rw [CompileM.freshLabel, yields_updateFrame] at hfresh
  rw [hfresh.2]

/-- A step whose temporaries are given back leaves its result where it was before. -/
theorem AgreesInto.withTemps {step : Bool → Slot → CompileM Unit} (h : AgreesInto w step) :
    AgreesInto w fun i result => withTemps (step i result) := by
  intro result c c' v hrun htwins hoffered htype
  choose c₁ hstep _ hliterals hadds using fun i => adds_withTemps (hrun i)
  have htwins₁ : Twins w fun i => { c i with frame := (c i).frame.pushBlock.2 } :=
    ⟨htwins.registry, htwins.scopes, htwins.limit, htwins.literals⟩
  obtain ⟨piece, hfills⟩ := h hstep htwins₁ hoffered htype
  refine ⟨piece, fun i => ?_, fun i j => ?_, hfills.runs⟩
  · obtain ⟨made, placed, hpiece⟩ := hfills.grows i
    exact .of_adds (hadds i hpiece)
  · rw [hliterals i, hliterals j]
    exact hfills.literals i j

variable (result) in
/-- Storing a number. -/
theorem fills_imm (v : Int) (htwins : Twins w c)
    (htype : ∀ i, (result i).type = .int) :
    Fills w result c (fun i => (c i).add [.imm (result i).address v Prim.int.size])
      fun i => [.imm (result i).address v Prim.int.size] where
  grows i := .emit (c i) _
  literals := htwins.literals
  runs m hm := by
    have hlen : ∀ i, (immediate v Prim.int.size).length = w.registry.length (result i).type := by
      intro i
      rw [htype i]
      simp [immediate]
      rfl
    refine ⟨fun i => (m i).write (result i).address (immediate v Prim.int.size),
      fun i => .effect rfl, fun i j => ?_, ?_⟩
    · rw [Store.contents_write (hlen i), Store.contents_write (hlen j)]
    · exact (Kept.refl hm).leave (fun i => .write (.inr rfl) (Nat.le_of_eq (hlen i)))
        (fun _ => Nat.le_refl _) htwins.limit

/-! ## Lazy operators -/

/-- Two branches that fill one slot. -/
theorem computes_ifElse {test yes no : Bool → List Instr} {a : Bool → Address}
    {o d : Bool → Label} {t : Ty} (htwins : Twins w c)
    (hslot : ∀ i, Receives w.registry (dest i) (c i) (c₁ i) (slot i))
    (hmade : ∀ i, Grows (c₁ i) (c₂ i) []) (htype : ∀ i, (slot i).type = t)
    (htest : Decides w c₂ c₃ test a)
    (hyes : Fills w slot (fun i => (c₃ i).add [.ifFalse (a i) (o i)]) c₄ yes)
    (hno : Fills w slot (fun i => ((c₄ i).add [.goto (d i)]).add [.label (o i)]) c' no) :
    Computes w dest c (fun i => (c' i).add [.label (d i)])
      (fun i => test i ++ .ifFalse (a i) (o i) :: (yes i ++ .goto (d i) :: .label (o i) ::
        (no i ++ [.label (d i)]))) slot t False := by
  have hbefore : ∀ i, Grows (c i) (c₃ i) (test i) :=
    fun i => (hslot i).grows.trans ((hmade i).trans (htest.grows i))
  have htop₂ : ∀ i, tops c i ≤ tops c₂ i := fun i => ((hslot i).grows.trans (hmade i)).top
  have htop₃ : ∀ i, tops c i ≤ tops c₃ i := fun i => (hbefore i).top
  have htop₄ : ∀ i, tops c i ≤ tops c₄ i := fun i => Nat.le_trans (htop₃ i) (hyes.grows i).top
  have hslot' : ∀ i, (slot i).beyond (tops c i) ∨ slot i ∈ dest i := fun i => (hslot i).writable
  refine ⟨fun i => ?_, hno.literals, htype, .of_receives hslot' fun i => ?_, False.elim,
    fun m hm => ?_⟩
  · have hgrows := ((((hbefore i).trans (.emit _ (.ifFalse (a i) (o i)))).trans
      (hyes.grows i)).trans ((Grows.emit _ (.goto (d i))).trans (.emit _ (.label (o i))))).trans
      ((hno.grows i).trans (.emit _ (.label (d i))))
    simpa using hgrows
  · refine (hslot i).below.mono ?_
    exact Nat.le_trans ((hmade i).trans (htest.grows i)).top
      (Nat.le_trans (hyes.grows i).top (hno.grows i).top)
  · obtain ⟨m₁, hruns₁, hword, hkept₁⟩ := htest.runs m hm
    have hcommon := hkept₁.commonly
    have hkept₁ := hkept₁.mono htop₂
    -- Both sides have the same word in the test, so both take the same branch.
    by_cases hzero : (m₁ true).word (a true) = 0
    · obtain ⟨m₂, hruns₂, hagree, hkept₂⟩ := hno.runs m₁ hcommon
      have hkept₂ : Kept w dest (tops c) m₁ m₂ := hkept₂.of_result hslot' htop₄ htwins.limit
      refine ⟨m₂, fun i => .ifElse (hruns₁ i) (fun _ => hruns₂ i) fun hne => ?_, hagree,
        False.elim, hkept₁.trans hkept₂ fun _ => Nat.le_refl _⟩
      exact absurd ((hword i true).trans hzero) hne
    · obtain ⟨m₂, hruns₂, hagree, hkept₂⟩ := hyes.runs m₁ hcommon
      have hkept₂ : Kept w dest (tops c) m₁ m₂ := hkept₂.of_result hslot' htop₃ htwins.limit
      refine ⟨m₂, fun i => .ifElse (hruns₁ i) (fun heq => ?_) fun _ => hruns₂ i, hagree,
        False.elim, hkept₁.trans hkept₂ fun _ => Nat.le_refl _⟩
      exact absurd ((hword true i).trans heq) hzero

/-- A slot for a result is offered to what is computed into it. -/
theorem offered_of_receives (hoffered : Offered w c dest) (htwins : Twins w c)
    (h : ∀ i, Receives w.registry (dest i) (c i) (c₁ i) (slot i)) :
    Offered w c₁ fun i => some (slot i) := by
  intro i d hd
  obtain rfl := Option.some.inj hd
  refine ⟨(h i).below, ?_⟩
  rcases (h i).writable with hbeyond | hdest
  · exact .inr (hbeyond.mono (htwins.limit i))
  · exact (hoffered i _ hdest).2

/-- `and` and `or`. -/
theorem agrees_lazyOperator {isAnd : Bool} {left : Bool → CompileM Address}
    {right : Bool → Slot → CompileM Unit} (hleft : AgreesWord w left)
    (hright : AgreesInto w right) :
    Agrees w dest (fun i => lazyOperator isAnd (left i) (right i) (dest i)) False := by
  intro c c' slot hrun htwins hoffered
  simp only [lazyOperator, yields_bind, yields_emit] at hrun
  choose dst c₁ hresult o c₂ ho d c₃ hd a c₄ hl v c₅ hjump hrun using hrun
  obtain rfl : c₅ = fun i => (c₄ i).add [.ifFalse (a i) (o i)] := funext hjump
  have hreceives : ∀ i, Receives w.registry (dest i) (c i) (c₁ i) ⟨.int, dst i⟩ := fun i =>
    receives_resultAddress (htwins.registry i) (hoffered.below i) (hresult i)
  have htwins₁ := htwins.step (fun i => (hreceives i).grows) fun i => (hreceives i).literals
  obtain ⟨htwins₂, hgrows₂⟩ := htwins₁.freshLabel ho
  obtain ⟨htwins₃, hgrows₃⟩ := htwins₂.freshLabel hd
  obtain ⟨test, htest⟩ := hleft hl htwins₃
  have htwins₄ := htest.twins htwins₃
  have htwins₅ := htwins₄.emit fun i => .ifFalse (a i) (o i)
  have hmade := fun i => (hgrows₂ i).trans (hgrows₃ i)
  have hoffered₅ : Offered w (fun i => (c₄ i).add [.ifFalse (a i) (o i)])
      fun i => some ⟨.int, dst i⟩ :=
    (offered_of_receives hoffered htwins hreceives).mono fun i =>
      ((hmade i).trans (htest.grows i)).top
  have hright := hright.withTemps
  cases isAnd with
  | true =>
    simp only [if_true, yields_bind, yields_emitGoto, yields_emitLabel, yields_emit,
      yields_pure] at hrun
    choose v₁ c₆ hr v₂ c₇ hc₇ v₃ c₈ hc₈ v₄ c₉ hc₉ v₅ c₁₀ hc₁₀ hslot hc' using hrun
    obtain ⟨yes, hyes⟩ := hright hr htwins₅ hoffered₅ fun _ _ => rfl
    obtain rfl : c₇ = fun i => (c₆ i).add [.goto (d i)] := funext hc₇
    obtain rfl : c₈ = _ := funext hc₈
    obtain rfl : c₉ = _ := funext hc₉
    obtain rfl : c' = _ := funext fun i => (hc' i).trans (hc₁₀ i)
    obtain rfl : slot = _ := funext hslot
    -- `and` is false without its right operand.
    have hno := fills_imm (fun i => ⟨.int, dst i⟩) 0
      (((hyes.twins htwins₅).emit fun i => .goto (d i)).emit fun i => .label (o i)) fun _ => rfl
    exact ⟨_, _, computes_ifElse htwins hreceives hmade (fun _ => rfl) htest hyes hno⟩
  | false =>
    simp only [Bool.false_eq_true, if_false, yields_bind, yields_emitGoto, yields_emitLabel,
      yields_emit, yields_pure] at hrun
    choose v₁ c₆ hc₆ v₂ c₇ hc₇ v₃ c₈ hc₈ v₄ c₉ hr v₅ c₁₀ hc₁₀ hslot hc' using hrun
    -- `or` is true without its right operand.
    have hyes := fills_imm (fun i => ⟨.int, dst i⟩) 1 htwins₅ fun _ => rfl
    obtain rfl : c₆ = _ := funext hc₆
    obtain rfl : c₇ = fun i => _ := funext hc₇
    obtain rfl : c₈ = fun i => _ := funext hc₈
    have hlater := fun i => (hyes.grows i).trans
      ((Grows.emit _ (.goto (d i))).trans (.emit _ (.label (o i))))
    obtain ⟨no, hno⟩ := hright hr
      (((hyes.twins htwins₅).emit fun i => .goto (d i)).emit fun i => .label (o i))
      (hoffered₅.mono fun i => (hlater i).top) fun _ _ => rfl
    obtain rfl : c' = _ := funext fun i => (hc' i).trans (hc₁₀ i)
    obtain rfl : slot = _ := funext hslot
    exact ⟨_, _, computes_ifElse htwins hreceives hmade (fun _ => rfl) htest hyes hno⟩

/-! ## Joins -/

theorem yields_commonType {c c' : Compilation} {ts : List Ty} {span : Span} {t : Ty}
    (h : Yields (commonType ts span) c t c') : commonType? c.registry ts = some t ∧ c' = c := by
  simp only [commonType, yields_bind, yields_get, and_assoc, exists_and_left,
    exists_eq_left] at h
  split at h
  · rename_i hcommon
    rw [yields_pure] at h
    obtain ⟨rfl, rfl⟩ := h
    exact ⟨hcommon, rfl⟩
  · exact absurd h yields_fail.mp

/-- Pointers to numbers are joined only if they are of one type. -/
theorem eq_of_commonType? {r : Registry} {ts : List Ty} {t : Ty} (hts : ∀ s ∈ ts, IsPointer s)
    (h : commonType? r ts = some t) : IsPointer t ∧ ∀ s ∈ ts, s = t := by
  have hfound : t ∈ ts ∧ ∀ s ∈ ts, r.converts s t = true := by
    rw [commonType?, Option.or_eq_some_iff] at h
    rcases h with h | ⟨_, h⟩
    · refine ⟨List.mem_of_find?_eq_some h, fun s hs => ?_⟩
      have hall := List.find?_some (p := fun t => ts.all (r.convertsStrongly · t)) h
      have hstrong : r.convertsStrongly s t = true := List.all_eq_true.mp hall s hs
      unfold Registry.convertsStrongly at hstrong
      unfold Registry.converts
      cases hconversion : r.conversion? s t with
      | none =>
        rw [hconversion] at hstrong
        cases hstrong
      | some k => rfl
    · refine ⟨List.mem_of_find?_eq_some h, fun s hs => ?_⟩
      have hall := List.find?_some (p := fun t => ts.all (r.converts · t)) h
      exact List.all_eq_true.mp hall s hs
  obtain ⟨hmem, hconverts⟩ := hfound
  exact ⟨hts t hmem, fun s hs => (hts s hs).eq_of_converts (hts t hmem) (hconverts s hs)⟩

/-- The join of a branch: both sides convert the same value into their results. -/
structure Joins (w : Layout) (dest : Bool → Option Slot) (top : Bool → Nat)
    (c c' : Bool → Compilation) (piece : Bool → List Instr) (value result : Bool → Slot) : Prop where
  grows : ∀ i, Grows (c i) (c' i) (piece i)
  literals : ∀ i j, (c' i).literals = (c' j).literals
  runs : ∀ m, Agree w m value → ∃ m', (∀ i, Runs w.machine (piece i) (m i) (m' i)) ∧
    Agree w m' result ∧
    ((∀ i, (value i).type = (result i).type) → ∀ i,
      (m' i).contents w.registry (result i) = (m i).contents w.registry (value i)) ∧
    ∀ i, (m i).Leaves w.registry (top i) (dest i) (m' i)

theorem joins_joinInto {top : Bool → Nat} (value result : Bool → Slot) {s t : Ty}
    {span : Bool → Span} {v : Bool → Unit} (htwins : Twins w c) (hs : ∀ i, (value i).type = s)
    (ht : ∀ i, (result i).type = t)
    (hresult : ∀ i, (result i).beyond (top i) ∨ result i ∈ dest i)
    (htop : ∀ i, top i ≤ tops c i) (hapart : ∀ i, (value i).apart w.registry (result i))
    (h : ∀ i, Yields (joinInto (value i) (result i) (span i)) (c i) (v i) (c' i)) :
    ∃ piece, Joins w dest top c c' piece value result := by
  choose piece hmaps using fun i => maps_joinInto (u := w.machine) (htwins.registry i) (hresult i)
    (htop i) (hapart i) (h i)
  refine ⟨piece, fun i => (hmaps i).grows, ?_, fun m hm => ?_⟩
  · exact (htwins.step (fun i => (hmaps i).grows) fun i => (hmaps i).literals).literals
  · choose m' hruns hcontents hleaves using fun i => (hmaps i).runs (m i)
    refine ⟨m', hruns, fun i j => ?_, fun hsame i => ?_, hleaves⟩
    · rw [hcontents i, hcontents j, hs i, hs j, ht i, ht j, hm i j]
    · rw [hcontents i, hsame i, converted_self]

theorem Joins.twins {top : Bool → Nat} {piece : Bool → List Instr} {value : Bool → Slot}
    (h : Joins w dest top c c' piece value result) (htwins : Twins w c) : Twins w c' :=
  htwins.grows h.grows h.literals

/-- A branch and its join, one after the other. -/
theorem Computes.join {piece join : Bool → List Instr} {value : Bool → Slot} {s : Ty}
    {points : Prop} {m : Bool → Store} (h : Computes w dest c₁ c₂ piece value s points)
    (hjoin : Joins w dest (tops c) c₃ c₄ join value result) (htwins : Twins w c)
    (htop : ∀ i, tops c i ≤ tops c₁ i) (hm : Common w m) :
    ∃ m₁ m₂ : Bool → Store, (∀ i, Runs w.machine (piece i) (m i) (m₁ i)) ∧
      (∀ i, Runs w.machine (join i) (m₁ i) (m₂ i)) ∧ Agree w m₂ result ∧
      ((∀ i, (result i).type = s) → points →
        ∀ i, Points w s ((m₂ i).contents w.registry (result i))) ∧ Kept w dest (tops c) m m₂ := by
  obtain ⟨m₁, hruns₁, hagree₁, hpoints, hkept⟩ := h.runs m hm
  obtain ⟨m₂, hruns₂, hagree₂, hsame, hleaves⟩ := hjoin.runs m₁ hagree₁
  refine ⟨m₁, m₂, hruns₁, hruns₂, hagree₂, fun htype hp i => ?_, ?_⟩
  · rw [hsame (fun i => (h.type i).trans (htype i).symm) i]
    exact hpoints hp i
  · exact (hkept.mono htop).leave hleaves (fun _ => Nat.le_refl _) htwins.limit

/-- The value of a branch is apart from fresh storage, and in the destination or apart from it. -/
theorem Computes.apart {piece : Bool → List Instr} {s : Ty} {points : Prop}
    {value : Bool → Slot} (h : Computes w dest c c₁ piece value s points) (htwins : Twins w c)
    (hoffered : Offered w c dest) (i : Bool) {t : Slot} (ht : t.beyond (tops c₁ i) ∨ t ∈ dest i) :
    (value i).apart w.registry t := by
  rcases ht with hbeyond | hdest
  · exact (h.rests.below (h.twins htwins) (hoffered.mono h.top_le) i).apart hbeyond
  · exact h.rests.apart hoffered i t hdest

/-- Two branches that are joined at one type. -/
theorem computes_ifElseJoin {c₅ c₆ c₇ : Bool → Compilation}
    {test yes no joinYes joinNo : Bool → List Instr} {a : Bool → Address} {o d j : Bool → Label}
    {yv nv : Bool → Slot} {tyes tno t : Ty} {pointsYes pointsNo : Prop} (htwins : Twins w c)
    (hmade : ∀ i, Grows (c i) (c₁ i) []) (htest : Decides w c₁ c₂ test a)
    (hyes : Computes w dest (fun i => (c₂ i).add [.ifFalse (a i) (o i)]) c₃ yes yv tyes pointsYes)
    (hno : Computes w dest (fun i => ((c₃ i).add [.goto (j i)]).add [.label (o i)]) c₄ no nv tno
      pointsNo)
    (htype : ∀ i, (result i).type = t)
    (hresult : ∀ i, Receives w.registry (dest i) (c₄ i) (c₅ i) (result i))
    (hjoinNo : Joins w dest (tops c) c₅ c₆ joinNo nv result)
    (hjoinYes : Joins w dest (tops c)
      (fun i => ((c₆ i).add [.goto (d i)]).add [.label (j i)]) c₇ joinYes yv result)
    (hpointer : pointsYes ∧ pointsNo → IsPointer t ∧ tyes = t ∧ tno = t) :
    Computes w dest c (fun i => (c₇ i).add [.label (d i)])
      (fun i => test i ++ .ifFalse (a i) (o i) :: (yes i ++ .goto (j i) :: .label (o i) ::
        (no i ++ (joinNo i ++ .goto (d i) :: .label (j i) :: (joinYes i ++ [.label (d i)])))))
      result t (pointsYes ∧ pointsNo) := by
  have htop₂ : ∀ i, tops c i ≤ tops c₂ i := fun i => ((hmade i).trans (htest.grows i)).top
  have htop₃ : ∀ i, tops c i ≤ tops c₃ i := fun i => Nat.le_trans (htop₂ i) (hyes.grows i).top
  have htop₄ : ∀ i, tops c i ≤ tops c₄ i := fun i => Nat.le_trans (htop₃ i) (hno.grows i).top
  have hgrows : ∀ i, Grows (c i) (c₄ i)
      (test i ++ .ifFalse (a i) (o i) :: (yes i ++ .goto (j i) :: .label (o i) :: no i)) := by
    intro i
    have hgrows := (((hmade i).trans (htest.grows i)).trans
      ((Grows.emit _ (.ifFalse (a i) (o i))).trans (hyes.grows i))).trans
      (((Grows.emit _ (.goto (j i))).trans (.emit _ (.label (o i)))).trans (hno.grows i))
    simpa using hgrows
  have hgrows' : ∀ i, Grows (c₄ i) ((c₇ i).add [.label (d i)])
      (joinNo i ++ .goto (d i) :: .label (j i) :: (joinYes i ++ [.label (d i)])) := by
    intro i
    have hgrows := ((hresult i).grows.trans (hjoinNo.grows i)).trans
      (((Grows.emit _ (.goto (d i))).trans (.emit _ (.label (j i)))).trans
        ((hjoinYes.grows i).trans (.emit _ (.label (d i)))))
    simpa using hgrows
  refine ⟨fun i => ?_, hjoinYes.literals, htype, .of_receives (fun i => ?_) fun i => ?_,
    fun hp => (hpointer hp).1, fun m hm => ?_⟩
  · simpa using (hgrows i).trans (hgrows' i)
  · exact (hresult i).writable.imp_left fun h => h.mono (htop₄ i)
  · exact (hresult i).below.mono (Nat.le_trans (hjoinNo.grows i).top (hjoinYes.grows i).top)
  · obtain ⟨m₁, hruns₁, hword, hkept₁⟩ := htest.runs m hm
    have hcommon := hkept₁.commonly
    have hkept₁ := hkept₁.mono fun i => (hmade i).top
    -- Both sides have the same word in the test, so both take the same branch and its join.
    by_cases hzero : (m₁ true).word (a true) = 0
    · obtain ⟨m₂, m₃, hruns₂, hruns₃, hagree, hpoints, hkept₂⟩ :=
        hno.join hjoinNo htwins htop₃ hcommon
      refine ⟨m₃, fun i => .ifElseJoin (hruns₁ i) (fun _ => (hruns₂ i).trans (hruns₃ i))
        fun hne => ?_, hagree, fun hp => ?_, hkept₁.trans hkept₂ fun _ => Nat.le_refl _⟩
      · exact absurd ((hword i true).trans hzero) hne
      · obtain ⟨_, _, rfl⟩ := hpointer hp
        exact hpoints htype hp.2
    · obtain ⟨m₂, m₃, hruns₂, hruns₃, hagree, hpoints, hkept₂⟩ :=
        hyes.join hjoinYes htwins htop₂ hcommon
      refine ⟨m₃, fun i => .ifElseJoin (hruns₁ i) (fun heq => ?_)
        fun _ => ⟨m₂ i, hruns₂ i, hruns₃ i⟩, hagree, fun hp => ?_,
        hkept₁.trans hkept₂ fun _ => Nat.le_refl _⟩
      · exact absurd ((hword true i).trans heq) hzero
      · obtain ⟨_, rfl, _⟩ := hpointer hp
        exact hpoints htype hp.1

/-- Both sides join branches at the same type, which depends on the types of the branches alone. -/
theorem commonType_agrees {ts : List Ty} {t : Bool → Ty} {span : Span} (htwins : Twins w c)
    (h : ∀ i, Yields (commonType ts span) (c i) (t i) (c' i)) :
    c' = c ∧ ∃ t', (t = fun _ => t') ∧ commonType? w.registry ts = some t' := by
  have hcommon : ∀ i, commonType? w.registry ts = some (t i) := by
    intro i
    rw [← htwins.registry i]
    exact (yields_commonType (h i)).1
  refine ⟨funext fun i => (yields_commonType (h i)).2, t true, funext fun i => ?_, hcommon true⟩
  exact Option.some.inj ((hcommon i).symm.trans (hcommon true))

/-- A conditional, from its test and its branches. -/
theorem agrees_conditional {test : Bool → CompileM Address} {yes no : Bool → CompileM Slot}
    {yesSpan noSpan span : Span} {pointsYes pointsNo : Prop} (htest : AgreesWord w test)
    (hyes : Agrees w dest yes pointsYes) (hno : Agrees w dest no pointsNo) :
    Agrees w dest (fun i => conditional (test i) (yes i) (no i) yesSpan noSpan span (dest i))
      (pointsYes ∧ pointsNo) := by
  intro c c' slot hrun htwins hoffered
  simp only [conditional, yields_bind, yields_emit, yields_emitGoto, yields_emitLabel,
    yields_pure] at hrun
  choose o c₁ ho d c₂ hd j c₃ hj a c₄ ha v₁ c₅ hc₅ yv c₆ hy v₂ c₇ hc₇ v₃ c₈ hc₈ nv c₉ hn t c₁₀ ht
    dst c₁₁ hres v₄ c₁₂ hjn v₅ c₁₃ hc₁₃ v₆ c₁₄ hc₁₄ v₇ c₁₅ hjy v₈ c₁₆ hc₁₆ hslot hc' using hrun
  obtain rfl : c₅ = fun i => (c₄ i).add [.ifFalse (a i) (o i)] := funext hc₅
  obtain rfl : c₇ = fun i => (c₆ i).add [.goto (j i)] := funext hc₇
  obtain rfl : c₈ = fun i => ((c₆ i).add [.goto (j i)]).add [.label (o i)] := funext hc₈
  obtain rfl : c₁₃ = fun i => (c₁₂ i).add [.goto (d i)] := funext hc₁₃
  obtain rfl : c₁₄ = fun i => ((c₁₂ i).add [.goto (d i)]).add [.label (j i)] := funext hc₁₄
  obtain rfl : c' = fun i => (c₁₅ i).add [.label (d i)] := funext fun i => (hc' i).trans (hc₁₆ i)
  obtain rfl : slot = fun i => ⟨t i, dst i⟩ := funext hslot
  obtain ⟨htwins₁, hgrows₁⟩ := htwins.freshLabel ho
  obtain ⟨htwins₂, hgrows₂⟩ := htwins₁.freshLabel hd
  obtain ⟨htwins₃, hgrows₃⟩ := htwins₂.freshLabel hj
  have hmade : ∀ i, Grows (c i) (c₃ i) [] :=
    fun i => (hgrows₁ i).trans ((hgrows₂ i).trans (hgrows₃ i))
  obtain ⟨test, htest⟩ := htest ha htwins₃
  have htwins₅ := (htest.twins htwins₃).emit fun i => .ifFalse (a i) (o i)
  have hoffered₅ : Offered w (fun i => (c₄ i).add [.ifFalse (a i) (o i)]) dest :=
    hoffered.mono fun i => ((hmade i).trans (htest.grows i)).top
  obtain ⟨yes, tyes, hyes⟩ := hyes hy htwins₅ hoffered₅
  have htwins₈ := ((hyes.twins htwins₅).emit fun i => .goto (j i)).emit fun i => .label (o i)
  have hoffered₈ : Offered w (fun i => ((c₆ i).add [.goto (j i)]).add [.label (o i)]) dest :=
    hoffered₅.mono hyes.top_le
  obtain ⟨no, tno, hno⟩ := hno hn htwins₈ hoffered₈
  have htwins₉ := hno.twins htwins₈
  have hoffered₉ := hoffered₈.mono hno.top_le
  simp only [hyes.type, hno.type] at ht
  -- The result gets its place behind both branches, so the joins do not overwrite a value.
  obtain ⟨rfl, t, rfl, hcommon⟩ := commonType_agrees htwins₉ ht
  have hreceives : ∀ i, Receives w.registry (dest i) (c₁₀ i) (c₁₁ i) ⟨t, dst i⟩ := fun i =>
    receives_resultAddress (htwins₉.registry i) (hoffered₉.below i) (hres i)
  have htwins₁₁ := htwins₉.step (fun i => (hreceives i).grows) fun i => (hreceives i).literals
  have htop₁₀ : ∀ i, tops c i ≤ tops c₁₀ i := fun i =>
    Nat.le_trans ((hmade i).trans (htest.grows i)).top
      (Nat.le_trans (hyes.grows i).top (hno.grows i).top)
  have hresult : ∀ i, (⟨t, dst i⟩ : Slot).beyond (tops c i) ∨ ⟨t, dst i⟩ ∈ dest i := fun i =>
    (hreceives i).writable.imp_left fun h => h.mono (htop₁₀ i)
  have htop₁₁ : ∀ i, tops c i ≤ tops c₁₁ i := fun i =>
    Nat.le_trans (htop₁₀ i) (hreceives i).grows.top
  obtain ⟨joinNo, hjoinNo⟩ := joins_joinInto nv (fun i => ⟨t, dst i⟩) htwins₁₁ hno.type
    (fun _ => rfl) hresult htop₁₁ (fun i => hno.apart htwins₈ hoffered₈ i (hreceives i).writable) hjn
  have htwins₁₄ := ((hjoinNo.twins htwins₁₁).emit fun i => .goto (d i)).emit fun i => .label (j i)
  obtain ⟨joinYes, hjoinYes⟩ := joins_joinInto yv (fun i => ⟨t, dst i⟩) htwins₁₄ hyes.type
    (fun _ => rfl) hresult (fun i => Nat.le_trans (htop₁₁ i) (hjoinNo.grows i).top)
    (fun i => hyes.apart htwins₅ hoffered₅ i
      ((hreceives i).writable.imp_left fun h => h.mono (hno.top_le i))) hjy
  refine ⟨_, t, computes_ifElseJoin htwins hmade htest hyes hno (fun _ => rfl) hreceives hjoinNo
    hjoinYes ?_⟩
  -- Two pointers have a common type only if they are of the same type.
  rintro ⟨hpyes, hpno⟩
  obtain ⟨hpointer, hall⟩ := eq_of_commonType? (by
    simpa using ⟨hyes.pointer hpyes, hno.pointer hpno⟩) hcommon
  exact ⟨hpointer, hall tyes (by simp), hall tno (by simp)⟩

end ClassLang.Elision
