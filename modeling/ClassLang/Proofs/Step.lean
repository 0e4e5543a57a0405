import ClassLang.Lowering.State

/-!
# What a step of a compilation did

A step runs from one state to another and may fail on the way. Most of what is proved about
compilation is about steps that succeed, and a successful step is taken apart in the order in
which it was put together: `Yields m c a c'` says that `m` took `c` to `c'` with the outcome
`a`, and there is one equivalence for every way of building a step.

What a step leaves alone does not depend on its success. `Keeps f m` says that `m` leaves the
part `f` of the state as it was, also when it fails.
-/

namespace ClassLang

/-! ## Checks that succeed -/

@[simp]
theorem except_bind_eq_ok {ε α β : Type} {x : Except ε α} {f : α → Except ε β} {b : β} :
    x >>= f = .ok b ↔ ∃ a, x = .ok a ∧ f a = .ok b := by
  constructor
  · intro h
    cases x with
    | error e => cases h
    | ok a => exact ⟨a, rfl, h⟩
  · rintro ⟨a, rfl, h⟩
    exact h

/-- What every member's check keeps, the whole list keeps. -/
theorem except_foldlM_induction {ε α β : Type} {f : β → α → Except ε β} (P : β → Prop) :
    ∀ {xs : List α} {b b' : β}, (∀ x ∈ xs, ∀ b b', P b → f b x = .ok b' → P b') → P b →
      xs.foldlM f b = .ok b' → P b'
  | [], b, b', _, hb, h => by
    injection h with h
    exact h ▸ hb
  | x :: xs, b, b', hf, hb, h => by
    obtain ⟨b₁, hfirst, hrest⟩ := except_bind_eq_ok.mp h
    obtain ⟨hx, hxs⟩ := List.forall_mem_cons.mp hf
    exact except_foldlM_induction P hxs (hx _ _ hb hfirst) hrest

@[simp]
theorem except_pure_eq_ok {ε α : Type} {a b : α} : (pure a : Except ε α) = .ok b ↔ b = a := by
  constructor
  · intro h
    injection h with h
    exact h.symm
  · rintro rfl
    rfl

@[simp]
theorem except_throw_eq_ok {ε α : Type} {e : ε} {b : α} :
    (throw e : Except ε α) = .ok b ↔ False := by
  constructor
  · intro h
    cases h
  · exact False.elim

namespace CompileM

variable {α β γ : Type}

/-! ## Steps that succeed -/

/-- The step `m` takes `c` to `c'` and succeeds with `a`. -/
def Yields (m : CompileM α) (c : Compilation) (a : α) (c' : Compilation) : Prop :=
  m.run.run c = (.ok a, c')

/-- A step has one outcome. -/
theorem Yields.unique {m : CompileM α} {c c₁ c₂ : Compilation} {a₁ a₂ : α}
    (h₁ : Yields m c a₁ c₁) (h₂ : Yields m c a₂ c₂) : a₁ = a₂ ∧ c₁ = c₂ := by
  unfold Yields at h₁ h₂
  rw [h₁] at h₂
  injection h₂ with ha hc
  injection ha with ha
  exact ⟨ha, hc⟩

/-- A step that succeeds yields. -/
theorem exists_yields_of_isOk {m : CompileM α} {c : Compilation}
    (h : (m.run.run c).1.isOk = true) : ∃ a, Yields m c a (m.run.run c).2 := by
  unfold Yields
  generalize m.run.run c = outcome at h ⊢
  obtain ⟨_ | a, c'⟩ := outcome
  · cases h
  · exact ⟨a, rfl⟩

/-- What is checked of the result of a computation that succeeds. -/
theorem exists_ok_of_any {ε : Type} {x : Except ε α} {check : α → Bool}
    (h : x.toOption.any check = true) : ∃ a, x = .ok a ∧ check a = true := by
  cases x with
  | error e => cases h
  | ok a => exact ⟨a, rfl, h⟩

theorem yields_of_isOk {m : CompileM Unit} {c : Compilation} (h : (m.run.run c).1.isOk = true) :
    Yields m c () (m.run.run c).2 := (exists_yields_of_isOk h).elim fun _ hm => hm

@[simp]
theorem yields_pure {a b : α} {c c' : Compilation} :
    Yields (pure a) c b c' ↔ b = a ∧ c' = c := by
  constructor
  · intro h
    injection h with h₁ h₂
    injection h₁ with h₁
    exact ⟨h₁.symm, h₂.symm⟩
  · rintro ⟨rfl, rfl⟩
    rfl

@[simp]
theorem yields_bind {m : CompileM α} {f : α → CompileM β} {c c' : Compilation} {b : β} :
    Yields (m >>= f) c b c' ↔ ∃ a c₁, Yields m c a c₁ ∧ Yields (f a) c₁ b c' := by
  have hrun : (m >>= f).run.run c =
      match m.run.run c with
      | (.ok a, c₁) => (f a).run.run c₁
      | (.error e, c₁) => (.error e, c₁) := by
    show (ExceptT.bindCont f (m.run.run c).1).run (m.run.run c).2 = _
    rcases m.run.run c with ⟨_ | _, _⟩ <;> rfl
  unfold Yields
  rw [hrun]
  rcases hm : m.run.run c with ⟨e | a, c₁⟩
  · constructor
    · intro h
      injection h with h _
      cases h
    · rintro ⟨_, _, h, _⟩
      injection h with h _
      cases h
  · constructor
    · intro h
      exact ⟨a, c₁, rfl, h⟩
    · rintro ⟨a', c₁', h, h'⟩
      injection h with h₁ h₂
      injection h₁ with h₁
      subst h₁ h₂
      exact h'

@[simp]
theorem yields_map {m : CompileM α} {f : α → β} {c c' : Compilation} {b : β} :
    Yields (f <$> m) c b c' ↔ ∃ a, Yields m c a c' ∧ b = f a := by
  rw [← bind_pure_comp]
  simp only [yields_bind, yields_pure]
  constructor
  · rintro ⟨a, c₁, h, rfl, rfl⟩
    exact ⟨a, h, rfl⟩
  · rintro ⟨a, h, rfl⟩
    exact ⟨a, c', h, rfl, rfl⟩

@[simp]
theorem yields_throw {e : CompileError} {c c' : Compilation} {a : α} :
    Yields (throw e) c a c' ↔ False := by
  constructor
  · intro h
    injection h with h _
    cases h
  · exact False.elim

@[simp]
theorem yields_fail {cause : Cause} {span : Span} {c c' : Compilation} {a : α} :
    Yields (fail cause span) c a c' ↔ False := yields_throw

@[simp]
theorem yields_get {c c' s : Compilation} : Yields get c s c' ↔ s = c ∧ c' = c := yields_pure

@[simp]
theorem yields_set {s c c' : Compilation} {u : PUnit} :
    Yields (set s) c u c' ↔ c' = s := by
  constructor
  · intro h
    injection h with _ h
    exact h.symm
  · rintro rfl
    rfl

@[simp]
theorem yields_modify {f : Compilation → Compilation} {c c' : Compilation} {u : PUnit} :
    Yields (modify f) c u c' ↔ c' = f c := by
  constructor
  · intro h
    injection h with _ h
    exact h.symm
  · rintro rfl
    rfl

@[simp]
theorem yields_modifyGet {f : Compilation → α × Compilation} {c c' : Compilation} {a : α} :
    Yields (modifyGet f) c a c' ↔ f c = (a, c') := by
  constructor
  · intro h
    injection h with h₁ h₂
    injection h₁ with h₁
    exact Prod.ext h₁ h₂
  · intro h
    show (Except.ok (f c).1, (f c).2) = _
    rw [h]

@[simp]
theorem yields_conclude {r : Except CompileError α} {c c' : Compilation} {a : α} :
    Yields (conclude r) c a c' ↔ r = .ok a ∧ c' = c := by
  constructor
  · intro h
    injection h with h₁ h₂
    exact ⟨h₁, h₂.symm⟩
  · rintro ⟨rfl, rfl⟩
    rfl

/-- An attempt always succeeds, with the outcome of the step. -/
@[simp]
theorem yields_attempt {m : CompileM α} {c c' : Compilation} {r : Except CompileError α} :
    Yields (attempt m) c r c' ↔ m.run.run c = (r, c') := by
  constructor
  · intro h
    injection h with h₁ h₂
    injection h₁ with h₁
    exact Prod.ext h₁ h₂
  · intro h
    show (Except.ok (m.run.run c).1, (m.run.run c).2) = _
    rw [h]

/-- A step that is attempted and then concluded succeeded. -/
theorem yields_of_attempt {m : CompileM α} {c c₁ : Compilation} {r : Except CompileError α}
    {a : α} (h : m.run.run c = (r, c₁)) (hr : r = .ok a) : Yields m c a c₁ := by
  subst hr
  exact h

/-! ## Parts of the state -/

@[simp]
theorem yields_fromRegistry {f : Registry → α} {c c' : Compilation} {a : α} :
    Yields (fromRegistry f) c a c' ↔ a = f c.registry ∧ c' = c := by
  simp [fromRegistry, and_comm]

@[simp]
theorem yields_askRegistry {f : Registry → Except CompileError α} {c c' : Compilation} {a : α} :
    Yields (askRegistry f) c a c' ↔ f c.registry = .ok a ∧ c' = c := by
  simp [askRegistry, and_assoc, and_comm]

@[simp]
theorem yields_modifyRegistry {f : Registry → Registry} {c c' : Compilation} {u : Unit} :
    Yields (modifyRegistry f) c u c' ↔ c' = { c with registry := f c.registry } := by
  simp [modifyRegistry]

/-- A class that is changed is registered. -/
@[simp]
theorem yields_modifyClass {hash : TypeHash} {f : Class → Class} {c c' : Compilation} {u : Unit} :
    Yields (modifyClass hash f) c u c' ↔ (∃ k, c.registry.getClass hash = .ok k) ∧
      c' = { c with registry := c.registry.modifyClass hash f } := by
  simp [modifyClass, and_assoc]

@[simp]
theorem yields_updateRegistry {f : Registry → α × Registry} {c c' : Compilation} {a : α} :
    Yields (updateRegistry f) c a c' ↔
      a = (f c.registry).1 ∧ c' = { c with registry := (f c.registry).2 } := by
  simp [updateRegistry, eq_comm]

@[simp]
theorem yields_typeName {t : Ty} {c c' : Compilation} {s : String} :
    Yields (typeName t) c s c' ↔ s = c.registry.typeName t ∧ c' = c := yields_fromRegistry

@[simp]
theorem yields_lengthOf {t : Ty} {c c' : Compilation} {n : Nat} :
    Yields (lengthOf t) c n c' ↔ n = c.registry.length t ∧ c' = c := yields_fromRegistry

@[simp]
theorem yields_pointerSize {c c' : Compilation} {n : Nat} :
    Yields pointerSize c n c' ↔ n = c.registry.pointerSize ∧ c' = c := yields_fromRegistry

@[simp]
theorem yields_modifyFrame {f : Frame → Frame} {c c' : Compilation} {u : Unit} :
    Yields (modifyFrame f) c u c' ↔ c' = { c with frame := f c.frame } := by
  simp [modifyFrame]

@[simp]
theorem yields_updateFrame {f : Frame → α × Frame} {c c' : Compilation} {a : α} :
    Yields (updateFrame f) c a c' ↔
      a = (f c.frame).1 ∧ c' = { c with frame := (f c.frame).2 } := by
  simp [updateFrame, eq_comm]

@[simp]
theorem yields_modifyScopes {f : Scopes → Scopes} {c c' : Compilation} {u : Unit} :
    Yields (modifyScopes f) c u c' ↔ c' = { c with scopes := f c.scopes } := by
  simp [modifyScopes]

theorem yields_updateScopes {f : Scopes → Except CompileError Scopes} {c c' : Compilation}
    {u : Unit} :
    Yields (updateScopes f) c u c' ↔
      ∃ s, f c.scopes = .ok s ∧ c' = { c with scopes := s } := by
  simp [updateScopes, and_assoc]

@[simp]
theorem yields_define {name : String} {d : Meaning} {span : Span} {c c' : Compilation}
    {u : Unit} :
    Yields (define name d span) c u c' ↔
      ∃ s, c.scopes.define name d span = .ok s ∧ c' = { c with scopes := s } :=
  yields_updateScopes

/-! ## Steps inside scopes, blocks and modules -/

/-- A step in a module ran with the scope of the module in front. This scope is stored again, and
what the step made of the rest of the state is kept. -/
theorem yields_inModule {path : String} {body : CompileM α} {c c' : Compilation} {a : α}
    (h : Yields (inModule path body) c a c') :
    ∃ c₁ scope scopes,
      Yields body { c with
        scopes := c.scopes.push ((c.moduleScopes.find? path).getD (.opened (.module path)))
        path := path } a c₁ ∧
      (c₁.scopes.truncate (c.scopes.depth + 1)).pop = .ok (scope, scopes) ∧
      c' = { c₁ with
        scopes := scopes
        moduleScopes := c₁.moduleScopes.insert path scope
        path := c.path } := by
  simp only [inModule, yields_bind, yields_get, yields_set, yields_attempt, and_assoc,
    exists_and_left, exists_eq_left] at h
  obtain ⟨_, r, c₁, hbody, h⟩ := h
  cases r with
  | error e =>
    simp at h
  | ok b =>
    simp only [yields_bind, yields_modifyScopes, yields_get, yields_conclude, yields_modify,
      and_assoc, exists_and_left, exists_eq_left] at h
    obtain ⟨_, ⟨scope, scopes⟩, hpop, hb, _, rfl⟩ := h
    injection hb with hb
    subst hb
    exact ⟨c₁, scope, scopes, hbody, hpop, rfl⟩

/-- Closing a block that a step opened. -/
theorem yields_restore {k : Checkpoint} {c c' : Compilation} {u : Unit} :
    Yields (restore k) c u c' ↔
      ∃ frame, c.frame.restore k = .ok frame ∧ c' = { c with frame := frame } := by
  simp only [restore, ofInternal, yields_bind, yields_get, yields_conclude,
    yields_modifyFrame, and_assoc, exists_and_left, exists_eq_left]
  cases c.frame.restore k with
  | ok frame =>
    show (∃ frame', Except.ok (ε := CompileError) frame = .ok frame' ∧ _) ↔ _
    simp
  | error fault =>
    show (∃ frame, Except.error (CompileError.internal fault) = .ok frame ∧ _) ↔ _
    simp

/-- A step whose temporaries are given back ran with a block opened. -/
theorem yields_withTemps {body : CompileM α} {c c' : Compilation} {a : α}
    (h : Yields (withTemps body) c a c') :
    ∃ c₁ frame,
      Yields body { c with frame := c.frame.pushBlock.2 } a c₁ ∧
      c₁.frame.restore c.frame.pushBlock.1 = .ok frame ∧
      c' = { c₁ with frame := frame } := by
  simp only [withTemps, pushBlock, yields_bind, yields_updateFrame, yields_attempt,
    yields_restore, yields_conclude, and_assoc, exists_and_left, exists_eq_left] at h
  obtain ⟨r, c₁, hbody, _, _, ⟨frame, hframe, rfl⟩, hr, rfl⟩ := h
  exact ⟨c₁, frame, yields_of_attempt hbody hr, hframe, rfl⟩

/-- A step in a scope of its own ran with that scope in front and a block opened. -/
theorem yields_inScope {kind : ScopeKind} {body : CompileM α} {c c' : Compilation} {a : α}
    (h : Yields (inScope kind body) c a c') :
    ∃ c₁ frame,
      Yields body { c with scopes := c.scopes.enter kind, frame := c.frame.pushBlock.2 } a c₁ ∧
      c₁.frame.restore c.frame.pushBlock.1 = .ok frame ∧
      c' = { c₁ with frame := frame, scopes := c₁.scopes.truncate c.scopes.depth } := by
  simp only [inScope, pushBlock, yields_bind, yields_get, yields_modifyScopes,
    yields_updateFrame, yields_attempt, yields_restore, yields_conclude, and_assoc,
    exists_and_left, exists_eq_left] at h
  obtain ⟨_, r, c₁, hbody, _, _, ⟨frame, hframe, rfl⟩, hr, _, rfl⟩ := h
  exact ⟨c₁, frame, yields_of_attempt hbody hr, hframe, rfl⟩

/-! ## Steps over lists -/

@[simp]
theorem yields_forM_nil {f : α → CompileM PUnit} {c c' : Compilation} {u : PUnit} :
    Yields (([] : List α).forM f) c u c' ↔ c' = c := by
  simp [List.forM]

@[simp]
theorem yields_forM_cons {f : α → CompileM PUnit} {x : α} {xs : List α} {c c' : Compilation}
    {u : PUnit} :
    Yields ((x :: xs).forM f) c u c' ↔
      ∃ v c₁, Yields (f x) c v c₁ ∧ Yields (xs.forM f) c₁ u c' := by
  simp [List.forM]

theorem yields_forM_append {f : α → CompileM PUnit} {xs ys : List α} {c c' : Compilation}
    {u : PUnit} :
    Yields ((xs ++ ys).forM f) c u c' ↔
      ∃ v c₁, Yields (xs.forM f) c v c₁ ∧ Yields (ys.forM f) c₁ u c' := by
  rw [List.forM_eq_forM, List.forM_append]
  exact yields_bind

/-- What every member's step keeps, the whole list keeps. -/
theorem forM_induction {f : α → CompileM PUnit} (P : Compilation → Prop) {xs : List α}
    (hf : ∀ x ∈ xs, ∀ c u c', P c → Yields (f x) c u c' → P c') :
    ∀ {c c' : Compilation} {u : PUnit}, P c → Yields (xs.forM f) c u c' → P c' := by
  induction xs with
  | nil =>
    intro c c' u hc h
    rw [yields_forM_nil] at h
    exact h ▸ hc
  | cons x xs ih =>
    intro c c' u hc h
    rw [yields_forM_cons] at h
    obtain ⟨v, c₁, h₁, h₂⟩ := h
    exact ih (fun y hy => hf y (List.mem_cons_of_mem _ hy))
      (hf x (List.mem_cons_self ..) c v c₁ hc h₁) h₂

@[simp]
theorem yields_mapM_nil {f : α → CompileM β} {c c' : Compilation} {bs : List β} :
    Yields (([] : List α).mapM f) c bs c' ↔ bs = [] ∧ c' = c := by
  simp [List.mapM_nil]

@[simp]
theorem yields_mapM_cons {f : α → CompileM β} {x : α} {xs : List α} {c c' : Compilation}
    {bs : List β} :
    Yields ((x :: xs).mapM f) c bs c' ↔
      ∃ b c₁ rest, Yields (f x) c b c₁ ∧ Yields (xs.mapM f) c₁ rest c' ∧ bs = b :: rest := by
  simp only [List.mapM_cons, yields_bind, yields_pure]
  constructor
  · rintro ⟨b, c₁, h₁, rest, c₂, h₂, rfl, rfl⟩
    exact ⟨b, c₁, rest, h₁, h₂, rfl⟩
  · rintro ⟨b, c₁, rest, h₁, h₂, rfl⟩
    exact ⟨b, c₁, h₁, rest, c', h₂, rfl, rfl⟩

/-- What every member's step keeps, the whole list keeps, and what each step says about its outcome
while this holds is so for all outcomes. -/
theorem mapM_induction {f : α → CompileM β} (P : Compilation → Prop) {Q : β → Prop} {xs : List α}
    (hf : ∀ x ∈ xs, ∀ c b c', P c → Yields (f x) c b c' → P c' ∧ Q b) :
    ∀ {c c' : Compilation} {bs : List β}, P c → Yields (xs.mapM f) c bs c' →
      P c' ∧ ∀ b ∈ bs, Q b := by
  induction xs with
  | nil =>
    intro c c' bs hc h
    obtain ⟨rfl, rfl⟩ := yields_mapM_nil.mp h
    exact ⟨hc, List.forall_mem_nil _⟩
  | cons x xs ih =>
    intro c c' bs hc h
    obtain ⟨b, c₁, rest, hx, hxs, rfl⟩ := yields_mapM_cons.mp h
    obtain ⟨hc₁, hb⟩ := hf x List.mem_cons_self c b c₁ hc hx
    obtain ⟨hc', hrest⟩ := ih (fun y hy => hf y (List.mem_cons_of_mem _ hy)) hc₁ hxs
    exact ⟨hc', List.forall_mem_cons.mpr ⟨hb, hrest⟩⟩

/-- What holds of the outcome of each step holds of all outcomes. -/
theorem yields_mapM_forall {f : α → CompileM β} {P : β → Prop} {xs : List α}
    (hf : ∀ x ∈ xs, ∀ c b c', Yields (f x) c b c' → P b) {c c' : Compilation} {bs : List β}
    (h : Yields (xs.mapM f) c bs c') : ∀ b ∈ bs, P b :=
  (mapM_induction (fun _ => True) (fun x hx c b c' _ hb => ⟨trivial, hf x hx c b c' hb⟩) trivial h).2

/-- What each outcome says about its member, all outcomes say about the list. -/
theorem yields_mapM_map {γ : Type} {f : α → CompileM β} {g : β → γ} {k : α → γ} {xs : List α}
    (hf : ∀ {x c b c'}, Yields (f x) c b c' → g b = k x) :
    ∀ {c c' : Compilation} {bs : List β}, Yields (xs.mapM f) c bs c' → bs.map g = xs.map k := by
  induction xs with
  | nil =>
    intro c c' bs h
    rw [(yields_mapM_nil.mp h).1]
    rfl
  | cons x xs ih =>
    intro c c' bs h
    obtain ⟨b, c₁, rest, hx, hxs, rfl⟩ := yields_mapM_cons.mp h
    rw [List.map_cons, List.map_cons, hf hx, ih hxs]

theorem yields_mapM_length {f : α → CompileM β} {xs : List α} {c c' : Compilation} {bs : List β}
    (h : Yields (xs.mapM f) c bs c') : bs.length = xs.length := by
  have hunits := yields_mapM_map (g := fun _ => ()) (k := fun _ => ()) (fun _ => rfl) h
  simpa using congrArg List.length hunits

theorem yields_foldlM_cons {f : β → α → CompileM β} {b : β} {x : α} {xs : List α}
    {c c' : Compilation} {b' : β} :
    Yields ((x :: xs).foldlM f b) c b' c' ↔
      ∃ b₁ c₁, Yields (f b x) c b₁ c₁ ∧ Yields (xs.foldlM f b₁) c₁ b' c' := by
  rw [List.foldlM_cons]
  exact yields_bind

/-! ## What steps leave alone -/

/-- The step leaves the part `f` of the state as it was, whether it succeeds or fails. -/
class Keeps (f : Compilation → γ) (m : CompileM α) : Prop where
  eq : ∀ c, f (m.run.run c).2 = f c

theorem Yields.keeps {f : Compilation → γ} {m : CompileM α} [hm : Keeps f m]
    {c c' : Compilation} {a : α} (h : Yields m c a c') : f c' = f c := by
  have := hm.eq c
  rw [h] at this
  exact this

section Keeps

variable {f : Compilation → γ}

instance keeps_pure (a : α) : Keeps f (pure a : CompileM α) := ⟨fun _ => rfl⟩

instance keeps_throw (e : CompileError) : Keeps f (throw e : CompileM α) := ⟨fun _ => rfl⟩

instance keeps_fail (cause : Cause) (span : Span) : Keeps f (fail cause span : CompileM α) :=
  ⟨fun _ => rfl⟩

instance keeps_get : Keeps f (get : CompileM Compilation) := ⟨fun _ => rfl⟩

instance keeps_conclude (r : Except CompileError α) : Keeps f (conclude r) := ⟨fun _ => rfl⟩

instance keeps_attempt (m : CompileM α) [hm : Keeps f m] : Keeps f (attempt m) :=
  ⟨fun c => hm.eq c⟩

instance keeps_bind (m : CompileM α) (g : α → CompileM β) [hm : Keeps f m]
    [hg : ∀ a, Keeps f (g a)] : Keeps f (m >>= g) where
  eq c := by
    show f ((ExceptT.bindCont g (m.run.run c).1).run (m.run.run c).2).2 = f c
    rcases hc : m.run.run c with ⟨e | a, c₁⟩
    · exact (congrArg (fun q => f q.2) hc).symm.trans (hm.eq c)
    · exact ((hg a).eq c₁).trans ((congrArg (fun q => f q.2) hc).symm.trans (hm.eq c))

/-- For a step that goes on by cases on what came before. -/
theorem Keeps.bind {m : CompileM α} {g : α → CompileM β} [Keeps f m]
    (hg : ∀ a, Keeps f (g a)) : Keeps f (m >>= g) := keeps_bind m g

instance keeps_ite {p : Prop} [Decidable p] (m n : CompileM α) [Keeps f m] [Keeps f n] :
    Keeps f (if p then m else n) := by
  split <;> infer_instance

theorem keeps_modify {g : Compilation → Compilation} (hg : ∀ c, f (g c) = f c) :
    Keeps f (modify g : CompileM PUnit) := ⟨hg⟩

theorem keeps_modifyGet {g : Compilation → α × Compilation} (hg : ∀ c, f (g c).2 = f c) :
    Keeps f (modifyGet g : CompileM α) := ⟨hg⟩

instance keeps_forM (g : α → CompileM PUnit) (xs : List α) [hg : ∀ x, Keeps f (g x)] :
    Keeps f (xs.forM g) := by
  induction xs with
  | nil => exact keeps_pure _
  | cons x xs ih => exact keeps_bind _ _

instance keeps_mapM (g : α → CompileM β) (xs : List α) [hg : ∀ x, Keeps f (g x)] :
    Keeps f (xs.mapM g) := by
  induction xs with
  | nil =>
    rw [List.mapM_nil]
    infer_instance
  | cons x xs ih =>
    rw [List.mapM_cons]
    infer_instance

instance keeps_fromRegistry (g : Registry → α) : Keeps f (fromRegistry g) := by
  unfold fromRegistry
  infer_instance

instance keeps_askRegistry (g : Registry → Except CompileError α) :
    Keeps f (askRegistry g) := by
  unfold askRegistry
  infer_instance

end Keeps

/-! ## Steps that only read -/

/-- The step changes nothing and emits nothing. -/
class Reads (m : CompileM α) : Prop where
  run : ∀ c, ∃ o, m.run c = ((o, c), [])

instance reads_pure (a : α) : Reads (pure a : CompileM α) := ⟨fun _ => ⟨_, rfl⟩⟩

instance reads_throw (e : CompileError) : Reads (throw e : CompileM α) := ⟨fun _ => ⟨_, rfl⟩⟩

instance reads_fail (cause : Cause) (span : Span) : Reads (fail cause span : CompileM α) :=
  ⟨fun _ => ⟨_, rfl⟩⟩

instance reads_get : Reads (get : CompileM Compilation) := ⟨fun _ => ⟨_, rfl⟩⟩

instance reads_conclude (r : Except CompileError α) : Reads (conclude r) := ⟨fun _ => ⟨_, rfl⟩⟩

instance reads_bind (m : CompileM α) (g : α → CompileM β) [hm : Reads m]
    [hg : ∀ a, Reads (g a)] : Reads (m >>= g) where
  run c := by
    obtain ⟨o, ho⟩ := hm.run c
    show ∃ o', (match m.run c with
      | ((r, c₁), l) => match ExceptT.bindCont g r c₁ with
        | (outcome, l') => (outcome, l ++ l')) = ((o', c), [])
    rw [ho]
    cases o with
    | error e => exact ⟨.error e, rfl⟩
    | ok a =>
      obtain ⟨o', ho'⟩ := (hg a).run c
      refine ⟨o', ?_⟩
      show (match (g a).run c with | (outcome, l') => (outcome, [] ++ l')) = _
      rw [ho']
      rfl

/-- For a step that goes on by cases on what came before. -/
instance reads_fromRegistry (g : Registry → α) : Reads (fromRegistry g) := by
  unfold fromRegistry
  infer_instance

instance reads_askRegistry (g : Registry → Except CompileError α) : Reads (askRegistry g) := by
  unfold askRegistry
  infer_instance

theorem Reads.same {m : CompileM α} (hm : Reads m) (c : Compilation) : (m.run.run c).2 = c := by
  obtain ⟨o, ho⟩ := hm.run c
  show (m.run c).1.2 = c
  rw [ho]

instance (priority := low) keeps_of_reads {f : Compilation → γ} (m : CompileM α) [hm : Reads m] :
    Keeps f m := ⟨fun c => congrArg f (hm.same c)⟩

end CompileM

end ClassLang
