import ClassLang.Proofs.Safety.Judgement

/-!
# Steps that tidy up after others

A block, a scope or a probe runs a step elsewhere and tidies up after it, also when it failed. What
such a step does is told by what its body did: the outcome is that of the body, the instructions are
those of the body, and there is one function for what is left of the state. All that is asked of the
body is that it closed the blocks that it opened.
-/

namespace ClassLang

namespace CompileM

variable {α : Type} {c c₁ : Compilation} {body : CompileM α} {o : Except CompileError α}

/-! ## Blocks -/

/-- A block is opened. -/
def opened (c : Compilation) : Compilation := { c with frame := c.frame.pushBlock.2 }

/-- What is left after a block is closed. -/
def closed (c c₁ : Compilation) : Compilation :=
  { c₁ with frame := { c₁.frame with blocks := c₁.frame.blocks.tail, top := c.frame.top } }

theorem yields_pushBlock (c : Compilation) :
    Yields pushBlock c c.frame.pushBlock.1 (opened c) := yields_updateFrame.mpr ⟨rfl, rfl⟩

theorem yields_restore_closed (c c₁ : Compilation)
    (h : c₁.frame.depth = c.frame.depth + 1) :
    Yields (restore c.frame.pushBlock.1) c₁ () (closed c c₁) := by
  rw [yields_restore]
  refine ⟨_, ?_, rfl⟩
  unfold Frame.restore
  exact if_pos h

theorem depth_closed (h : c₁.frame.depth = c.frame.depth + 1) :
    (closed c c₁).frame.depth = c.frame.depth := by
  show c₁.frame.blocks.tail.length = c.frame.blocks.length
  have h : c₁.frame.blocks.length = c.frame.blocks.length + 1 := h
  rw [List.length_tail]
  omega

theorem run_withTemps (hrun : body.run.run (opened c) = (o, c₁))
    (hdepth : c₁.frame.depth = c.frame.depth + 1) :
    (withTemps body).run.run c = (o, closed c c₁) := by
  unfold withTemps
  rw [run_of_yields (yields_pushBlock c), run_of_yields (yields_attempt.mpr hrun),
    run_of_yields (yields_restore_closed c c₁ hdepth)]
  rfl

theorem emissions_withTemps (body : CompileM α) (c : Compilation) :
    emissions (withTemps body) c = emissions body (opened c) := by
  unfold withTemps
  rw [emissions_of_yields (yields_pushBlock c), emissions_of_yields (yields_attempt.mpr rfl),
    emissions_attempt, Mute.bind (mute_restore _) fun _ => mute_conclude _, List.append_nil]
  rfl

/-! ## Probes -/

/-- A block is opened whose warnings are dropped. -/
def mutedIn (c : Compilation) : Compilation :=
  { c with frame := c.frame.pushBlock.2, muted := c.muted + 1 }

/-- What is left after a probe. -/
def forgotten (c c₁ : Compilation) : Compilation :=
  closed c { c₁ with muted := c₁.muted - 1, frame := c₁.frame.truncate c.frame.code.size }

theorem run_probe (hrun : body.run.run (mutedIn c) = (o, c₁))
    (hdepth : c₁.frame.depth = c.frame.depth + 1) :
    (probe body).run.run c = (o, forgotten c c₁) := by
  have hmute : Yields (modify fun s => { s with muted := s.muted + 1 }) (opened c) ⟨⟩
      (mutedIn c) := yields_modify.mpr rfl
  unfold probe
  rw [run_of_yields (yields_pushBlock c), run_of_yields (yields_get.mpr ⟨rfl, rfl⟩),
    run_of_yields hmute, run_of_yields (yields_attempt.mpr hrun),
    run_of_yields (a := ⟨⟩) (yields_modify.mpr rfl),
    run_of_yields (a := ()) (yields_modifyFrame.mpr rfl)]
  exact run_of_yields (f := fun _ => conclude o) (yields_restore_closed c { c₁ with
    muted := c₁.muted - 1, frame := c₁.frame.truncate c.frame.code.size } hdepth)

theorem emissions_probe (body : CompileM α) (c : Compilation) :
    emissions (probe body) c = emissions body (mutedIn c) := by
  -- What follows the body only tidies up.
  have hquiet : ∀ (k : Checkpoint) (n : Nat) (r : Except CompileError α), Mute (do
      modify fun s => { s with muted := s.muted - 1 }
      modifyFrame (·.truncate n)
      restore k
      conclude r) :=
    fun k n r => (mute_modify _).bind fun _ => (mute_modify _).bind fun _ =>
      (mute_restore k).bind fun _ => mute_conclude r
  unfold probe
  rw [emissions_of_yields (yields_pushBlock c), emissions_of_yields (yields_get.mpr ⟨rfl, rfl⟩),
    emissions_of_yields (a := ⟨⟩) (yields_modify.mpr rfl),
    emissions_of_yields (yields_attempt.mpr rfl), emissions_attempt, hquiet, List.append_nil]
  rfl

/-! ## Scopes -/

/-- A scope is opened with a block of its own. -/
def inside (kind : ScopeKind) (c : Compilation) : Compilation :=
  { c with scopes := c.scopes.enter kind, frame := c.frame.pushBlock.2 }

/-- What is left when a scope is left. -/
def left (c c₁ : Compilation) : Compilation :=
  { closed c c₁ with scopes := c₁.scopes.truncate c.scopes.depth }

theorem yields_inside (kind : ScopeKind) (c : Compilation) :
    Yields pushBlock { c with scopes := c.scopes.enter kind } c.frame.pushBlock.1 (inside kind c) :=
  yields_updateFrame.mpr ⟨rfl, rfl⟩

theorem run_inScope {kind : ScopeKind} (hrun : body.run.run (inside kind c) = (o, c₁))
    (hdepth : c₁.frame.depth = c.frame.depth + 1) :
    (inScope kind body).run.run c = (o, left c c₁) := by
  unfold inScope
  rw [run_of_yields (yields_get.mpr ⟨rfl, rfl⟩),
    run_of_yields (a := ()) (yields_modifyScopes.mpr rfl), run_of_yields (yields_inside kind c),
    run_of_yields (yields_attempt.mpr hrun), run_of_yields (yields_restore_closed c c₁ hdepth)]
  exact run_of_yields (a := ()) (f := fun _ => conclude o) (yields_modifyScopes.mpr rfl)

theorem emissions_inScope (kind : ScopeKind) (body : CompileM α) (c : Compilation) :
    emissions (inScope kind body) c = emissions body (inside kind c) := by
  have hquiet : ∀ (k : Checkpoint) (n : Nat) (r : Except CompileError α), Mute (do
      restore k
      modifyScopes (·.truncate n)
      conclude r) :=
    fun k n r => (mute_restore k).bind fun _ => (mute_modify _).bind fun _ => mute_conclude r
  unfold inScope
  rw [emissions_of_yields (yields_get.mpr ⟨rfl, rfl⟩),
    emissions_of_yields (a := ()) (yields_modifyScopes.mpr rfl),
    emissions_of_yields (yields_inside kind c), emissions_of_yields (yields_attempt.mpr rfl),
    emissions_attempt, hquiet, List.append_nil]
  rfl

/-! ## Registers -/

/-- A step takes the next free register and gives it back if it succeeds. -/
theorem run_withRegister {body : Register → CompileM α} {reg : Register} {rest : List Register}
    (hregs : c.frame.freeRegisters = reg :: rest) :
    (withRegister body).run.run c =
      match (body reg).run.run { c with frame := { c.frame with freeRegisters := rest } } with
      | (.ok a, c₁) => (.ok a, { c₁ with frame := c₁.frame.release reg })
      | (.error e, c₁) => (.error e, c₁) := by
  have hacquire : c.frame.acquire = .ok (reg, { c.frame with freeRegisters := rest }) := by
    unfold Frame.acquire
    rw [hregs]
  have hstep : Yields (ofInternal c.frame.acquire) c
      (reg, { c.frame with freeRegisters := rest }) c := by
    rw [hacquire]
    exact yields_conclude.mpr ⟨rfl, rfl⟩
  unfold withRegister
  rw [run_of_yields (yields_get.mpr ⟨rfl, rfl⟩), run_of_yields hstep]
  dsimp only
  rw [run_of_yields (a := ()) (yields_modifyFrame.mpr rfl), run_bind]
  rfl

theorem run_withRegister_nil {body : Register → CompileM α} (hregs : c.frame.freeRegisters = []) :
    (withRegister body).run.run c =
      (.error (.internal (.registersExhausted c.frame.registerCount)), c) := by
  have hacquire : c.frame.acquire = .error (.registersExhausted c.frame.registerCount) := by
    unfold Frame.acquire
    rw [hregs]
  unfold withRegister ofInternal
  rw [run_of_yields (yields_get.mpr ⟨rfl, rfl⟩), hacquire]
  rfl

end CompileM

end ClassLang
