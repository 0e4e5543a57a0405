import ClassLang.Proofs.Safety.Access
import ClassLang.Proofs.Step

/-!
# Safe steps

A step is *safe* from a state if, whatever happens, every instruction that it emits fits into the
storage of that moment and is permitted. If the step succeeds, the new state is related to the old
one and the outcome is as promised. If it fails, then with an error that has a position, and with as
many open scopes and blocks as before, so that those around it can be closed.

Safety is proved along the way a step is put together, and a rule for sequences passes on what is
known about the first part. It is relative to how states may change, because a step inside an
expression, a statement and the registration of a program change different parts of the state.
-/

namespace ClassLang

/-- The error is about a position in the program, and no internal fault. -/
def CompileError.isLocated : CompileError → Bool
  | located .. => true
  | internal _ => false

theorem except_bind_eq_error {ε α β : Type} {x : Except ε α} {f : α → Except ε β} {e : ε} :
    x >>= f = .error e ↔ x = .error e ∨ ∃ a, x = .ok a ∧ f a = .error e := by
  cases x with
  | error e' => simp [bind, Except.bind]
  | ok a => simp [bind, Except.bind]

namespace CompileM

variable {α β : Type}

/-! ## Failures and emissions -/

/-- The step `m` takes `c` to `c'` and fails with `e`. -/
def Fails (m : CompileM α) (c : Compilation) (e : CompileError) (c' : Compilation) : Prop :=
  m.run.run c = (.error e, c')

/-- A step that does not succeed fails. -/
theorem exists_fails_of_isOk {m : CompileM α} {c : Compilation}
    (h : (m.run.run c).1.isOk = false) : ∃ e, Fails m c e (m.run.run c).2 := by
  unfold Fails
  generalize m.run.run c = outcome at h ⊢
  obtain ⟨e | _, c'⟩ := outcome
  · exact ⟨e, rfl⟩
  · cases h

/-- The instructions that a step emits. -/
def emissions (m : CompileM α) (c : Compilation) : List Emission := m.run.emissions c

theorem run_bind (m : CompileM α) (f : α → CompileM β) (c : Compilation) :
    (m >>= f).run.run c =
      match m.run.run c with
      | (.ok a, c₁) => (f a).run.run c₁
      | (.error e, c₁) => (.error e, c₁) := by
  show (ExceptT.bindCont f (m.run.run c).1).run (m.run.run c).2 = _
  rcases m.run.run c with ⟨_ | _, _⟩ <;> rfl

theorem emissions_bind (m : CompileM α) (f : α → CompileM β) (c : Compilation) :
    emissions (m >>= f) c = emissions m c ++
      match m.run.run c with
      | (.ok a, c₁) => emissions (f a) c₁
      | (.error _, _) => [] := by
  unfold emissions Action.emissions Action.run
  show (m.run c).2 ++ (ExceptT.bindCont f (m.run c).1.1 (m.run c).1.2).2 = _
  rcases m.run c with ⟨⟨_ | _, c₁⟩, l⟩ <;> rfl

/-- A sequence goes on with its second part where the first one succeeded. -/
theorem run_of_yields {m : CompileM α} {f : α → CompileM β} {c c₁ : Compilation} {a : α}
    (h : Yields m c a c₁) : (m >>= f).run.run c = (f a).run.run c₁ := by
  rw [run_bind, h]

theorem emissions_of_yields {m : CompileM α} {f : α → CompileM β} {c c₁ : Compilation} {a : α}
    (h : Yields m c a c₁) : emissions (m >>= f) c = emissions m c ++ emissions (f a) c₁ := by
  rw [emissions_bind, h]

theorem emissions_attempt (m : CompileM α) (c : Compilation) :
    emissions (attempt m) c = emissions m c := by
  show (m.run c).2 ++ [] = (m.run c).2
  exact List.append_nil _

/-- The step emits nothing. -/
def Mute (m : CompileM α) : Prop := ∀ c, emissions m c = []

theorem Mute.bind {m : CompileM α} {f : α → CompileM β} (hm : Mute m) (hf : ∀ a, Mute (f a)) :
    Mute (m >>= f) := by
  intro c
  rw [emissions_bind, hm c]
  rcases m.run.run c with ⟨e | a, c₁⟩
  · rfl
  · exact hf a c₁

theorem mute_modify (g : Compilation → Compilation) : Mute (modify g : CompileM PUnit) :=
  fun _ => rfl

theorem mute_conclude (r : Except CompileError α) : Mute (conclude r) := fun _ => rfl

theorem mute_restore (k : Checkpoint) : Mute (restore k) :=
  .bind (fun _ => rfl) fun _ => .bind (mute_conclude _) fun _ => mute_modify _

theorem fails_bind {m : CompileM α} {f : α → CompileM β} {c c' : Compilation} {e : CompileError} :
    Fails (m >>= f) c e c' ↔ Fails m c e c' ∨ ∃ a c₁, Yields m c a c₁ ∧ Fails (f a) c₁ e c' := by
  unfold Fails Yields
  rw [run_bind]
  rcases m.run.run c with ⟨e' | a, c₁⟩ <;> dsimp only
  · constructor
    · intro h
      injection h with he hc
      injection he with he
      exact .inl (he ▸ hc ▸ rfl)
    · rintro (h | ⟨_, _, h, _⟩)
      · injection h with he hc
        injection he with he
        exact he ▸ hc ▸ rfl
      · cases h
  · constructor
    · intro h
      exact .inr ⟨a, c₁, rfl, h⟩
    · rintro (h | ⟨_, _, h, h'⟩)
      · cases h
      · injection h with ha hc
        injection ha with ha
        subst ha hc
        exact h'

theorem mem_emissions_bind {m : CompileM α} {f : α → CompileM β} {c : Compilation} {e : Emission}
    (he : e ∈ emissions (m >>= f) c) :
    e ∈ emissions m c ∨ ∃ a c₁, Yields m c a c₁ ∧ e ∈ emissions (f a) c₁ := by
  rw [emissions_bind, List.mem_append] at he
  refine he.imp_right ?_
  unfold Yields
  rcases m.run.run c with ⟨e' | a, c₁⟩
  · intro he
    exact absurd he List.not_mem_nil
  · intro he
    exact ⟨a, c₁, rfl, he⟩

/-! ## The judgement -/

/-- As many scopes and blocks are open in both states. -/
structure SameDepth (c c' : Compilation) : Prop where
  blocks : c'.frame.depth = c.frame.depth
  scopes : c'.scopes.depth = c.scopes.depth

/-- A way in which states may change from step to step. -/
class Steady (R : Compilation → Compilation → Prop) : Prop where
  refl : ∀ c, R c c
  trans : ∀ {c c₁ c₂}, R c c₁ → R c₁ c₂ → R c c₂
  depth : ∀ {c c'}, R c c' → SameDepth c c'

instance : Steady SameDepth where
  refl _ := ⟨rfl, rfl⟩
  trans h₁ h₂ := ⟨h₂.blocks.trans h₁.blocks, h₂.scopes.trans h₁.scopes⟩
  depth h := h

/-- The step is safe: its instructions are sound; if it succeeds, the states are related by `R` and
the outcome is as `Q` says; if it fails, then at a position and with all scopes and blocks closed
that it opened. -/
structure Safe (R : Compilation → Compilation → Prop) (m : CompileM α)
    (c : Compilation) (Q : α → Compilation → Prop) : Prop where
  emissions : ∀ e ∈ CompileM.emissions m c, e.Sound
  yields : ∀ {a c'}, Yields m c a c' → R c c' ∧ Q a c'
  fails : ∀ {e c'}, Fails m c e c' → e.isLocated = true ∧ SameDepth c c'

namespace Safe

variable {R : Compilation → Compilation → Prop} {m : CompileM α}
  {f : α → CompileM β} {c : Compilation} {Q Q' : α → Compilation → Prop}
  {P : β → Compilation → Prop}

theorem mono (h : Safe R m c Q) (hQ : ∀ a c', R c c' → Q a c' → Q' a c') :
    Safe R m c Q' where
  emissions := h.emissions
  yields hm := ⟨(h.yields hm).1, hQ _ _ (h.yields hm).1 (h.yields hm).2⟩
  fails := h.fails

theorem weaken (h : Safe R m c Q) : Safe R m c fun _ _ => True := h.mono fun _ _ _ _ => trivial

/-- A step that changes less is safe where more may change. -/
theorem widen {R' : Compilation → Compilation → Prop} (h : Safe R m c Q)
    (hR : ∀ c', R c c' → R' c c') : Safe R' m c Q where
  emissions := h.emissions
  yields hm := ⟨hR _ (h.yields hm).1, (h.yields hm).2⟩
  fails := h.fails

/-- What is promised about the states may be a way in which they change. -/
theorem narrow {R' : Compilation → Compilation → Prop}
    (h : Safe R m c fun a c' => R' c c' ∧ Q a c') : Safe R' m c Q where
  emissions := h.emissions
  yields hm := (h.yields hm).2
  fails := h.fails

/-- A step that runs `body` elsewhere and then tidies up. What it emits is what `body` emits, and
its outcome is that of `body`. -/
theorem bracket {R₀ : Compilation → Compilation → Prop} {body : CompileM α} {c₀ : Compilation}
    {Q₀ : α → Compilation → Prop} (g : Except CompileError α → Compilation → Compilation)
    (hbody : Safe R₀ body c₀ Q₀) (hdepth : ∀ c₁, R₀ c₀ c₁ → SameDepth c₀ c₁)
    (hlog : CompileM.emissions m c = CompileM.emissions body c₀)
    (hrun : ∀ o c₁, body.run.run c₀ = (o, c₁) → SameDepth c₀ c₁ → m.run.run c = (o, g o c₁))
    (hok : ∀ a c₁, R₀ c₀ c₁ → Q₀ a c₁ → R c (g (.ok a) c₁) ∧ Q a (g (.ok a) c₁))
    (herror : ∀ e c₁, SameDepth c₀ c₁ → SameDepth c (g (.error e) c₁)) :
    Safe R m c Q where
  emissions e he := hbody.emissions e (hlog ▸ he)
  yields {a c'} hm := by
    -- The two runs end alike, so a result of the whole comes from one of the body.
    rcases hb : body.run.run c₀ with ⟨e | b, c₁⟩
    · have hfails := hrun _ c₁ hb (hbody.fails hb).2
      rw [Yields, hfails] at hm
      cases hm
    · obtain ⟨hR, hQ⟩ := hbody.yields hb
      have hyields := hrun _ c₁ hb (hdepth c₁ hR)
      rw [Yields, hyields] at hm
      injection hm with hb hc
      injection hb with hb
      subst hb hc
      exact hok b c₁ hR hQ
  fails {e c'} hm := by
    rcases hb : body.run.run c₀ with ⟨e' | b, c₁⟩
    · obtain ⟨hlocated, hsame⟩ := hbody.fails hb
      have hfails := hrun _ c₁ hb hsame
      rw [Fails, hfails] at hm
      injection hm with he hc
      injection he with he
      subst he hc
      exact ⟨hlocated, herror e' c₁ hsame⟩
    · have hyields := hrun _ c₁ hb (hdepth c₁ (hbody.yields hb).1)
      rw [Fails, hyields] at hm
      cases hm

/-! ## Reading the state -/

/-- What is read from the state is known. -/
theorem get_bind {g : Compilation → CompileM β} (h : Safe R (g c) c P) :
    Safe R (get >>= g) c P where
  emissions e he := by
    rcases mem_emissions_bind he with he | ⟨a, c₁, hyields, he⟩
    · exact absurd he List.not_mem_nil
    · obtain ⟨rfl, rfl⟩ := yields_get.mp hyields
      exact h.emissions e he
  yields hyields := by
    obtain ⟨a, c₁, h₁, h₂⟩ := yields_bind.mp hyields
    obtain ⟨rfl, rfl⟩ := yields_get.mp h₁
    exact h.yields h₂
  fails hfails := by
    rcases fails_bind.mp hfails with hget | ⟨a, c₁, h₁, h₂⟩
    · cases hget
    · obtain ⟨rfl, rfl⟩ := yields_get.mp h₁
      exact h.fails h₂

theorem fromRegistry_bind {g : Registry → α} (h : Safe R (f (g c.registry)) c P) :
    Safe R (fromRegistry g >>= f) c P := by
  unfold fromRegistry
  rw [bind_assoc]
  exact get_bind (by rwa [pure_bind])

theorem typeName_bind {t : Ty} {f : String → CompileM β}
    (h : Safe R (f (c.registry.typeName t)) c P) :
    Safe R (typeName t >>= f) c P := fromRegistry_bind h

theorem lengthOf_bind {t : Ty} {f : Nat → CompileM β}
    (h : Safe R (f (c.registry.length t)) c P) :
    Safe R (lengthOf t >>= f) c P := fromRegistry_bind h

theorem pointerSize_bind {f : Nat → CompileM β}
    (h : Safe R (f c.registry.pointerSize) c P) :
    Safe R (pointerSize >>= f) c P := fromRegistry_bind h

/-! ## Sequences -/

variable [Steady R]

theorem pure {a : α} (h : Q a c) : Safe R (pure a) c Q where
  emissions _ he := absurd he List.not_mem_nil
  yields hm := by
    obtain ⟨rfl, rfl⟩ := yields_pure.mp hm
    exact ⟨Steady.refl _, h⟩
  fails hm := by cases hm

/-- What the first step promises is known in the second. -/
theorem bind (hm : Safe R m c Q) (hf : ∀ a c', R c c' → Q a c' → Safe R (f a) c' P) :
    Safe R (m >>= f) c P where
  emissions e he := by
    rcases mem_emissions_bind he with he | ⟨a, c₁, hyields, he⟩
    · exact hm.emissions e he
    · obtain ⟨hR, hQ⟩ := hm.yields hyields
      exact (hf a c₁ hR hQ).emissions e he
  yields hyields := by
    obtain ⟨a, c₁, h₁, h₂⟩ := yields_bind.mp hyields
    obtain ⟨hR, hQ⟩ := hm.yields h₁
    obtain ⟨hR', hP⟩ := (hf a c₁ hR hQ).yields h₂
    exact ⟨Steady.trans hR hR', hP⟩
  fails hfails := by
    rcases fails_bind.mp hfails with h | ⟨a, c₁, h₁, h₂⟩
    · exact hm.fails h
    · obtain ⟨hR, hQ⟩ := hm.yields h₁
      obtain ⟨hlocated, hdepth⟩ := (hf a c₁ hR hQ).fails h₂
      exact ⟨hlocated, Steady.trans (Steady.depth hR) hdepth⟩

/-! ## Outcomes -/

theorem conclude {x : Except CompileError α} (hok : ∀ a, x = .ok a → Q a c)
    (herror : ∀ e, x = .error e → e.isLocated = true) : Safe R (conclude x) c Q where
  emissions _ he := absurd he List.not_mem_nil
  yields hm := by
    obtain ⟨hx, rfl⟩ := yields_conclude.mp hm
    exact ⟨Steady.refl _, hok _ hx⟩
  fails hm := by
    injection hm with hx hc
    exact ⟨herror _ hx, hc ▸ Steady.depth (R := SameDepth) (Steady.refl c)⟩

theorem fail {cause : Cause} {span : Span} : Safe R (fail cause span : CompileM α) c Q :=
  conclude (x := .error (.located cause span)) (fun _ h => by cases h) fun e h => by
    injection h with h
    exact h ▸ rfl

theorem fail_bind {cause : Cause} {span : Span} :
    Safe R (CompileM.fail cause span >>= f) c P := (fail (Q := fun _ _ => False)).bind
  fun _ _ _ h => h.elim

theorem fromRegistry {g : Registry → α} (h : Q (g c.registry) c) :
    Safe R (fromRegistry g) c Q := get_bind (.pure h)

/-- An answer of the registry, if it does not fail internally. -/
theorem askRegistry {g : Registry → Except CompileError α} (hok : ∀ a, g c.registry = .ok a → Q a c)
    (herror : ∀ e, g c.registry = .error e → e.isLocated = true) :
    Safe R (askRegistry g) c Q := get_bind (conclude hok herror)

omit [Steady R] in
/-- An answer that the registry is known to have. -/
theorem askRegistry_bind {g : Registry → Except CompileError α} {a : α}
    (ha : g c.registry = .ok a) (h : Safe R (f a) c P) :
    Safe R (CompileM.askRegistry g >>= f) c P := by
  have hask : Safe SameDepth (CompileM.askRegistry g) c fun b c' => b = a ∧ c' = c := by
    refine askRegistry (fun b hb => ?_) fun e he => ?_
    · rw [ha] at hb
      injection hb with hb
      exact ⟨hb.symm, rfl⟩
    · rw [ha] at he
      cases he
  refine ⟨fun e he => ?_, fun hyields => ?_, fun hfails => ?_⟩
  · rcases mem_emissions_bind he with hfirst | ⟨b, c₁, hb, hrest⟩
    · exact hask.emissions e hfirst
    · obtain ⟨-, rfl, rfl⟩ := hask.yields hb
      exact h.emissions e hrest
  · obtain ⟨b, c₁, hb, hrest⟩ := yields_bind.mp hyields
    obtain ⟨-, rfl, rfl⟩ := hask.yields hb
    exact h.yields hrest
  · rcases fails_bind.mp hfails with hb | ⟨b, c₁, hb, hrest⟩
    · exact hask.fails hb
    · obtain ⟨-, rfl, rfl⟩ := hask.yields hb
      exact h.fails hrest

/-! ## Steps over lists -/

/-- What holds before the first member and is kept by each holds after the last. -/
theorem forM {γ : Type} {xs : List γ} {g : γ → CompileM PUnit} {I : Compilation → Prop}
    (hg : ∀ x ∈ xs, ∀ c₁, R c c₁ → I c₁ → Safe R (g x) c₁ fun _ c' => I c') (hI : I c) :
    Safe R (xs.forM g) c fun _ c' => I c' := by
  induction xs generalizing c with
  | nil => exact .pure hI
  | cons x xs ih =>
    refine (hg x List.mem_cons_self c (Steady.refl c) hI).bind fun _ c₁ hR hI₁ => ?_
    exact ih (fun y hy c₂ hR' => hg y (List.mem_cons_of_mem _ hy) c₂ (Steady.trans hR hR')) hI₁

end Safe

end CompileM

end ClassLang
