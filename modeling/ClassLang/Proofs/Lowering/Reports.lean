import ClassLang.Lowering.Call
import ClassLang.Proofs.Safety.Judgement

/-!
# What steps report

Some faults are about how classes are built from each other: a class contains itself by value, or
inherits from itself, or its bases have no common order. They are found by walks over all classes,
and no other step reports them. Steps that only look something up are told apart by what they may
report: nothing is known about a step that only reads, since it may fail with any error, while a
step that *looks* fails with one that is not about how classes are built.
-/

namespace ClassLang

/-! ## Faults in how classes are built -/

/-- A class contains itself or inherits from itself, or its bases have no common order. -/
@[reducible]
def Cause.isStructural : Cause → Bool
  | .rule (.containsItself _) | .inconsistentHierarchy .. | .circularInheritance _ => true
  | _ => false

/-- The error is about how classes are built from each other. -/
def CompileError.isStructural : CompileError → Bool
  | .located cause _ => cause.isStructural
  | .internal _ => false

/-- The test fails. For a cause that is written out, evaluating the test finds the instance. -/
class IsFalse (b : Bool) : Prop where
  out : b = false

instance : IsFalse false := ⟨rfl⟩

/-! ## Outcomes -/

/-- If the outcome is an error, it is not about how classes are built. -/
class Harmless {α : Type} (r : Except CompileError α) : Prop where
  error : ∀ {e : CompileError}, r = .error e → e.isStructural = false

section Harmless

variable {α β : Type}

instance (a : α) : Harmless (.ok a : Except CompileError α) := ⟨fun h => nomatch h⟩

instance (a : α) : Harmless (pure a : Except CompileError α) := ⟨fun h => nomatch h⟩

instance (cause : Cause) [hcause : IsFalse cause.isStructural] (span : Span) :
    Harmless (.error (.located cause span) : Except CompileError α) :=
  ⟨fun h => Except.error.inj h ▸ hcause.out⟩

instance (fault : InternalFault) : Harmless (.error (.internal fault) : Except CompileError α) :=
  ⟨fun h => Except.error.inj h ▸ rfl⟩

instance (cause : Cause) [hcause : IsFalse cause.isStructural] (span : Span) :
    Harmless (throw (.located cause span) : Except CompileError α) :=
  ⟨fun h => Except.error.inj h ▸ hcause.out⟩

instance harmless_bind (r : Except CompileError α) (f : α → Except CompileError β) [hr : Harmless r]
    [hf : ∀ a, Harmless (f a)] : Harmless (r >>= f) where
  error h := by
    rcases except_bind_eq_error.mp h with h | ⟨a, _, h⟩
    · exact hr.error h
    · exact (hf a).error h

/-- For an outcome that goes on by cases on what came before. -/
theorem Harmless.bind {r : Except CompileError α} {f : α → Except CompileError β} [Harmless r]
    (hf : ∀ a, Harmless (f a)) : Harmless (r >>= f) := harmless_bind r f

instance harmless_ite {p : Prop} [Decidable p] (r r' : Except CompileError α) [Harmless r] [Harmless r'] :
    Harmless (if p then r else r') := by
  split <;> infer_instance

instance harmless_mapM (f : α → Except CompileError β) (xs : List α) [∀ x, Harmless (f x)] :
    Harmless (xs.mapM f) := by
  induction xs with
  | nil =>
    rw [List.mapM_nil]
    infer_instance
  | cons x xs ih =>
    rw [List.mapM_cons]
    infer_instance

instance (r : Registry) (hash : TypeHash) : Harmless (r.getClass hash) := by
  unfold Registry.getClass
  split <;> infer_instance

instance (r : Registry) (id : Nat) : Harmless (r.getFunction id) := by
  unfold Registry.getFunction
  split <;> infer_instance

instance {κ : Type} (r : Registry) (name : String) (candidates : List (Candidate κ)) (args : List Ty)
    (span : Span) : Harmless (Overload.resolve r name candidates args span) := by
  have hsingle : ∀ only : Candidate κ, Harmless (Overload.resolveSingle r name only args span) := by
    intro only
    unfold Overload.resolveSingle
    dsimp only
    split
    · split <;> infer_instance
    · infer_instance
  have hseveral : ∀ cs : List (Candidate κ), Harmless (Overload.resolveSeveral r name cs args span) := by
    intro cs
    unfold Overload.resolveSeveral
    split <;> infer_instance
  unfold Overload.resolve
  split <;> infer_instance

end Harmless

/-! ## Steps that look -/

namespace CompileM

variable {α β : Type} {c c' : Compilation} {e : CompileError}

/-- The step changes nothing and emits nothing, and what it reports is not about how classes are
built. -/
class Looks (m : CompileM α) : Prop extends Reads m where
  error : ∀ {c c' : Compilation} {e : CompileError}, Fails m c e c' → e.isStructural = false

@[simp]
theorem not_fails_pure {a : α} : ¬Fails (pure a) c e c' := fun h => nomatch h

@[simp]
theorem not_fails_get : ¬Fails get c e c' := not_fails_pure

@[simp]
theorem fails_conclude {r : Except CompileError α} :
    Fails (conclude r) c e c' ↔ r = .error e ∧ c' = c := by
  constructor
  · intro h
    injection h with he hc
    exact ⟨he, hc.symm⟩
  · rintro ⟨rfl, rfl⟩
    rfl

@[simp]
theorem fails_fail {cause : Cause} {span : Span} :
    Fails (fail cause span : CompileM α) c e c' ↔ e = .located cause span ∧ c' = c := by
  constructor
  · intro h
    injection h with he hc
    injection he with he
    exact ⟨he.symm, hc.symm⟩
  · rintro ⟨rfl, rfl⟩
    rfl

instance looks_pure (a : α) : Looks (pure a : CompileM α) := ⟨fun h => (not_fails_pure h).elim⟩

instance looks_get : Looks (get : CompileM Compilation) := ⟨fun h => (not_fails_get h).elim⟩

instance looks_fail (cause : Cause) [hcause : IsFalse cause.isStructural] (span : Span) :
    Looks (fail cause span : CompileM α) := ⟨fun h => (fails_fail.mp h).1 ▸ hcause.out⟩

instance looks_conclude (r : Except CompileError α) [hr : Harmless r] : Looks (conclude r) :=
  ⟨fun h => hr.error (fails_conclude.mp h).1⟩

instance looks_internal (fault : InternalFault) : Looks (throw (.internal fault) : CompileM α) :=
  looks_conclude (.error (.internal fault))

instance looks_bind (m : CompileM α) (f : α → CompileM β) [hm : Looks m] [hf : ∀ a, Looks (f a)] :
    Looks (m >>= f) where
  error h := by
    rcases fails_bind.mp h with h | ⟨a, _, _, h⟩
    · exact hm.error h
    · exact (hf a).error h

/-- For a step that goes on by cases on what came before. -/
theorem Looks.bind {m : CompileM α} {f : α → CompileM β} [Looks m] (hf : ∀ a, Looks (f a)) :
    Looks (m >>= f) := looks_bind m f

instance looks_ite {p : Prop} [Decidable p] (m n : CompileM α) [Looks m] [Looks n] :
    Looks (if p then m else n) := by
  split <;> infer_instance

instance looks_mapM (f : α → CompileM β) (xs : List α) [∀ x, Looks (f x)] : Looks (xs.mapM f) := by
  induction xs with
  | nil =>
    rw [List.mapM_nil]
    infer_instance
  | cons x xs ih =>
    rw [List.mapM_cons]
    infer_instance

instance looks_fromRegistry (f : Registry → α) : Looks (fromRegistry f) := by
  unfold fromRegistry
  infer_instance

instance looks_askRegistry (f : Registry → Except CompileError α) [∀ r, Harmless (f r)] :
    Looks (askRegistry f) := by
  unfold askRegistry
  infer_instance

end CompileM

end ClassLang
