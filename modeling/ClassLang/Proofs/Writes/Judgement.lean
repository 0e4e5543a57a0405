import ClassLang.Proofs.Lowering.Brackets
import ClassLang.Proofs.Lowering.Emission
import ClassLang.Proofs.Lowering.Traversal
import ClassLang.Proofs.Safety.Access

/-!
# Steps that write inside of an area

An area says which bytes of the storage may be written while an expression is compiled: those of the
frame that are still free at the beginning, and maybe others. A step is *confined* to an area if
nothing that it emits writes elsewhere. This says nothing about what is read, and nothing about
writing through pointers.
-/

-- The instances of long steps are large terms.
set_option synthInstance.maxSize 1000

namespace ClassLang

open CompileM Lowering

/-- Where may be written while an expression is compiled against a registry and scopes. -/
structure Area where
  registry : Registry
  scopes : Scopes
  /-- The frame is free from here on. -/
  base : Nat
  Allows : Access → Prop
  fresh : ∀ {k n}, base ≤ k → Allows (.frame k, n)
  shorter : ∀ {a n m}, Allows (a, n) → m ≤ n → Allows (a, m)
  field : ∀ {a t name offset type}, Allows (a, registry.length t) →
    registry.field? t name = some (offset, type) → Allows (a.shift offset, registry.length type)

namespace Area

variable (A : Area)

/-- Expressions are compiled in such a state. -/
structure Covers (c : Compilation) : Prop where
  registry : c.registry = A.registry
  scopes : c.scopes = A.scopes
  top : A.base ≤ c.frame.top

/-- The place was taken after the beginning. -/
def Free (a : Address) : Prop := ∃ k, a = .frame k ∧ A.base ≤ k

/-- A value of the type of the slot may be written there. -/
def Offers (s : Slot) : Prop := A.Allows (s.address, A.registry.length s.type)

variable {A}

theorem Free.allows {a : Address} (h : A.Free a) {n : Nat} : A.Allows (a, n) := by
  obtain ⟨k, rfl, hk⟩ := h
  exact A.fresh hk

theorem Covers.pointerSize {c : Compilation} (h : A.Covers c) :
    c.extent.pointerSize = A.registry.pointerSize := congrArg Registry.pointerSize h.registry

theorem Covers.free {c : Compilation} (h : A.Covers c) : A.Free c.frame.topAddress :=
  ⟨_, rfl, h.top⟩

/-- A state that differs in nothing else, and whose frame reaches as far. -/
theorem Covers.of_same {c c' : Compilation} (h : A.Covers c) (hregistry : c'.registry = c.registry)
    (hscopes : c'.scopes = c.scopes) (htop : c.frame.top ≤ c'.frame.top) : A.Covers c' :=
  ⟨hregistry.trans h.registry, hscopes.trans h.scopes, Nat.le_trans h.top htop⟩

end Area

theorem Frame.top_restore {f f' : Frame} {k : Checkpoint} (h : f.restore k = .ok f') :
    f'.top = k.top := by
  unfold restore at h
  split at h
  · injection h with h
    exact h ▸ rfl
  · cases h

/-- Where the frame of what the instruction calls starts. -/
def Instr.frame? : Instr → Option Address
  | callFn _ base | callNative _ base | callPtr _ base => some base
  | _ => none

/-- What the instruction wrote when it was emitted was inside of the area, and if it called
something then with a frame that started where that of the caller was free. -/
structure Emission.Inside (e : Emission) (A : Area) : Prop where
  registry : e.registry = A.registry
  scopes : e.scopes = A.scopes
  writes : ∀ x ∈ e.writes, A.Allows x
  calls : ∀ base, e.instr.frame? = some base → A.Free base

/-- The step writes inside of the area; if it succeeds, the outcome is as `Q` says. -/
structure Confined (A : Area) {α : Type} (m : CompileM α) (Q : α → Prop) : Prop where
  emissions : ∀ {c}, A.Covers c → ∀ e ∈ CompileM.emissions m c, e.Inside A
  yields : ∀ {c a c'}, A.Covers c → Yields m c a c' → A.Covers c' ∧ Q a

namespace Confined

variable {A : Area} {α β : Type} {m : CompileM α} {f : α → CompileM β} {Q Q' : α → Prop}
  {P : β → Prop}

theorem mono (h : Confined A m Q) (hQ : ∀ a, Q a → Q' a) : Confined A m Q' :=
  ⟨h.emissions, fun hc hm => (h.yields hc hm).imp_right (hQ _)⟩

theorem weaken (h : Confined A m Q) : Confined A m fun _ => True := h.mono fun _ _ => trivial

theorem and (h : Confined A m Q) (h' : Confined A m Q') : Confined A m fun a => Q a ∧ Q' a :=
  ⟨h.emissions, fun hc hm => ⟨(h.yields hc hm).1, (h.yields hc hm).2, (h'.yields hc hm).2⟩⟩

theorem bind (hm : Confined A m Q) (hf : ∀ a, Q a → Confined A (f a) P) :
    Confined A (m >>= f) P where
  emissions hc e he := by
    rcases mem_emissions_bind he with he | ⟨a, c₁, hyields, he⟩
    · exact hm.emissions hc e he
    · obtain ⟨hc₁, ha⟩ := hm.yields hc hyields
      exact (hf a ha).emissions hc₁ e he
  yields hc h := by
    obtain ⟨a, c₁, h₁, h₂⟩ := yields_bind.mp h
    obtain ⟨hc₁, ha⟩ := hm.yields hc h₁
    exact (hf a ha).yields hc₁ h₂

/-! ## Steps that emit nothing -/

theorem of_mute (hm : Mute m) (h : ∀ {c a c'}, A.Covers c → Yields m c a c' → A.Covers c' ∧ Q a) :
    Confined A m Q :=
  ⟨fun {c} _ _ he => absurd (hm c ▸ he) List.not_mem_nil, h⟩

theorem modifyGet {g : Compilation → α × Compilation}
    (h : ∀ c, A.Covers c → A.Covers (g c).2 ∧ Q (g c).1) : Confined A (MonadStateOf.modifyGet g) Q :=
  of_mute (fun _ => rfl) fun hc hm => by
    obtain ⟨ha, hc'⟩ := Prod.mk.inj (yields_modifyGet.mp hm)
    exact ha ▸ hc' ▸ h _ hc

theorem modify {g : Compilation → Compilation} (h : ∀ c, A.Covers c → A.Covers (g c)) :
    Confined A (modify g) fun _ => True := modifyGet fun c hc => ⟨h c hc, trivial⟩

theorem reads [hm : Reads m] (h : ∀ {c a}, A.Covers c → Yields m c a c → Q a) : Confined A m Q := by
  refine of_mute (fun c => ?_) fun {c a c'} hc hy => ?_
  · obtain ⟨o, ho⟩ := hm.run c
    show (m.run c).2 = []
    rw [ho]
  · obtain rfl : c' = c := hy.keeps (f := id)
    exact ⟨hc, h hc hy⟩

theorem pure {a : α} (h : Q a) : Confined A (pure a) Q :=
  reads fun _ hm => (yields_pure.mp hm).1 ▸ h

theorem fail {cause : Cause} {span : Span} : Confined A (fail cause span : CompileM α) Q :=
  reads fun _ hm => by simp at hm

theorem fail_bind {cause : Cause} {span : Span} : Confined A (CompileM.fail cause span >>= f) P :=
  (fail (Q := fun _ => False)).bind fun _ h => h.elim

theorem reads_bind [Reads m] (hf : ∀ a, Confined A (f a) P) : Confined A (m >>= f) P :=
  (reads (Q := fun _ => True) fun _ _ => trivial).bind fun a _ => hf a

theorem get_bind {g : Compilation → CompileM β} (h : ∀ c, A.Covers c → Confined A (g c) P) :
    Confined A (get >>= g) P :=
  (reads (Q := A.Covers) fun hc hm => (yields_get.mp hm).1 ▸ hc).bind h

theorem fromRegistry_bind {g : Registry → α} (h : Confined A (f (g A.registry)) P) :
    Confined A (fromRegistry g >>= f) P := by
  refine (reads (Q := (· = g A.registry)) fun hc hm => ?_).bind fun a ha => ha ▸ h
  rw [(yields_fromRegistry.mp hm).1, hc.registry]

theorem lengthOf_bind {t : Ty} {f : Nat → CompileM β} (h : Confined A (f (A.registry.length t)) P) :
    Confined A (lengthOf t >>= f) P := fromRegistry_bind h

theorem pointerSize_bind {f : Nat → CompileM β} (h : Confined A (f A.registry.pointerSize) P) :
    Confined A (pointerSize >>= f) P := fromRegistry_bind h

/-! ## Blocks and registers -/

theorem withTemps {body : CompileM α} (h : Confined A body Q) : Confined A (withTemps body) Q where
  emissions {c} hc e he := by
    rw [emissions_withTemps] at he
    exact h.emissions (c := opened c) (hc.of_same rfl rfl (Nat.le_refl _)) e he
  yields {c a c'} hc hm := by
    obtain ⟨c₁, frame, hbody, hrestore, rfl⟩ := yields_withTemps hm
    obtain ⟨hc₁, ha⟩ := h.yields (c := opened c) (hc.of_same rfl rfl (Nat.le_refl _)) hbody
    exact ⟨⟨hc₁.registry, hc₁.scopes, Frame.top_restore hrestore ▸ hc.top⟩, ha⟩

theorem probe {body : CompileM α} (h : Confined A body Q) : Confined A (probe body) Q where
  emissions {c} hc e he := by
    rw [emissions_probe] at he
    exact h.emissions (c := mutedIn c) (hc.of_same rfl rfl (Nat.le_refl _)) e he
  yields {c a c'} hc hm := by
    simp only [CompileM.probe, pushBlock, yields_bind, yields_updateFrame, yields_get, yields_modify,
      yields_modifyFrame, yields_attempt, yields_restore, yields_conclude, and_assoc,
      exists_and_left, exists_eq_left] at hm
    obtain ⟨_, o, c₁, hbody, _, _, _, _, ⟨frame, hrestore, rfl⟩, rfl, rfl⟩ := hm
    obtain ⟨hc₁, ha⟩ := h.yields (c := mutedIn c) (hc.of_same rfl rfl (Nat.le_refl _)) hbody
    exact ⟨⟨hc₁.registry, hc₁.scopes, Frame.top_restore hrestore ▸ hc.top⟩, ha⟩

theorem withRegister {body : Register → CompileM α} (h : ∀ reg, Confined A (body reg) Q) :
    Confined A (withRegister body) Q := by
  unfold CompileM.withRegister
  refine get_bind fun c hc => ?_
  have hacquire : Confined A (ofInternal c.frame.acquire) fun x => A.base ≤ x.2.top := by
    refine of_mute (fun _ => rfl) fun {c₁ a c'} hc₁ hm => ?_
    obtain ⟨hx, rfl⟩ := yields_conclude.mp hm
    refine ⟨hc₁, ?_⟩
    unfold Frame.acquire at hx
    split at hx
    · cases hx
    · injection hx with hx
      exact hx ▸ hc.top
  refine hacquire.bind fun ⟨reg, frame⟩ htop => ?_
  have henter : Confined A (modifyFrame fun _ => frame) fun _ => True :=
    modify fun _ hc₁ => ⟨hc₁.registry, hc₁.scopes, htop⟩
  refine henter.bind fun _ _ => ?_
  refine (h reg).bind fun a ha => ?_
  have hleave : Confined A (modifyFrame (·.release reg)) fun _ => True :=
    modify fun _ hc₁ => hc₁.of_same rfl rfl (Nat.le_refl _)
  exact hleave.bind fun _ _ => pure ha

/-! ## Storage and code -/

theorem emit {i : Instr} {region : Nat}
    (h : ∀ x ∈ i.writes A.registry.pointerSize region, A.Allows x)
    (hcall : ∀ base, i.frame? = some base → A.Free base) :
    Confined A (emit i region) fun _ => True where
  emissions {c} hc e he := by
    obtain rfl : e = ⟨i, region, c.extent, c.scopes, c.registry⟩ := List.mem_singleton.mp he
    refine ⟨hc.registry, hc.scopes, fun x hx => ?_, hcall⟩
    rw [Emission.writes, hc.pointerSize] at hx
    exact h x hx
  yields hc hm := by
    rw [yields_emit] at hm
    exact ⟨hm ▸ hc.of_same rfl rfl (Nat.le_refl _), trivial⟩

/-- An instruction that writes nothing. -/
theorem silent {i : Instr} (h : ∀ n, i.writes n = []) : Confined A (CompileM.emit i) fun _ => True :=
  emit (fun _ hx => absurd (h _ ▸ hx) List.not_mem_nil) fun base hi => by
    have hnone := h 0
    cases i with
    | callFn _ _ | callNative _ _ | callPtr _ _ => cases hnone
    | _ => cases hi

theorem silent_bind {i : Instr} {f : Unit → CompileM β} (h : ∀ n, i.writes n = [])
    (hf : Confined A (f ()) P) : Confined A (CompileM.emit i >>= f) P :=
  (silent h).bind fun _ _ => hf

/-- An instruction that writes in one place and calls nothing. -/
theorem writes {i : Instr} {x : Access} (h : A.Allows x)
    (hi : i.writes A.registry.pointerSize = [x]) (hframe : i.frame? = none) :
    Confined A (CompileM.emit i) fun _ => True :=
  emit (hi ▸ List.forall_mem_singleton.mpr h) fun _ hbase => by
    rw [hframe] at hbase
    cases hbase

theorem writes_bind {i : Instr} {x : Access} {f : Unit → CompileM β} (h : A.Allows x)
    (hi : i.writes A.registry.pointerSize = [x]) (hframe : i.frame? = none)
    (hf : Confined A (f ()) P) : Confined A (CompileM.emit i >>= f) P :=
  (writes h hi hframe).bind fun _ _ => hf

/-- A call with a frame that starts where the frame of the caller is free. -/
theorem calls {i : Instr} {base : Address} {region : Nat} (h : A.Free base)
    (hi : i.writes A.registry.pointerSize region = [(base, region)])
    (hframe : i.frame? = some base) :
    Confined A (CompileM.emit i region) fun _ => True :=
  emit (hi ▸ List.forall_mem_singleton.mpr h.allows) fun _ hbase => by
    rw [hframe] at hbase
    exact Option.some.inj hbase ▸ h

theorem alloc {n : Nat} : Confined A (alloc n) A.Free :=
  modifyGet fun _ hc => ⟨hc.of_same rfl rfl (Nat.le_add_right ..), hc.free⟩

theorem allocFor {t : Ty} : Confined A (allocFor t) A.Free := lengthOf_bind alloc

theorem freshLabel {kind : LabelKind} : Confined A (freshLabel kind) fun _ => True :=
  modifyGet fun _ hc => ⟨hc.of_same rfl rfl (Nat.le_refl _), trivial⟩

theorem intern {l : Literal} : Confined A (intern l) fun _ => True :=
  modifyGet fun _ hc => ⟨hc.of_same rfl rfl (Nat.le_refl _), trivial⟩

theorem warn {caution : Caution} {span : Span} : Confined A (warn caution span) fun _ => True :=
  modify fun c hc => by
    split
    · exact hc.of_same rfl rfl (Nat.le_refl _)
    · exact hc

end Confined

/-- The step writes inside of the area, whatever its outcome. -/
def Writes (A : Area) (α : Type) (m : CompileM α) : Prop := Confined A m fun _ => True

instance (A : Area) : Reading (Writes A) where
  reads _ _ := .reads fun _ _ => trivial
  bind hm hg := .bind hm fun a _ => hg a
  defer _ := .modify fun _ hc => hc.of_same rfl rfl (Nat.le_refl _)

end ClassLang
