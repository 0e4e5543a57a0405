import ClassLang.Proofs.Diagnostics.Outline

/-!
# Steps that agree

Two steps *agree* if from states of one outline they come to states of one outline, with outcomes
that look alike. In particular both fail or none does, and they fail with the same error.

Sequences of steps agree if their parts do. What follows a step that yields a slot must agree for
any two places of that slot; its type is the same on both sides.
-/

-- The instances of long steps are large terms.
set_option synthInstance.maxSize 1000

namespace ClassLang

namespace CompileM

variable {α β : Type} [Blur α] [Blur β]

/-- From states of one outline the steps come to states of one outline, with outcomes that look
alike. -/
class Agree (m n : CompileM α) : Prop where
  out : ∀ c d : Compilation, c.outline = d.outline →
    blur (m.run.run c).1 = blur (n.run.run d).1 ∧
      (m.run.run c).2.outline = (n.run.run d).2.outline

/-! ## Sequences -/

/-- For steps that go on by cases on what came before. -/
theorem Agree.bind {m n : CompileM α} {f g : α → CompileM β} [hm : Agree m n]
    (hf : ∀ a b, Alike a b → Agree (f a) (g b)) : Agree (m >>= f) (n >>= g) where
  out c d h := by
    obtain ⟨houtcome, hstate⟩ := hm.out c d h
    rw [run_bind, run_bind]
    rcases hc : m.run.run c with ⟨e | a, c₁⟩ <;> rcases hd : n.run.run d with ⟨e' | b, d₁⟩ <;>
      rw [hc, hd] at houtcome hstate
    · injection houtcome with he
      subst he
      exact ⟨rfl, hstate⟩
    · cases houtcome
    · cases houtcome
    · injection houtcome with hab
      exact (hf a b ⟨hab⟩).out c₁ d₁ hstate

instance (priority := low) agree_bind {m n : CompileM α} {f g : α → CompileM β} [Agree m n]
    [hf : ∀ p : Twins α, Agree (f p.left) (g p.right)] : Agree (m >>= f) (n >>= g) :=
  .bind fun a b h => hf ⟨a, b, h⟩

instance agree_bind_exact {m n : CompileM α} {f g : α → CompileM β} [Exact α] [Agree m n]
    [hf : ∀ a, Agree (f a) (g a)] : Agree (m >>= f) (n >>= g) :=
  .bind fun a b h => by
    obtain rfl := h.exact
    exact hf a

instance agree_bind_address {m n : CompileM Address} {f g : Address → CompileM β} [Agree m n]
    [hf : ∀ a b, Agree (f a) (g b)] : Agree (m >>= f) (n >>= g) := .bind fun a b _ => hf a b

instance agree_bind_slot {m n : CompileM Slot} {f g : Slot → CompileM β} [Agree m n]
    [hf : ∀ t a b, Agree (f ⟨t, a⟩) (g ⟨t, b⟩)] : Agree (m >>= f) (n >>= g) :=
  .bind fun ⟨t, a⟩ ⟨t', b⟩ h => by
    obtain rfl : t = t' := h.type
    exact hf t a b

instance agree_bind_place {m n : CompileM Place} {f g : Place → CompileM β} [Agree m n]
    [hf : ∀ t (l : Twins Location) isConst name,
      Agree (f ⟨t, l.left, isConst, name⟩) (g ⟨t, l.right, isConst, name⟩)] :
    Agree (m >>= f) (n >>= g) :=
  .bind fun ⟨t, l, isConst, name⟩ ⟨t', l', isConst', name'⟩ h => by
    have heq := h.eq
    injection heq with ht hl hconst hname
    subst ht hconst hname
    exact hf t ⟨l, l', ⟨hl⟩⟩ isConst name

instance agree_pure (a b : α) [h : Alike a b] : Agree (pure a) (pure b) :=
  ⟨fun _ _ hcd => ⟨congrArg Except.ok h.eq, hcd⟩⟩

instance agree_throw (e : CompileError) : Agree (throw e : CompileM α) (throw e) :=
  ⟨fun _ _ hcd => ⟨rfl, hcd⟩⟩

instance agree_fail (cause : Cause) (span : Span) :
    Agree (fail cause span : CompileM α) (fail cause span) := agree_throw _

instance agree_conclude (r r' : Except CompileError α) [h : Alike r r'] :
    Agree (conclude r) (conclude r') := ⟨fun _ _ hcd => ⟨h.eq, hcd⟩⟩

instance agree_attempt {m n : CompileM α} [h : Agree m n] : Agree (attempt m) (attempt n) where
  out c d hcd := ⟨congrArg Except.ok (h.out c d hcd).1, (h.out c d hcd).2⟩

instance agree_ite {p : Prop} [Decidable p] {m n k l : CompileM α} [Agree m n] [Agree k l] :
    Agree (if p then m else k) (if p then n else l) := by
  split <;> infer_instance

/-- A step for each member of lists that look alike. -/
theorem agree_forM {f g : α → CompileM PUnit} (h : ∀ a b, Alike a b → Agree (f a) (g b)) :
    ∀ {as bs : List α}, Alike as bs → Agree (as.forM f) (bs.forM g)
  | [], [], _ => agree_pure _ _
  | [], _ :: _, hs => by cases hs.eq
  | _ :: _, [], hs => by cases hs.eq
  | a :: _, b :: _, hs =>
    have := h a b hs.head.1
    .bind fun _ _ _ => agree_forM h hs.head.2

instance {f g : α → CompileM PUnit} {as : List α} [h : ∀ a, Agree (f a) (g a)] :
    Agree (as.forM f) (as.forM g) := by
  induction as with
  | nil => exact agree_pure _ _
  | cons a as ih => exact agree_bind_exact (f := fun _ => as.forM f) (g := fun _ => as.forM g)

instance {f g : α → CompileM β} {as : List α} [h : ∀ a, Agree (f a) (g a)] :
    Agree (as.mapM f) (as.mapM g) := by
  induction as with
  | nil =>
    rw [List.mapM_nil, List.mapM_nil]
    infer_instance
  | cons a as ih =>
    rw [List.mapM_cons, List.mapM_cons]
    infer_instance

instance {f g : β → α → CompileM β} {as : List α} (b : β) [Exact β]
    [h : ∀ b a, Agree (f b a) (g b a)] : Agree (as.foldlM f b) (as.foldlM g b) := by
  induction as generalizing b with
  | nil => exact agree_pure b b
  | cons a as ih =>
    rw [List.foldlM_cons, List.foldlM_cons]
    exact agree_bind_exact

theorem Agree.symm {m n : CompileM α} (h : Agree m n) : Agree n m :=
  ⟨fun c d hcd => ⟨(h.out d c hcd.symm).1.symm, (h.out d c hcd.symm).2.symm⟩⟩

theorem Agree.trans {m n k : CompileM α} (h₁ : Agree m n) (h₂ : Agree n k) : Agree m k where
  out c d hcd := ⟨(h₁.out c c rfl).1.trans (h₂.out c d hcd).1,
    (h₁.out c c rfl).2.trans (h₂.out c d hcd).2⟩

/-! ## Reading the state -/

/-- A step that reads nothing but the outline. -/
theorem agree_reads {m : CompileM α} [hm : Keeps id m]
    (h : ∀ c, blur (m.run.run c).1 = blur (m.run.run c.outline).1) : Agree m m where
  out c d hcd := by
    have hc : (m.run.run c).2 = c := hm.eq c
    have hd : (m.run.run d).2 = d := hm.eq d
    rw [hc, hd, h c, h d, hcd]
    exact ⟨rfl, rfl⟩

instance agree_get : Agree get get := ⟨fun _ _ hcd => ⟨congrArg Except.ok hcd, hcd⟩⟩

instance agree_fromRegistry (f : Registry → α) : Agree (fromRegistry f) (fromRegistry f) :=
  agree_reads fun _ => rfl

instance agree_askRegistry (f : Registry → Except CompileError α) :
    Agree (askRegistry f) (askRegistry f) := agree_reads fun _ => rfl

instance (t : Ty) : Agree (typeName t) (typeName t) := agree_reads fun _ => rfl

instance (t : Ty) : Agree (lengthOf t) (lengthOf t) := agree_reads fun _ => rfl

instance : Agree pointerSize pointerSize := agree_reads fun _ => rfl

/-! ## Changing the state -/

/-- Changes that make the same of the outline. -/
theorem agree_modify {f g : Compilation → Compilation} (F : Compilation → Compilation)
    (hf : ∀ c, (f c).outline = F c.outline) (hg : ∀ c, (g c).outline = F c.outline) :
    Agree (modify f : CompileM PUnit) (modify g) where
  out c d hcd := ⟨rfl, (hf c).trans ((congrArg F hcd).trans (hg d).symm)⟩

theorem agree_modifyGet {f g : Compilation → α × Compilation} (F : Compilation → α × Compilation)
    (hf : ∀ c, (blur (f c).1, (f c).2.outline) = F c.outline)
    (hg : ∀ c, (blur (g c).1, (g c).2.outline) = F c.outline) :
    Agree (modifyGet f : CompileM α) (modifyGet g) where
  out c d hcd := by
    have hsame := (hf c).trans ((congrArg F hcd).trans (hg d).symm)
    injection hsame with hvalue hstate
    exact ⟨congrArg Except.ok hvalue, hstate⟩

/-- The step succeeds and leaves the outline alone. -/
class Unnoticed (m : CompileM α) : Prop where
  yields : ∀ c : Compilation, ∃ a c', Yields m c a c' ∧ c'.outline = c.outline

instance unnoticed_pure (a : α) : Unnoticed (pure a) := ⟨fun c => ⟨a, c, rfl, rfl⟩⟩

instance unnoticed_bind {m : CompileM α} {f : α → CompileM β} [hm : Unnoticed m]
    [hf : ∀ a, Unnoticed (f a)] : Unnoticed (m >>= f) where
  yields c := by
    obtain ⟨a, c₁, hyields, hsame⟩ := hm.yields c
    obtain ⟨b, c₂, hyields', hsame'⟩ := (hf a).yields c₁
    exact ⟨b, c₂, yields_bind.mpr ⟨a, c₁, hyields, hyields'⟩, hsame'.trans hsame⟩

instance unnoticed_ite {p : Prop} [Decidable p] {m n : CompileM α} [Unnoticed m] [Unnoticed n] :
    Unnoticed (if p then m else n) := by
  split <;> infer_instance

instance unnoticed_get : Unnoticed get := ⟨fun c => ⟨c, c, rfl, rfl⟩⟩

instance (t : Ty) : Unnoticed (lengthOf t) := ⟨fun _ => ⟨_, _, rfl, rfl⟩⟩

instance : Unnoticed pointerSize := ⟨fun _ => ⟨_, _, rfl, rfl⟩⟩

instance unnoticed_emit (i : Instr) (region : Nat) : Unnoticed (emit i region) :=
  ⟨fun _ => ⟨_, _, rfl, rfl⟩⟩

instance (l : Label) : Unnoticed (emitLabel l) := unnoticed_emit _ _

instance (l : Label) : Unnoticed (emitGoto l) := unnoticed_emit _ _

instance unnoticed_alloc (n : Nat) : Unnoticed (alloc n) := ⟨fun _ => ⟨_, _, rfl, rfl⟩⟩

instance (t : Ty) : Unnoticed (allocFor t) := by
  unfold allocFor
  infer_instance

/-- Unnoticed steps agree, if their outcomes look alike in any case. -/
theorem agree_of_unnoticed {m n : CompileM α} [hm : Unnoticed m] [hn : Unnoticed n]
    (h : ∀ a b : α, Alike a b) : Agree m n where
  out c d hcd := by
    obtain ⟨a, c', hc, hsame⟩ := hm.yields c
    obtain ⟨b, d', hd, hsame'⟩ := hn.yields d
    rw [hc, hd]
    exact ⟨congrArg Except.ok (h a b).eq, hsame.trans (hcd.trans hsame'.symm)⟩

instance (priority := low) agree_unnoticed {m n : CompileM Unit} [Unnoticed m] [Unnoticed n] :
    Agree m n :=
  agree_of_unnoticed fun _ _ => alike_refl _

instance (priority := low) agree_unnoticed_address {m n : CompileM Address} [Unnoticed m] [Unnoticed n] :
    Agree m n := agree_of_unnoticed alike_address

instance (l : Literal) : Agree (intern l) (intern l) :=
  agree_modifyGet (fun c => (.frame 0, { c with literals := (c.literals.intern l).2 }))
    (fun _ => rfl) fun _ => rfl

instance (n : Nat) : Agree (internNat n) (internNat n) := by
  unfold internNat
  infer_instance

instance (k : LabelKind) : Agree (freshLabel k) (freshLabel k) :=
  agree_modifyGet (fun c => ((c.frame.freshLabel k).1, { c with frame := (c.frame.freshLabel k).2 }))
    (fun _ => rfl) fun _ => rfl

instance (caution : Caution) (span : Span) : Agree (warn caution span) (warn caution span) := by
  have hwarn : ∀ c : Compilation, Compilation.outline (if c.muted = 0 then
      { c with warnings := c.warnings.push ⟨c.path, span, caution⟩ } else c) =
        if c.outline.muted = 0 then
          { c.outline with warnings := c.outline.warnings.push ⟨c.outline.path, span, caution⟩ }
        else c.outline := by
    intro c
    split
    · rename_i hmuted
      exact (if_pos hmuted).symm
    · rename_i hmuted
      exact (if_neg hmuted).symm
  exact agree_modify (fun c => if c.muted = 0 then
    { c with warnings := c.warnings.push ⟨c.path, span, caution⟩ } else c) hwarn hwarn

/-! ## Registers -/

instance agree_withRegister {body body' : Register → CompileM α}
    [hbody : ∀ reg, Agree (body reg) (body' reg)] :
    Agree (withRegister body) (withRegister body') where
  out c d hcd := by
    have hfree : c.frame.freeRegisters = d.frame.freeRegisters := by
      show c.outline.frame.freeRegisters = d.outline.frame.freeRegisters
      rw [hcd]
    have hcount : c.frame.registerCount = d.frame.registerCount := by
      show c.outline.frame.registerCount = d.outline.frame.registerCount
      rw [hcd]
    cases hregs : c.frame.freeRegisters with
    | nil =>
      rw [run_withRegister_nil hregs, run_withRegister_nil (hfree.symm.trans hregs), hcount]
      exact ⟨rfl, hcd⟩
    | cons reg rest =>
      rw [run_withRegister hregs, run_withRegister (hfree.symm.trans hregs)]
      have htaken := congrArg (fun c : Compilation =>
        ({ c with frame := { c.frame with freeRegisters := rest } } : Compilation)) hcd
      obtain ⟨houtcome, hstate⟩ := (hbody reg).out
        { c with frame := { c.frame with freeRegisters := rest } }
        { d with frame := { d.frame with freeRegisters := rest } } htaken
      rcases hc : (body reg).run.run { c with frame := { c.frame with freeRegisters := rest } } with
        ⟨e | a, c₁⟩ <;>
      rcases hd : (body' reg).run.run { d with frame := { d.frame with freeRegisters := rest } } with
        ⟨e' | b, d₁⟩ <;> rw [hc, hd] at houtcome hstate
      · exact ⟨houtcome, hstate⟩
      · cases houtcome
      · cases houtcome
      · exact ⟨houtcome, congrArg (fun c : Compilation =>
          ({ c with frame := c.frame.release reg } : Compilation)) hstate⟩

/-! ## Blocks, scopes and modules -/

instance : Agree pushBlock pushBlock :=
  agree_modifyGet (fun c => (⟨0, c.frame.depth + 1⟩, { c with
      frame := { c.frame with blocks := 0 :: c.frame.blocks } }))
    (fun c => by
      show ((⟨0, c.frame.blocks.length + 1⟩ : Checkpoint), _) =
        ((⟨0, (c.frame.blocks.map fun _ => 0).length + 1⟩ : Checkpoint), _)
      rw [List.length_map]
      rfl)
    (fun c => by
      show ((⟨0, c.frame.blocks.length + 1⟩ : Checkpoint), _) =
        ((⟨0, (c.frame.blocks.map fun _ => 0).length + 1⟩ : Checkpoint), _)
      rw [List.length_map]
      rfl)

theorem depth_outline (c : Compilation) : c.outline.frame.depth = c.frame.depth := List.length_map ..

instance (k k' : Checkpoint) [h : Alike k k'] : Agree (restore k) (restore k') where
  out c d hcd := by
    have hdepth : c.frame.depth = d.frame.depth := by
      rw [← depth_outline c, hcd, depth_outline]
    have hk : k.depth = k'.depth := by
      have heq := h.eq
      injection heq
    have hrun : ∀ (k : Checkpoint) (c : Compilation), (restore k).run.run c =
        if c.frame.depth = k.depth then
          (.ok (), { c with frame := { c.frame with blocks := c.frame.blocks.tail, top := k.top } })
        else (.error (.internal (.unbalancedRestore k.depth c.frame.depth)), c) := by
      intro k c
      unfold restore
      rw [run_of_yields (yields_get.mpr ⟨rfl, rfl⟩)]
      unfold Frame.restore
      split <;> rfl
    have htail : ∀ (k : Checkpoint) (c : Compilation), Compilation.outline
        { c with frame := { c.frame with blocks := c.frame.blocks.tail, top := k.top } } =
          { c.outline with
            frame := { c.outline.frame with blocks := c.outline.frame.blocks.tail } } := by
      intro k c
      show ({ c.outline with
        frame := { c.outline.frame with blocks := c.frame.blocks.tail.map fun _ => 0 } } :
          Compilation) = _
      rw [List.map_tail]
      rfl
    rw [hrun, hrun, hdepth, hk]
    split
    · exact ⟨rfl, by rw [htail, htail, hcd]⟩
    · exact ⟨rfl, hcd⟩

instance agree_withTemps {m n : CompileM α} [Agree m n] : Agree (withTemps m) (withTemps n) := by
  unfold withTemps
  infer_instance

instance (n k : Nat) : Agree (modifyFrame (·.truncate n)) (modifyFrame (·.truncate k)) :=
  agree_modify id (fun _ => rfl) fun _ => rfl

instance agree_probe {m n : CompileM α} [Agree m n] : Agree (probe m) (probe n) := by
  have hmute : Agree (modify fun s => { s with muted := s.muted + 1 } : CompileM PUnit)
      (modify fun s => { s with muted := s.muted + 1 }) :=
    agree_modify (fun s => { s with muted := s.muted + 1 }) (fun _ => rfl) fun _ => rfl
  have hunmute : Agree (modify fun s => { s with muted := s.muted - 1 } : CompileM PUnit)
      (modify fun s => { s with muted := s.muted - 1 }) :=
    agree_modify (fun s => { s with muted := s.muted - 1 }) (fun _ => rfl) fun _ => rfl
  unfold probe
  infer_instance

/-- Scopes that look alike are changed to scopes that look alike. -/
theorem agree_modifyScopes {f g : Scopes → Scopes} (F : Scopes → Scopes)
    (hf : ∀ s, blur (f s) = F (blur s)) (hg : ∀ s, blur (g s) = F (blur s)) :
    Agree (modifyScopes f) (modifyScopes g) :=
  agree_modify (fun c => { c with scopes := F c.scopes })
    (fun c => congrArg (fun s => ({ c.outline with scopes := s } : Compilation)) (hf c.scopes))
    fun c => congrArg (fun s => ({ c.outline with scopes := s } : Compilation)) (hg c.scopes)

instance (kind : ScopeKind) : Agree (modifyScopes (·.enter kind)) (modifyScopes (·.enter kind)) :=
  agree_modifyScopes (·.enter kind) (fun _ => rfl) fun _ => rfl

instance (n : Nat) : Agree (modifyScopes (·.truncate n)) (modifyScopes (·.truncate n)) := by
  have htruncate : ∀ s : Scopes, blur (s.truncate n) = (blur s).truncate n := by
    intro s
    show Scopes.mk (blur s.global) ((s.inner.drop (s.inner.length - (n - 1))).map blur) =
      ⟨blur s.global, (s.inner.map blur).drop ((s.inner.map blur).length - (n - 1))⟩
    rw [List.map_drop, List.length_map]
  exact agree_modifyScopes (·.truncate n) htruncate htruncate

instance agree_inScope {m n : CompileM α} (kind : ScopeKind) [Agree m n] :
    Agree (inScope kind m) (inScope kind n) := by
  unfold inScope
  refine .bind fun c d hcd => ?_
  have hdepth : c.scopes.depth = d.scopes.depth :=
    Scopes.depth_of_alike (congrArg Compilation.scopes hcd.eq)
  dsimp only
  rw [hdepth]
  infer_instance

theorem agree_updateScopes {f g : Scopes → Except CompileError Scopes}
    (h : ∀ s s', blur s = blur s' → blur (f s) = blur (g s')) :
    Agree (updateScopes f) (updateScopes g) := by
  unfold updateScopes
  refine .bind fun c d hcd => ?_
  have : Alike (f c.scopes) (g d.scopes) := ⟨h _ _ (congrArg Compilation.scopes hcd.eq)⟩
  refine .bind fun s s' hs => agree_modifyScopes (fun _ => blur s) (fun _ => rfl) fun _ => hs.eq.symm

instance (name : String) (d d' : Meaning) (span : Span) [h : Alike d d'] :
    Agree (define name d span) (define name d' span) :=
  agree_updateScopes fun s s' hs => by
    rw [← Scopes.define_blur, hs, h.eq, Scopes.define_blur]

end CompileM

end ClassLang
