import ClassLang.Proofs.Lowering.Brackets
import ClassLang.Proofs.Lowering.Context

/-!
# The smallest safe steps

A step inside of an expression emits code, takes storage and registers, pools literals and may
warn. It leaves the context alone, the storage only grows, and registers and blocks are given
back. What is given back at the end of a block is storage that was taken inside of it.
-/

namespace ClassLang

open CompileM

/-! ## Literals -/

/-- Every literal lies in the pool with all its bytes. -/
def LiteralPool.Inside (p : LiteralPool) : Prop :=
  ∀ l offset, p.offsets.find? l = some offset → offset + l.encode.length ≤ p.bytes.size

theorem Literal.length_encode_key (l : Literal) : l.key.encode.length = l.encode.length := by
  cases l <;> rfl

namespace LiteralPool

theorem inside_empty : Inside .empty := by
  intro l offset h
  cases h

/-- Storing a literal keeps all others where they are, and the literal gets its place. -/
theorem Inside.intern {p : LiteralPool} (h : p.Inside) (l : Literal) :
    (p.intern l).2.Inside ∧ p.bytes.size ≤ (p.intern l).2.bytes.size ∧
      ∃ offset, (p.intern l).1 = .literal offset ∧
        offset + l.encode.length ≤ (p.intern l).2.bytes.size := by
  unfold LiteralPool.intern
  split
  · rename_i offset hfind
    have hplace := h _ _ hfind
    rw [l.length_encode_key] at hplace
    exact ⟨h, Nat.le_refl _, offset, rfl, hplace⟩
  · have hsize : (p.bytes ++ l.encode.toArray).size = p.bytes.size + l.encode.length := by simp
    refine ⟨?_, by simp, _, rfl, Nat.le_of_eq hsize.symm⟩
    intro k offset hk
    dsimp only at hk ⊢
    rw [hsize]
    by_cases hkey : l.key = k
    · subst hkey
      rw [Table.find?_insert_self] at hk
      injection hk with hk
      rw [l.length_encode_key]
      omega
    · rw [Table.find?_insert_of_ne _ hkey] at hk
      have := h k offset hk
      omega

end LiteralPool

/-! ## How a step inside of an expression changes the state -/

namespace CompileM

variable {α β : Type}

/-- The context is the same, and there is no less storage. -/
structure Within (c c' : Compilation) : Prop where
  context : c'.context = c.context
  extent : c.extent.Le c'.extent
  literals : c.literals.Inside → c'.literals.Inside

/-- How a step inside of an expression changes the state. -/
structure Extends (c c' : Compilation) : Prop extends Within c c' where
  blocks : c'.frame.depth = c.frame.depth
  registers : c'.frame.freeRegisters = c.frame.freeRegisters

theorem Within.registry {c c' : Compilation} (h : Within c c') : c'.registry = c.registry := by
  have hcontext := congrArg Compilation.registry h.context
  exact hcontext

theorem Within.scopes {c c' : Compilation} (h : Within c c') : c'.scopes = c.scopes := by
  have hcontext := congrArg Compilation.scopes h.context
  exact hcontext

theorem Within.trans {c c₁ c₂ : Compilation} (h₁ : Within c c₁) (h₂ : Within c₁ c₂) :
    Within c c₂ where
  context := h₂.context.trans h₁.context
  extent :=
    { top := Nat.le_trans h₁.extent.top h₂.extent.top
      globalLength := Nat.le_trans h₁.extent.globalLength h₂.extent.globalLength
      literalLength := Nat.le_trans h₁.extent.literalLength h₂.extent.literalLength }
  literals h := h₂.literals (h₁.literals h)

/-- A step that leaves the context and the storage alone. -/
theorem Within.of_same {c c' : Compilation} (hcontext : c'.context = c.context)
    (htop : c'.frame.top = c.frame.top) (hglobal : c'.frame.globalLength = c.frame.globalLength)
    (hliterals : c'.literals = c.literals) : Within c c' where
  context := hcontext
  extent := ⟨Nat.le_of_eq htop.symm, Nat.le_of_eq hglobal.symm, by
    show c.literals.bytes.size ≤ c'.literals.bytes.size
    exact Nat.le_of_eq (by rw [hliterals])⟩
  literals h := hliterals ▸ h

instance : Steady Extends where
  refl _ := { toWithin := .of_same rfl rfl rfl rfl, blocks := rfl, registers := rfl }
  trans h₁ h₂ :=
    { toWithin := h₁.toWithin.trans h₂.toWithin
      blocks := h₂.blocks.trans h₁.blocks
      registers := h₂.registers.trans h₁.registers }
  depth h := ⟨h.blocks, congrArg Scopes.depth h.scopes⟩

variable {c : Compilation}

/-! ## Emitting, taking storage, pooling -/

theorem safe_modifyGet {R : Compilation → Compilation → Prop} {Q : α → Compilation → Prop}
    {g : Compilation → α × Compilation} (hR : R c (g c).2) (hQ : Q (g c).1 (g c).2) :
    Safe R (modifyGet g) c Q where
  emissions _ he := absurd he List.not_mem_nil
  yields hm := by
    have heq := yields_modifyGet.mp hm
    rw [heq] at hR hQ
    exact ⟨hR, hQ⟩
  fails hm := by cases hm

theorem safe_modify {R : Compilation → Compilation → Prop} {Q : PUnit → Compilation → Prop}
    {g : Compilation → Compilation} (hR : R c (g c)) (hQ : Q ⟨⟩ (g c)) :
    Safe R (modify g) c Q := safe_modifyGet (g := fun c => (PUnit.unit, g c)) hR hQ

theorem safe_emit {i : Instr} {region : Nat}
    (hreads : ∀ a ∈ i.reads c.registry.pointerSize, c.extent.Holds a)
    (hwrites : ∀ a ∈ i.writes c.registry.pointerSize region, c.extent.Holds a)
    (hpermitted : i.Permitted c.registry c.scopes) :
    Safe Extends (emit i region) c fun _ c' => c'.extent = c.extent where
  emissions e he := by
    have he : e ∈ [(⟨i, region, c.extent, c.scopes, c.registry⟩ : Emission)] := he
    rw [List.mem_singleton.mp he]
    exact ⟨List.forall_mem_append.mpr ⟨hreads, hwrites⟩, hpermitted⟩
  yields hm := by
    have hc : _ = { c with frame := c.frame.emit i } :=
      (yields_modifyFrame (f := (·.emit i))).mp hm
    subst hc
    exact ⟨{ toWithin := .of_same rfl rfl rfl rfl, blocks := rfl, registers := rfl }, rfl⟩
  fails hm := by cases hm

/-- What follows an instruction finds the storage as it was. -/
theorem safe_emit_bind {i : Instr} {f : Unit → CompileM α} {Q : α → Compilation → Prop}
    (hreads : ∀ a ∈ i.reads c.registry.pointerSize, c.extent.Holds a)
    (hwrites : ∀ a ∈ i.writes c.registry.pointerSize, c.extent.Holds a)
    (hpermitted : i.Permitted c.registry c.scopes)
    (hf : ∀ c₁, Extends c c₁ → c₁.extent = c.extent → Safe Extends (f ()) c₁ Q) :
    Safe Extends (emit i >>= f) c Q :=
  (safe_emit hreads hwrites hpermitted).bind fun _ c₁ h₁ heq => hf c₁ h₁ heq

/-- Jumps and labels touch no storage. -/
theorem safe_emitLabel {l : Label} :
    Safe Extends (emitLabel l) c fun _ c' => c'.extent = c.extent :=
  safe_emit (List.forall_mem_nil _) (List.forall_mem_nil _) trivial

theorem safe_emitGoto {l : Label} :
    Safe Extends (emitGoto l) c fun _ c' => c'.extent = c.extent :=
  safe_emit (List.forall_mem_nil _) (List.forall_mem_nil _) trivial

theorem safe_alloc {n : Nat} :
    Safe Extends (alloc n) c fun a c' =>
      a = .frame c.frame.top ∧ c'.frame.top = c.frame.top + n := by
  refine safe_modifyGet ?_ ⟨rfl, rfl⟩
  exact
    { context := rfl
      extent := ⟨Nat.le_add_right .., Nat.le_refl _, Nat.le_refl _⟩
      literals := id
      blocks := rfl
      registers := rfl }

/-- Fresh storage has all its bytes. -/
theorem safe_alloc_fresh {n : Nat} :
    Safe Extends (alloc n) c fun a c' => c'.extent.Holds (a, n) := by
  refine safe_alloc.mono fun a c' _ ⟨ha, htop⟩ => ?_
  rw [ha]
  show c.frame.top + n ≤ c'.frame.top
  omega

theorem safe_allocFor {t : Ty} :
    Safe Extends (allocFor t) c fun a c' =>
      a = .frame c.frame.top ∧ c'.frame.top = c.frame.top + c.registry.length t :=
  .lengthOf_bind safe_alloc

theorem safe_intern {l : Literal} (h : c.literals.Inside) :
    Safe Extends (intern l) c fun a c' => c'.extent.Holds (a, l.encode.length) := by
  obtain ⟨hinside, hle, offset, hplace, hfits⟩ := h.intern l
  refine safe_modifyGet ?_ ?_
  · exact
      { context := rfl
        extent := ⟨Nat.le_refl _, Nat.le_refl _, hle⟩
        literals := fun _ => hinside
        blocks := rfl
        registers := rfl }
  · show Extent.Holds _ ((c.literals.intern l).1, _)
    rw [hplace]
    exact hfits

theorem safe_freshLabel {k : LabelKind} :
    Safe Extends (freshLabel k) c fun _ c' => c'.extent = c.extent :=
  safe_modifyGet
    { toWithin := .of_same rfl rfl rfl rfl, blocks := rfl, registers := rfl } rfl

theorem safe_warn {caution : Caution} {span : Span} :
    Safe Extends (warn caution span) c fun _ c' => c'.extent = c.extent := by
  refine safe_modify ?_ ?_
  · split
    · exact { toWithin := .of_same rfl rfl rfl rfl, blocks := rfl, registers := rfl }
    · exact Steady.refl c
  · split <;> rfl

/-! ## Registers and blocks -/

/-- A step with a register, of which there is one left. What is promised is about the storage. -/
theorem safe_withRegister {body : Register → CompileM α} {P : α → Extent → Prop}
    (hfree : 0 < c.frame.freeRegisters.length)
    (hbody : ∀ reg c₁, Within c c₁ → c₁.extent = c.extent →
      c.frame.freeRegisters.length = c₁.frame.freeRegisters.length + 1 →
      Safe Extends (body reg) c₁ fun a c' => P a c'.extent) :
    Safe Extends (withRegister body) c fun a c' => P a c'.extent := by
  cases hregs : c.frame.freeRegisters with
  | nil =>
    rw [hregs] at hfree
    cases hfree
  | cons reg rest =>
    have hacquire : c.frame.acquire = .ok (reg, { c.frame with freeRegisters := rest }) := by
      unfold Frame.acquire
      rw [hregs]
    refine .narrow (R := SameDepth) ?_
    unfold withRegister
    refine .get_bind ?_
    rw [hacquire]
    show Safe SameDepth (pure _ >>= _) c _
    rw [pure_bind]
    refine (safe_modify ⟨rfl, rfl⟩ rfl : Safe SameDepth _ c fun _ c' =>
      c' = { c with frame := { c.frame with freeRegisters := rest } }).bind ?_
    rintro _ _ - rfl
    -- The body has one register less, and it gives back what it takes.
    have hrun := hbody reg { c with frame := { c.frame with freeRegisters := rest } }
      (.of_same rfl rfl rfl rfl) rfl (by rw [hregs]; rfl)
    refine ((hrun.mono fun a c' hR hP => And.intro hR hP).widen fun c' hR =>
      Steady.depth hR).bind fun a c₂ _ ⟨hext, hP⟩ => ?_
    refine (safe_modify ⟨rfl, rfl⟩ rfl : Safe SameDepth _ c₂ fun _ c' =>
      c' = { c₂ with frame := c₂.frame.release reg }).bind ?_
    rintro _ _ - rfl
    refine .pure ⟨?_, hP⟩
    exact
      { context := hext.context
        extent := hext.extent
        literals := hext.literals
        blocks := hext.blocks
        registers := by rw [hregs]; exact congrArg (reg :: ·) hext.registers }

/-- A block gives its frame back; literals and globals stay. -/
theorem extends_closed (c₀ : Compilation) {c₁ : Compilation} (hcontext : c₀.context = c.context)
    (hextent : c.extent.Le c₀.extent) (hliterals : c₀.literals = c.literals)
    (hregisters : c₀.frame.freeRegisters = c.frame.freeRegisters)
    (hdepth : c₀.frame.depth = c.frame.depth + 1) (h : Extends c₀ c₁) :
    Extends c (closed c c₁) where
  context := h.context.trans hcontext
  extent := ⟨Nat.le_refl _, Nat.le_trans hextent.globalLength h.extent.globalLength,
    Nat.le_trans hextent.literalLength h.extent.literalLength⟩
  literals hc := h.literals (hliterals ▸ hc)
  blocks := depth_closed (h.blocks.trans hdepth)
  registers := h.registers.trans hregisters

/-- A step whose temporaries are given back, if what is promised is not about the state. -/
theorem safe_withTemps {body : CompileM α} {P : α → Prop}
    (hbody : ∀ c₁, Within c c₁ → c₁.extent = c.extent →
      c₁.frame.freeRegisters = c.frame.freeRegisters →
      Safe Extends body c₁ fun a _ => P a) :
    Safe Extends (withTemps body) c fun a _ => P a := by
  refine .bracket (fun _ c₁ => closed c c₁)
    (hbody (opened c) (.of_same rfl rfl rfl rfl) rfl rfl) (fun _ h => Steady.depth h)
    (emissions_withTemps body c) ?_ ?_ ?_
  · intro o c₁ hrun hsame
    exact run_withTemps hrun hsame.blocks
  · intro a c₁ hext hP
    exact ⟨extends_closed (opened c) rfl (.refl _) rfl rfl rfl hext, hP⟩
  · intro e c₁ hsame
    exact ⟨depth_closed hsame.blocks, hsame.scopes⟩

/-- A step that is run for its result alone. -/
theorem safe_probe {body : CompileM α} {P : α → Prop}
    (hbody : ∀ c₁, Within c c₁ → c₁.extent = c.extent →
      c₁.frame.freeRegisters = c.frame.freeRegisters →
      Safe Extends body c₁ fun a _ => P a) :
    Safe Extends (probe body) c fun a _ => P a := by
  refine .bracket (fun _ c₁ => forgotten c c₁)
    (hbody (mutedIn c) (.of_same rfl rfl rfl rfl) rfl rfl) (fun _ h => Steady.depth h)
    (emissions_probe body c) ?_ ?_ ?_
  · intro o c₁ hrun hsame
    exact run_probe hrun hsame.blocks
  · intro a c₁ hext hP
    have hquiet : Extends c₁ { c₁ with
        muted := c₁.muted - 1, frame := c₁.frame.truncate c.frame.code.size } :=
      { toWithin := .of_same rfl rfl rfl rfl, blocks := rfl, registers := rfl }
    exact ⟨extends_closed (mutedIn c) rfl (.refl _) rfl rfl rfl (Steady.trans hext hquiet), hP⟩
  · intro e c₁ hsame
    exact ⟨depth_closed hsame.blocks, hsame.scopes⟩

end CompileM

end ClassLang
