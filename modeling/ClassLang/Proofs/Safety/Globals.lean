import ClassLang.Proofs.Safety.Headers

/-!
# Between functions

When all classes and functions are registered, globals are, then bodies are compiled one after the
other, then the entry section. Before and after each of these steps the state is *at rest*: no
function is being compiled, variables that are visible lie in the global storage, and what waits to
be compiled can be. In such a state an expression can be compiled, in any module.
-/

namespace ClassLang

open CompileM Lowering Registration

variable {α : Type} {r : Registry} {c c' c₁ : Compilation} {path : String}

/-- The slot is a part of the first `n` bytes of the global storage. -/
def Registry.Stored (r : Registry) (n : Nat) (s : Slot) : Prop :=
  ∃ k, s.address = .global k ∧ k + r.length s.type ≤ n ∧ r.Knows s.type

theorem Registry.Stored.mono {n m : Nat} {s : Slot} (h : r.Stored n s) (hle : n ≤ m) :
    r.Stored m s := by
  obtain ⟨k, hk, hend, hknown⟩ := h
  exact ⟨k, hk, Nat.le_trans hend hle, hknown⟩

theorem Registry.Stored.held {s : Slot} (h : r.Stored c.frame.globalLength s) :
    Held r c.extent s := by
  obtain ⟨k, hk, hend, hknown⟩ := h
  refine ⟨?_, hknown⟩
  rw [hk]
  exact hend

/-- The variable is a global one. -/
def Registry.IsGlobal (r : Registry) (n : Nat) (b : Binding) : Prop := r.Stored n ⟨b.type, b.address⟩

/-- The global variable has its storage, and there can be values of its type. -/
structure PendingGlobal.Placed (r : Registry) (n : Nat) (g : PendingGlobal) : Prop where
  stored : r.Stored n ⟨g.type, g.address⟩
  concrete : r.Concrete g.type

theorem PendingGlobal.Placed.mono {n m : Nat} {g : PendingGlobal} (h : g.Placed r n) (hle : n ≤ m) :
    g.Placed r m := ⟨h.stored.mono hle, h.concrete⟩

/-- No function is being compiled, and all that is visible can be used. -/
structure AtRest (r : Registry) (c : Compilation) : Prop where
  registry : c.registry = r
  sound : r.Sound
  closed : r.Closed
  blocks : c.frame.depth = 0
  registers : 2 ≤ c.frame.freeRegisters.length
  literals : c.literals.Inside
  outer : c.Outer (r.IsGlobal c.frame.globalLength)
  topmost : c.Topmost
  globals : ∀ g ∈ c.globals, g.Placed r c.frame.globalLength
  waiting : c.Waiting

namespace AtRest

theorem usable (h : AtRest r c) {name : String} {e : Entry} (he : c.scopes.find? name = some e) :
    e.meaning.Usable r c.extent := by
  have houter := h.outer.find? he
  refine ⟨h.registry ▸ houter.registered, fun b hb => ?_⟩
  rw [hb] at houter
  exact Registry.Stored.held houter

/-- An expression can be compiled. -/
theorem ready (h : AtRest r c) : Ready r c where
  registry := h.registry
  sound := h.sound
  registers := h.registers
  literals := h.literals
  names _ _ he := h.usable he
  receiver hmethod := by
    rw [Scopes.receiverClass?, h.topmost.function?_eq_none] at hmethod
    cases hmethod
  result f hf := by
    rw [h.topmost.function?_eq_none] at hf
    cases hf

/-- What is visible and what is left to do may change, as long as it can be used. -/
theorem after (h : AtRest r c) (hd : Drafts c c') (hr : c'.registry = c.registry)
    (houter : c'.Outer (r.IsGlobal c'.frame.globalLength))
    (hglobals : ∀ g ∈ c'.globals, g.Placed r c'.frame.globalLength) : AtRest r c' where
  registry := hr.trans h.registry
  sound := h.sound
  closed := h.closed
  blocks := hd.blocks.trans h.blocks
  registers := hd.registers ▸ h.registers
  literals := hd.literals h.literals
  outer := houter
  topmost := hd.topmost h.topmost
  globals := hglobals
  waiting := hd.waiting h.waiting

theorem of_context (h : AtRest r c) (hd : Drafts c c') (hcontext : c'.context = c.context) :
    AtRest r c' := by
  have hglobals : c'.globals = c.globals := (congrArg Compilation.globals hcontext :)
  refine h.after hd (congrArg Compilation.registry hcontext :) ?_ fun g hg => ?_
  · exact (h.outer.of_context hcontext).mono (fun _ hb => Registry.Stored.mono hb hd.globals)
      rfl rfl (.refl _)
  · exact (h.globals g (hglobals ▸ hg)).mono hd.globals

theorem of_extends (h : AtRest r c) (hx : Extends c c') : AtRest r c' := h.of_context hx.drafts hx.context

/-- The listing does not matter. -/
theorem with_listing (h : AtRest r c) (listing : Listing) : AtRest r { c with listing := listing } :=
  ⟨h.registry, h.sound, h.closed, h.blocks, h.registers, h.literals,
    h.outer.mono (fun _ hb => hb) rfl rfl (.refl _), h.topmost.of_same rfl rfl, h.globals, h.waiting⟩

theorem entered (h : AtRest r c) (path : String) : AtRest r (c.entered path) :=
  ⟨h.registry, h.sound, h.closed, h.blocks, h.registers, h.literals, h.outer.entered path,
    h.topmost.entered path, h.globals, h.waiting⟩

/-- Leaving a module. -/
theorem exited {a : α} (h : AtRest r c₁) (hdepth : c₁.scopes.depth = c.scopes.depth + 1) :
    AtRest r (exited path (.ok a) c c₁) where
  registry := h.registry
  sound := h.sound
  closed := h.closed
  blocks := h.blocks
  registers := h.registers
  literals := h.literals
  outer := by
    have hleft := h.outer.left path c.path (pop_entered hdepth)
    exact ⟨hleft.scopes, hleft.modules⟩
  topmost := topmost_exited h.topmost
  globals := h.globals
  waiting := h.waiting

end AtRest

namespace CompileM

/-- A step of an expression, among steps that change more. -/
theorem Safe.extended {m : CompileM α} {Q : α → Compilation → Prop} (h : Safe Extends m c Q) :
    Safe Drafts m c fun a c' => Extends c c' ∧ Q a c' :=
  (h.mono fun _ _ hx hQ => ⟨hx, hQ⟩).widen fun _ => Extends.drafts

/-- A step in a module, from rest to rest. -/
theorem safe_inModule_atRest {body : CompileM α} (h : AtRest r c)
    (hbody : AtRest r (c.entered path) →
      Safe Drafts body (c.entered path) fun _ c' => AtRest r c') :
    Safe Drafts (inModule path body) c fun _ c' => AtRest r c' :=
  safe_inModule (hbody (h.entered path)) fun _ _ hd hrest => hrest.exited hd.scopes

/-! ## Registering globals -/

theorem safe_registerGlobal {d : VarDecl} (h : AtRest r c) :
    Safe Drafts (registerGlobal path d) c fun _ c' => AtRest r c' := by
  have hgo : Safe Drafts (do
      let type ← declaredType d
      let length ← lengthOf type
      let address ← updateFrame (·.allocGlobal length)
      defineTopLevel d.name.name (.variable ⟨type, address, d.isConst, d.span⟩) d.span
      modify fun s => { s with globals := s.globals ++ [⟨address, type, d.init, path⟩] }) c
      fun _ c' => AtRest r c' := by
    refine (safe_declaredType h.ready).extended.bind
      fun t c₁ _ ⟨hx, ht, hconcrete⟩ => .lengthOf_bind ?_
    have h₁ := h.of_extends hx
    have hlength : c₁.registry.length t = r.length t := by rw [h₁.registry]
    -- The storage is added at the end, and then the name gets its meaning.
    refine (safe_modifyGet (Q := fun a c' => AtRest r c' ∧
      r.Stored c'.frame.globalLength ⟨t, a⟩) (R := Drafts) ?_ ?_).bind fun a c₂ _ ⟨h₂, ha⟩ => ?_
    · exact ⟨⟨rfl, rfl⟩, rfl, Nat.le_add_right .., fun hl => hl, fun _ hh => hh, fun hw => hw,
        fun ht => ht.of_same rfl rfl⟩
    · refine ⟨⟨h₁.registry, h₁.sound, h₁.closed, h₁.blocks, h₁.registers, h₁.literals, ?_, ?_, ?_,
        h₁.waiting⟩, c₁.frame.globalLength, rfl, Nat.le_of_eq ?_, ht⟩
      · exact h₁.outer.mono (fun _ hb => Registry.Stored.mono hb (Nat.le_add_right ..)) rfl rfl
          (.refl _)
      · exact h₁.topmost.of_same rfl rfl
      · exact fun g hg => (h₁.globals g hg).mono (Nat.le_add_right ..)
      · exact congrArg (c₁.frame.globalLength + ·) hlength.symm
    · refine (safe_defineTopLevel.traced.bind (P := fun _ c' => AtRest r c') fun _ c₃ h₃ hstep => ?_)
      have hkept : c₃.registry = c₂.registry := hstep.1.keeps
      have hframe : c₃.frame = c₂.frame := hstep.1.keeps
      have hglobals : c₃.globals = c₂.globals := hstep.1.keeps
      have houter := (outside_defineTopLevel (b := c₂.deferring) ⟨h₂.outer, rfl⟩
        (d := .variable ⟨t, a, d.isConst, d.span⟩) ha hstep.1).1
      have hrest : AtRest r c₃ := h₂.after h₃ hkept (hframe ▸ houter)
        (hframe ▸ hglobals ▸ h₂.globals)
      refine safe_modify (.of_same rfl rfl rfl rfl rfl fun _ hh => hh) ?_
      refine ⟨hrest.registry, hrest.sound, hrest.closed, hrest.blocks, hrest.registers,
        hrest.literals, hrest.outer.mono (fun _ hb => hb) rfl rfl (.refl _),
        hrest.topmost.of_same rfl rfl, fun g hg => ?_, hrest.waiting⟩
      rcases List.mem_append.mp hg with hg | hg
      · exact hrest.globals g hg
      · rw [List.mem_singleton.mp hg]
        exact ⟨hframe ▸ ha, hconcrete⟩
  unfold registerGlobal
  split
  · exact .fail_bind
  · exact hgo

theorem safe_registerGlobals : ∀ {items : List Item} {c : Compilation}, AtRest r c →
    Safe Drafts (registerGlobals path items) c fun _ c' => AtRest r c'
  | [], c, h => by
    unfold registerGlobals
    exact .pure h
  | item :: rest, c, h => by
    cases item with
    | global d =>
      unfold registerGlobals
      exact (safe_registerGlobal h).bind fun _ _ _ h₁ =>
        (safe_registerGlobals h₁).bind fun _ _ _ h₂ => .pure h₂
    | _ =>
      unfold registerGlobals
      exact safe_registerGlobals h

theorem safe_registerAllGlobals : ∀ {ms : List Module} {c : Compilation}, AtRest r c →
    Safe Drafts (registerAllGlobals ms) c fun _ c' => AtRest r c'
  | [], c, h => by
    unfold registerAllGlobals
    exact .pure h
  | m :: ms, c, h => by
    unfold registerAllGlobals
    exact (safe_inModule_atRest h safe_registerGlobals).bind fun _ _ _ h₁ =>
      (safe_registerAllGlobals h₁).bind fun _ _ _ h₂ => .pure h₂

end CompileM

end ClassLang
