import ClassLang.Proofs.Lowering.Traversal

/-!
# Expressions leave the context alone

Compiling an expression emits code, takes storage, pools literals and may warn. Everything
else in the state of the compilation is only read: the registry, the scopes, the options, the
current module. This is so whether the expression compiles or not.
-/

-- The instances of long steps are large terms.
set_option synthInstance.maxSize 1000

namespace ClassLang

/-- The state without the parts that compiling an expression changes. -/
def Compilation.context (c : Compilation) : Compilation :=
  { c with
    frame := Frame.initial 0
    literals := .empty
    warnings := #[]
    muted := 0
    deferred := [] }

namespace CompileM

variable {α : Type}

/-! ## The frame, the pool and the warnings -/

instance (f : Frame → Frame) : Keeps Compilation.context (modifyFrame f) :=
  keeps_modify fun _ => rfl

instance (f : Frame → α × Frame) : Keeps Compilation.context (updateFrame f) :=
  keeps_modifyGet fun _ => rfl

instance (i : Instr) (region : Nat) : Keeps Compilation.context (emit i region) :=
  ⟨fun _ => rfl⟩

instance (n : Nat) : Keeps Compilation.context (alloc n) := by
  unfold alloc
  infer_instance

instance (k : LabelKind) : Keeps Compilation.context (freshLabel k) := by
  unfold freshLabel
  infer_instance

instance (r : Except InternalFault α) {γ : Type} (f : Compilation → γ) :
    Keeps f (ofInternal r) := by
  unfold ofInternal
  infer_instance

instance (body : Register → CompileM α) [∀ reg, Keeps Compilation.context (body reg)] :
    Keeps Compilation.context (withRegister body) := by
  unfold withRegister
  infer_instance

instance : Keeps Compilation.context pushBlock := by
  unfold pushBlock
  infer_instance

instance (k : Checkpoint) : Keeps Compilation.context (restore k) := by
  unfold restore
  infer_instance

instance (body : CompileM α) [Keeps Compilation.context body] :
    Keeps Compilation.context (withTemps body) := by
  unfold withTemps
  infer_instance

instance (l : Literal) : Keeps Compilation.context (intern l) :=
  keeps_modifyGet fun _ => rfl

instance (caution : Caution) (span : Span) : Keeps Compilation.context (warn caution span) := by
  refine keeps_modify fun c => ?_
  split <;> rfl

instance (body : CompileM α) [Keeps Compilation.context body] :
    Keeps Compilation.context (probe body) := by
  have hmute : Keeps Compilation.context
      (modify fun s => { s with muted := s.muted + 1 } : CompileM PUnit) :=
    keeps_modify fun _ => rfl
  have hunmute : Keeps Compilation.context
      (modify fun s => { s with muted := s.muted - 1 } : CompileM PUnit) :=
    keeps_modify fun _ => rfl
  unfold probe
  infer_instance

end CompileM

open CompileM

namespace Lowering

/-! ## Every step of lowering -/

/-- The step leaves the context alone. -/
def KeepsContext (α : Type) (m : CompileM α) : Prop := Keeps Compilation.context m

instance (priority := low) keeps_of_has {α : Type} (m : CompileM α) [h : Has KeepsContext m] :
    Keeps Compilation.context m := h.out

instance : Basic KeepsContext where
  reads m _ := keeps_of_reads m
  bind hm hg := @keeps_bind _ _ _ _ _ _ hm hg
  emit i region _ _ := inferInstanceAs (Keeps _ (emit i region))
  link i region _ := inferInstanceAs (Keeps _ (emit i region))
  alloc n := inferInstanceAs (Keeps _ (alloc n))
  intern l := inferInstanceAs (Keeps _ (intern l))
  warn caution span := inferInstanceAs (Keeps _ (warn caution span))
  defer _ := keeps_modify fun _ => rfl
  withRegister {_ body} _ hbody :=
    have : ∀ reg, Keeps Compilation.context (body reg) := hbody
    inferInstanceAs (Keeps _ (withRegister body))
  withTemps {_ body} hbody :=
    have : Keeps Compilation.context body := hbody
    inferInstanceAs (Keeps _ (withTemps body))
  probe {_ body} hbody :=
    have : Keeps Compilation.context body := hbody
    inferInstanceAs (Keeps _ (probe body))

instance : Jumps KeepsContext where
  freshLabel k := inferInstanceAs (Keeps _ (freshLabel k))
  jump i _ := inferInstanceAs (Keeps _ (emit i))

end Lowering

end ClassLang
