import ClassLang.Proofs.Registration.Complete
import ClassLang.Proofs.Registration.Queue

/-!
# Bodies wait for their functions

A function is registered with its number, and unless it is abstract its body is queued under that
number. So a body that waits has the owner and the parameters that the signature says, and every
function that is not abstract has one. What is left of registration changes slots and linkable names
only.
-/

-- The instances of long steps are large terms.
set_option synthInstance.maxSize 1000

namespace ClassLang

open CompileM Dispatch

/-- The body is that of a function with this signature. -/
structure PendingBody.Fits (b : PendingBody) (s : Signature) : Prop where
  owner : s.owner = match b.owner with
    | some h => .classOf h
    | none => .module b.path
  names : s.paramNames = b.decl.params.map (·.name)
  params : s.params.length = b.decl.params.length

namespace PendingBody.Fits

variable {b : PendingBody} {s t : Signature}

theorem isMethod (h : b.Fits s) : s.isMethod = b.owner.isSome := by
  rw [Signature.isMethod, h.owner]
  cases b.owner <;> rfl

theorem length_names (h : b.Fits s) : s.paramNames.length = s.params.length := by
  rw [h.names, h.params, List.length_map]

/-- Slots and linkable names do not matter. -/
theorem congr (h : b.Fits s) (ht : t = { s with slot := t.slot, mangled := t.mangled }) :
    b.Fits t := by
  rw [ht]
  exact ⟨h.owner, h.names, h.params⟩

end PendingBody.Fits

/-- Functions have their numbers, and bodies are queued under the numbers of their functions. -/
structure Compilation.Paired (c : Compilation) : Prop where
  id_eq : ∀ {id s}, c.registry.function? id = some s → s.id = id
  free : ∀ {id s}, c.registry.function? id = some s → s.isMethod = false → s.isAbstract = false
  fits : ∀ {id s b}, c.registry.function? id = some s → c.bodies.find? id = some b → b.Fits s
  queued : ∀ {id s}, c.registry.function? id = some s → s.isAbstract = false →
    ∃ b, c.bodies.find? id = some b
  absent : ∀ {id}, c.registry.function? id = none → c.bodies.find? id = none

namespace Compilation.Paired

variable {c c' : Compilation} {s : Signature}

/-- One more function, whose body is queued unless the function is abstract. -/
theorem push (h : c.Paired) (hregistry : c'.registry = Registration.pushFunction c.registry s)
    (hid : s.id = c.registry.functions.size) (hfree : s.isMethod = false → s.isAbstract = false)
    (hbodies : c'.bodies = c.bodies ∧ s.isAbstract = true ∨
      ∃ b, b.Fits s ∧ c'.bodies = c.bodies.insert c.registry.functions.size b) : c'.Paired := by
  -- The number of the new function is one that nothing waits under yet.
  have hnone : c.bodies.find? c.registry.functions.size = none :=
    h.absent (Array.getElem?_eq_none (Nat.le_refl _))
  have hcases : ∀ {id t}, c'.registry.function? id = some t →
      id = c.registry.functions.size ∧ t = s ∨
        id ≠ c.registry.functions.size ∧ c.registry.function? id = some t :=
    fun ht => Registration.new_or_old_of_pushFunction (hregistry ▸ ht)
  have hother : ∀ {id}, id ≠ c.registry.functions.size →
      c'.bodies.find? id = c.bodies.find? id := by
    intro id hne
    rcases hbodies with ⟨hsame, _⟩ | ⟨b, _, hinsert⟩
    · rw [hsame]
    · rw [hinsert, Table.find?_insert_of_ne _ hne.symm]
  exact
    { id_eq := by
        intro id t ht
        rcases hcases ht with ⟨rfl, rfl⟩ | ⟨_, ht⟩
        · exact hid
        · exact h.id_eq ht
      free := by
        intro id t ht
        rcases hcases ht with ⟨rfl, rfl⟩ | ⟨_, ht⟩
        · exact hfree
        · exact h.free ht
      fits := by
        intro id t b ht hb
        rcases hcases ht with ⟨rfl, rfl⟩ | ⟨hne, ht⟩
        · rcases hbodies with ⟨hsame, _⟩ | ⟨b', hfits, hinsert⟩
          · rw [hsame, hnone] at hb
            cases hb
          · rw [hinsert, Table.find?_insert_self] at hb
            injection hb with hb
            exact hb ▸ hfits
        · exact h.fits ht (hother hne ▸ hb)
      queued := by
        intro id t ht habstract
        rcases hcases ht with ⟨rfl, rfl⟩ | ⟨hne, ht⟩
        · rcases hbodies with ⟨_, habstract'⟩ | ⟨b, _, hinsert⟩
          · rw [habstract'] at habstract
            cases habstract
          · exact ⟨b, by rw [hinsert, Table.find?_insert_self]⟩
        · rw [hother hne]
          exact h.queued ht habstract
      absent := by
        intro id ht
        rw [hregistry, Registration.function?_pushFunction] at ht
        split at ht
        · cases ht
        · rename_i hne
          exact (hother hne).trans (h.absent ht) }

/-- Slots and linkable names do not matter. -/
theorem congr (h : c.Paired) (hsigs : SameSignatures c.registry c'.registry)
    (hbodies : c'.bodies = c.bodies) : c'.Paired := by
  refine ⟨fun ht => ?_, fun ht => ?_, fun ht hb => ?_, fun ht => ?_, fun {id} ht => ?_⟩
  · obtain ⟨s, hs, heq⟩ := hsigs.exists_before ht
    have hid := h.id_eq hs
    rwa [heq]
  · obtain ⟨s, hs, heq⟩ := hsigs.exists_before ht
    have hfree := h.free hs
    rwa [heq]
  · obtain ⟨s, hs, heq⟩ := hsigs.exists_before ht
    exact (h.fits hs (hbodies ▸ hb)).congr heq
  · obtain ⟨s, hs, heq⟩ := hsigs.exists_before ht
    have hqueued := h.queued hs
    rwa [heq, hbodies]
  · have hid := hsigs id
    rw [ht, Option.map_none, eq_comm, Option.map_eq_none_iff] at hid
    rw [hbodies]
    exact h.absent hid

end Compilation.Paired

instance : Contextual Compilation.Paired where
  congr {c c'} hsame h := by
    have hregistry : c'.registry = c.registry := (congrArg Compilation.registry hsame :)
    refine h.congr (fun _ => by rw [hregistry]) (congrArg Compilation.bodies hsame :)

instance : Modular Compilation.Paired where
  enter _ h := h.congr (fun _ => rfl) rfl
  leave _ _ _ h := h.congr (fun _ => rfl) rfl

namespace Registration

variable {p : Program} {c c' : Compilation}

instance (path : String) (d : FunctionDecl) :
    Preserves Compilation.Paired (registerFunction path d) where
  keeps hc h := by
    obtain ⟨c₁, params, result, hsig, _, hdefine⟩ := registerFunction_spec h
    have hparams : params.length = d.params.length := (resolveSignature_types hsig).1
    refine (hsig.preserves hc).push
      (s := signatureOf d (.module path) params result false c₁.registry.functions.size)
      hdefine.keeps rfl (fun _ => rfl) (.inr ⟨⟨d, none, path⟩, ⟨rfl, rfl, hparams⟩, hdefine.keeps⟩)

instance (path : String) (owner : TypeHash) (d : FunctionDecl) :
    Preserves Compilation.Paired (registerMethod path owner d) where
  keeps hc h := by
    obtain ⟨_, c₁, params, result, hsig, _, rfl⟩ := registerMethod_spec h
    have hparams : params.length = d.params.length := (resolveSignature_inClass hsig).1
    refine (hsig.preserves hc).push
      (s := signatureOf d (.classOf owner) params result d.isAbstract c₁.registry.functions.size)
      rfl rfl (fun hfree => by cases hfree) ?_
    cases habstract : d.isAbstract with
    | true => exact .inl ⟨rfl, rfl⟩
    | false => exact .inr ⟨⟨d, some owner, path⟩, ⟨rfl, rfl, hparams⟩, rfl⟩

/-- When a program is registered, what waits are the bodies of its functions. -/
theorem paired_of_run {o : Options} {n : Counts} (hstart : Compilation.start o = .ok c)
    (h : Yields (run p) c n c') : c'.Paired := by
  obtain ⟨ps, ordered, methods, c₁, c₂, c₃, c₄, c₅, hsteps⟩ := yields_run h
  obtain ⟨_, hregister⟩ := hsteps.signatures
  have hnone : ∀ id, c₂.registry.function? id = none := by
    intro id
    rw [Registry.function?, (layOutAll_changes hsteps.layout).functions,
      (runHeaders_headed (declared_start hstart) hsteps.headers).declared.functionless]
    exact Array.getElem?_eq_none (Nat.zero_le _)
  have hbefore : c₂.bodies = .empty := by
    rw [← (Compilation.start_empty hstart).2.2.1]
    exact bodies_before hsteps.toTableSteps.toMemberSteps
  have habsurd : ∀ {id s} {q : Prop}, c₂.registry.function? id = some s → q := by
    intro id s q hs
    rw [hnone] at hs
    cases hs
  have hempty : c₂.Paired :=
    ⟨habsurd, habsurd, habsurd, habsurd, fun _ => by rw [hbefore, Table.find?_empty]⟩
  exact (hregister.preserves hempty).congr hsteps.sameSignatures (bodies_after hsteps)

end Registration

end ClassLang
