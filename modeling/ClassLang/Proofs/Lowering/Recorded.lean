import ClassLang.Proofs.Lowering.Brackets
import ClassLang.Proofs.Lowering.Emission
import ClassLang.Proofs.Lowering.Functions
import ClassLang.Proofs.Lowering.Restored
import ClassLang.Proofs.Registration.Scopes

/-!
# Code is what was emitted

A step that succeeds leaves the code that was there before it, and behind it nothing but
instructions that it emitted. So what is known about emissions holds for code. They were emitted
with the registry from before the step, and no natives were visible but those that might have been
visible before it: inside of a step scopes are opened and closed, and variables and template
parameters are defined.
-/

-- The instances of long steps are large terms.
set_option synthInstance.maxSize 1000

namespace ClassLang

open CompileM

namespace CompileM

variable {α : Type} {c : Compilation}

/-- A step with a register emits what its body emits. -/
theorem emissions_withRegister {body : Register → CompileM α} {reg : Register}
    {rest : List Register} (hregs : c.frame.freeRegisters = reg :: rest) :
    emissions (withRegister body) c =
      emissions (body reg) { c with frame := { c.frame with freeRegisters := rest } } := by
  have hacquire : c.frame.acquire = .ok (reg, { c.frame with freeRegisters := rest }) := by
    unfold Frame.acquire
    rw [hregs]
  have hstep : Yields (ofInternal c.frame.acquire) c
      (reg, { c.frame with freeRegisters := rest }) c := by
    rw [hacquire]
    exact yields_conclude.mpr ⟨rfl, rfl⟩
  have hquiet : ∀ a : α, Mute (do
      modifyFrame (·.release reg)
      return a) := fun a => (mute_modify _).bind fun _ _ => rfl
  unfold withRegister
  rw [emissions_of_yields (yields_get.mpr ⟨rfl, rfl⟩), emissions_of_yields hstep]
  dsimp only
  rw [emissions_of_yields (a := ()) (yields_modifyFrame.mpr rfl), emissions_bind]
  split
  · rw [hquiet, List.append_nil]
    rfl
  · exact List.append_nil _

end CompileM

/-! ## Natives in scope -/

/-- If the name stands for a native, it is one of these. -/
def Meaning.Admits (A : Native → Prop) : Meaning → Prop
  | .native n => A n
  | _ => True

/-- No natives are in scope but these, hidden or not. -/
def Scopes.Admits (A : Native → Prop) (s : Scopes) : Prop := ∀ x ∈ s.chain, x.All (·.Admits A)

theorem Meaning.Admits.imp {A B : Native → Prop} {d : Meaning} (h : d.Admits A)
    (hAB : ∀ n, A n → B n) : d.Admits B := by
  cases d with
  | native n => exact hAB n h
  | _ => trivial

namespace Scopes

variable {A B : Native → Prop} {s s' : Scopes} {x : Scope} {name : String} {d : Meaning} {span : Span}

theorem Admits.imp (h : s.Admits A) (hAB : ∀ n, A n → B n) : s.Admits B :=
  fun x hx => (h x hx).imp fun _ hd => hd.imp hAB

theorem Admits.of_offers (h : s.Admits A) {n : Native} (hn : s.Offers n) : A n := by
  obtain ⟨name, e, hfind, hmeaning⟩ := hn
  obtain ⟨x, hx, he⟩ := exists_mem_of_find? hfind
  have hadmits := h x hx name e he
  rw [hmeaning] at hadmits
  exact hadmits

theorem Admits.push (h : s.Admits A) (hx : x.All (·.Admits A)) : (s.push x).Admits A :=
  List.forall_mem_cons.mpr ⟨hx, h⟩

theorem Admits.enter (h : s.Admits A) (kind : ScopeKind) : (s.enter kind).Admits A :=
  h.push (Scope.all_opened kind)

theorem Admits.truncate (h : s.Admits A) (n : Nat) : (s.truncate n).Admits A :=
  fun x hx => h x (mem_chain_truncate hx)

theorem Admits.define (h : s.Admits A) (hd : d.Admits A) (hdefine : s.define name d span = .ok s') :
    s'.Admits A := all_define h hd (fun _ _ _ _ => trivial) hdefine

end Scopes

/-- The instruction was emitted with this registry, when no natives were in scope but these. -/
structure Emission.Within (r : Registry) (A : Native → Prop) (e : Emission) : Prop where
  registry : e.registry = r
  scopes : e.scopes.Admits A

namespace Lowering

variable {α β : Type} {A : Native → Prop}

/-! ## Code -/

/-- What a step leaves: the registry, no new natives, and code that it emitted. -/
structure Recorded (A : Native → Prop) (m : CompileM α) (c c' : Compilation) : Prop where
  registry : c'.registry = c.registry
  scopes : c'.scopes.Admits A
  code : ∃ piece, c'.frame.code.toList = c.frame.code.toList ++ piece ∧
    ∀ i ∈ piece, ∃ e ∈ emissions m c, e.instr = i ∧ e.Within c.registry A

/-- Whenever the step succeeds, the code that it adds consists of instructions that it emitted. -/
def Records (A : Native → Prop) (α : Type) (m : CompileM α) : Prop :=
  ∀ ⦃c c' : Compilation⦄ ⦃a : α⦄, Yields m c a c' → c.scopes.Admits A → Recorded A m c c'

/-- A step that emits nothing and leaves the registry alone. -/
theorem Recorded.of_code {m : CompileM α} {c c' : Compilation} (hregistry : c'.registry = c.registry)
    (hscopes : c'.scopes.Admits A) (hcode : c'.frame.code = c.frame.code) : Recorded A m c c' where
  registry := hregistry
  scopes := hscopes
  code := ⟨[], by rw [hcode, List.append_nil], List.forall_mem_nil _⟩

/-- A step that changes the scopes at most in its body, runs it from a state with the same code. -/
theorem Recorded.of_body {m body : CompileM α} {c c₀ c₁ c' : Compilation} (h : Recorded A body c₀ c₁)
    (hemissions : emissions m c = emissions body c₀) (hbefore : c₀.registry = c.registry)
    (hcode : c₀.frame.code = c.frame.code) (hafter : c'.registry = c₁.registry)
    (hscopes : c'.scopes.Admits A) (hcode' : c'.frame.code = c₁.frame.code) : Recorded A m c c' where
  registry := hafter.trans (h.registry.trans hbefore)
  scopes := hscopes
  code := by
    rw [hcode', hemissions, ← hcode, ← hbefore]
    exact h.code

theorem records_emit (i : Instr) (region : Nat) : Records A Unit (emit i region) := by
  intro c c' _ h hc
  rw [yields_emit] at h
  subst h
  exact ⟨rfl, hc, [i], Frame.append_code .., List.forall_mem_singleton.mpr
    ⟨⟨i, region, c.extent, c.scopes, c.registry⟩, List.mem_singleton_self _, rfl, rfl, hc⟩⟩

theorem Records.bind {m : CompileM α} {f : α → CompileM β} (hm : Records A α m)
    (hf : ∀ a, Records A β (f a)) : Records A β (m >>= f) := by
  intro c c' b h hc
  obtain ⟨a, c₁, h₁, h₂⟩ := yields_bind.mp h
  have hfirst := hm h₁ hc
  have hrest := hf a h₂ hfirst.scopes
  obtain ⟨s₁, hs₁, hemitted₁⟩ := hfirst.code
  obtain ⟨s₂, hs₂, hemitted₂⟩ := hrest.code
  refine ⟨hrest.registry.trans hfirst.registry, hrest.scopes, s₁ ++ s₂,
    by rw [hs₂, hs₁, List.append_assoc], ?_⟩
  rw [emissions_of_yields h₁]
  refine List.forall_mem_append.mpr ⟨fun i hi => ?_, fun i hi => ?_⟩
  · obtain ⟨e, he, hwithin⟩ := hemitted₁ i hi
    exact ⟨e, List.mem_append_left _ he, hwithin⟩
  · obtain ⟨e, he, hwithin⟩ := hemitted₂ i hi
    rw [hfirst.registry] at hwithin
    exact ⟨e, List.mem_append_right _ he, hwithin⟩

/-- The code of a probe is thrown away. -/
theorem Records.probe {body : CompileM α} (hbody : Records A α body) :
    Records A α (CompileM.probe body) := by
  intro c c' a h hc
  simp only [CompileM.probe, pushBlock, yields_bind, yields_updateFrame, yields_get, yields_modify,
    yields_attempt, yields_modifyFrame, yields_restore, yields_conclude] at h
  obtain ⟨_, _, ⟨rfl, rfl⟩, _, c, ⟨rfl, rfl⟩, _, _, rfl, r, c₁, hrun, _, _, rfl, _, _, rfl, _, _,
    ⟨frame, hrestore, rfl⟩, hr, rfl⟩ := h
  have hend := hbody (yields_of_attempt hrun hr) hc
  obtain ⟨piece, hpiece, _⟩ := hend.code
  refine .of_code hend.registry hend.scopes ?_
  have hcode : frame.code = c₁.frame.code.take c.frame.code.size := by
    rw [Frame.code_restore hrestore]
    rfl
  apply Array.toList_inj.mp
  show frame.code.toList = c.frame.code.toList
  rw [hcode]
  simp [hpiece, Frame.pushBlock]

instance : Basic (Records A) where
  reads m _ c c' _ h hc := by
    obtain rfl : c' = c := h.keeps (f := id)
    exact .of_code rfl hc rfl
  bind hm hf := hm.bind hf
  emit i region _ _ := records_emit i region
  link i region _ := records_emit i region
  alloc n c c' _ h hc := by
    rw [yields_alloc] at h
    rw [h.2]
    exact .of_code rfl hc rfl
  intern l c c' _ h hc := by
    obtain rfl := congrArg Prod.snd (yields_modifyGet.mp h)
    exact .of_code rfl hc rfl
  warn caution span c c' _ h hc := by
    rw [warn, yields_modify] at h
    rw [h]
    split <;> exact .of_code rfl hc rfl
  defer _ c c' _ h hc := by
    rw [yields_modify] at h
    exact h ▸ .of_code rfl hc rfl
  withRegister {α body} _ hbody c c' a h hc := by
    cases hregs : c.frame.freeRegisters with
    | nil =>
      rw [Yields, run_withRegister_nil hregs] at h
      cases h
    | cons reg rest =>
      rw [Yields, run_withRegister hregs] at h
      rcases hrun : (body reg).run.run { c with frame := { c.frame with freeRegisters := rest } }
        with ⟨e | b, c₁⟩ <;> rw [hrun] at h <;> cases h
      have hend := hbody reg hrun hc
      exact hend.of_body (emissions_withRegister hregs) rfl rfl rfl hend.scopes rfl
  withTemps {α body} hbody c c' a h hc := by
    obtain ⟨c₁, frame, hrun, hrestore, rfl⟩ := yields_withTemps h
    have hend := hbody hrun hc
    exact hend.of_body (emissions_withTemps body c) rfl rfl rfl hend.scopes
      (Frame.code_restore hrestore)
  probe hbody := hbody.probe

instance : Jumps (Records A) where
  freshLabel k c c' _ h hc := by
    rw [freshLabel, yields_updateFrame] at h
    rw [h.2]
    exact .of_code rfl hc rfl
  jump i _ := records_emit i 0

theorem records_define {d : Meaning} (hd : d.Admits A) (name : String) (span : Span) :
    Records A Unit (define name d span) := by
  intro c c' _ h hc
  rw [yields_define] at h
  obtain ⟨scopes, hdefine, rfl⟩ := h
  exact .of_code rfl (hc.define hd hdefine) rfl

instance : Framed (Records A) where
  inScope {α kind body} hbody c c' a h hc := by
    obtain ⟨c₁, frame, hrun, hrestore, rfl⟩ := yields_inScope h
    have hend := hbody hrun (hc.enter kind)
    exact hend.of_body (emissions_inScope kind body c) rfl rfl rfl (hend.scopes.truncate _)
      (Frame.code_restore hrestore)
  binding name b span := records_define (d := .variable b) trivial name span
  template name t span := records_define (d := .typeParam t) trivial name span

end Lowering

end ClassLang
