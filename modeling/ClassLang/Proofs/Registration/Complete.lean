import ClassLang.Proofs.Registration.Bounds
import ClassLang.Proofs.Registration.Overloads

/-!
# Functions of an accepted program

When functions are registered, what is left to do is to build method tables, to give linkable names
and to register globals. None of it touches what a signature says or what a name stands for. So in
the end functions with the same owner and the same name have different parameters: those of a module
were compared when they were registered, and those of a class when its table was built.
-/

-- The instances of long steps are large terms.
set_option synthInstance.maxSize 1000

namespace ClassLang

open CompileM Dispatch

/-! ## What signatures say -/

/-- A signature is there before if it is there afterwards, and says the same. -/
theorem Dispatch.SameSignatures.exists_before {r r' : Registry} (h : SameSignatures r r') {id : Nat}
    {s : Signature} (hs : r'.function? id = some s) :
    ∃ s₀, r.function? id = some s₀ ∧ s = { s₀ with slot := s.slot, mangled := s.mangled } := by
  have hid := h id
  rw [hs, Option.map_some, eq_comm, Option.map_eq_some_iff] at hid
  obtain ⟨s₀, hs₀, heq⟩ := hid
  have hback := congrArg (fun t : Signature => { t with slot := s.slot, mangled := s.mangled }) heq
  exact ⟨s₀, hs₀, hback.symm⟩

namespace Registration

variable {p : Program} {c c' : Compilation}

theorem grows_of_sameSignatures {r r' : Registry} (h : SameSignatures r r')
    (hclass : ∀ k, (r'.class? k).map Class.name = (r.class? k).map Class.name) : r.Grows r' where
  classes {k d} hd := by
    have hk := hclass k
    rw [hd, Option.map_some, Option.map_eq_some_iff] at hk
    exact hk
  functions {id s} hs := by
    have hid := h id
    rw [hs, Option.map_some, Option.map_eq_some_iff] at hid
    obtain ⟨s', hs', heq⟩ := hid
    simp only [Signature.mk.injEq] at heq
    exact ⟨s', hs', heq.2.1, heq.2.2.2.1⟩

/-! ## After functions are registered -/

/-- An invariant that neither slots nor tables nor linkable names matter to. -/
class Completable (I : Compilation → Prop) : Prop where
  of_registry : ∀ {c : Compilation} {r : Registry}, I c → SameSignatures c.registry r →
    (∀ k, (r.class? k).map Class.name = (c.registry.class? k).map Class.name) →
      I { c with registry := r }

section Tables

variable {I : Compilation → Prop} [Contextual I] [Modular I] [hI : Completable I]

instance (p : PendingClass) (own : List OwnMethod) : Preserves I (buildMethodTable p own) := by
  have hslots : ∀ k, Preserves I (updateRegistry fun r => methodTable r k own) := by
    refine fun k => ⟨fun {c c' _} hc h => ?_⟩
    obtain ⟨_, rfl⟩ := yields_updateRegistry.mp h
    obtain ⟨next, hnext⟩ := methodTable_registry c.registry k own
    rw [hnext]
    exact hI.of_registry hc (fun _ => rfl) fun _ => rfl
  have hslot : ∀ m : Method, Preserves I
      (modifyRegistry (·.modifyFunction m.function fun s => { s with slot := some m.slot })) :=
    fun m => .modify fun c hc =>
      hI.of_registry hc (sameSignatures_modifyFunction fun _ => rfl) fun _ => rfl
  have htable : ∀ t : MethodTable, Preserves I (modifyClass p.hash fun c =>
      { c with methods := t.methods, ranks := t.ranks, vtable := t.vtable }) := by
    refine fun t => ⟨fun {c c' _} hc h => ?_⟩
    obtain ⟨_, rfl⟩ := yields_modifyClass.mp h
    refine hI.of_registry hc (fun _ => rfl) fun k => ?_
    rw [Registry.class?_modifyClass]
    split
    · rename_i hk
      rw [hk, Option.map_map]
      rfl
    · rfl
  unfold buildMethodTable
  infer_instance

instance (methods : List (TypeHash × OwnMethod)) (ps : List PendingClass) :
    Preserves I (buildMethodTables methods ps) := by
  unfold buildMethodTables
  infer_instance

omit [Contextual I] [Modular I] in
instance : Preserves I assignLinkNames where
  keeps hc h := by
    simp only [assignLinkNames, yields_bind, yields_askRegistry, yields_modifyRegistry] at h
    obtain ⟨_, _, ⟨hassign, rfl⟩, rfl⟩ := h
    obtain ⟨hclass, hsigs, _⟩ := assignAll_effect hassign
    exact hI.of_registry hc hsigs fun k => by rw [hclass]

end Tables

instance (V : Binding → Prop) (b : Bool) : Completable (Compilation.Outside V b) where
  of_registry hc hsigs hclass := hc.mono rfl rfl rfl (grows_of_sameSignatures hsigs hclass)

/-- Every function that is not abstract has a body that waits to be compiled. -/
def Queued (c : Compilation) : Prop :=
  ∀ id s, c.registry.function? id = some s → s.isAbstract = false →
    ∃ body, c.bodies.find? id = some body

/-- What names stand for, and which bodies wait, after functions are registered. -/
def Completing (c : Compilation) : Prop := c.Outside (fun _ => True) false ∧ Queued c

namespace Completing

instance : Completable Completing where
  of_registry h hsigs hclass := by
    refine ⟨Completable.of_registry h.1 hsigs hclass, ?_⟩
    intro id s hs habstract
    obtain ⟨s₀, hs₀, heq⟩ := hsigs.exists_before hs
    refine h.2 id s₀ hs₀ ?_
    rw [heq] at habstract
    exact habstract

instance : Contextual Completing where
  congr {c c'} hsame hc := by
    refine ⟨Contextual.congr hsame hc.1, ?_⟩
    have hregistry : c'.registry = c.registry := (congrArg Compilation.registry hsame :)
    have hbodies : c'.bodies = c.bodies := (congrArg Compilation.bodies hsame :)
    unfold Queued
    rw [hregistry, hbodies]
    exact hc.2

instance : Modular Completing where
  enter path hc := ⟨Modular.enter path hc.1, hc.2⟩
  leave path before hpop hc := ⟨Modular.leave path before hpop hc.1, hc.2⟩

end Completing

instance (path : String) (d : VarDecl) : Preserves Completing (registerGlobal path d) := by
  have hdefine : ∀ b, Preserves Completing
      (defineTopLevel d.name.name (.variable b) d.span) := by
    refine fun b => ⟨fun {c c' _} hc h => ⟨outside_defineTopLevel hc.1 (d := .variable b) trivial h, ?_⟩⟩
    simp only [defineTopLevel, yields_bind, yields_define, yields_updateScopes] at h
    obtain ⟨_, _, ⟨_, _, rfl⟩, _, _, rfl⟩ := h
    exact hc.2
  have hpush : ∀ g, Preserves Completing
      (modify fun s => { s with globals := s.globals ++ [g] } : CompileM PUnit) :=
    fun g => .modify fun c hc => ⟨hc.1.mono rfl rfl rfl (.refl _), hc.2⟩
  unfold registerGlobal
  dsimp only
  infer_instance

instance preserves_registerGlobals (path : String) :
    ∀ items : List Item, Preserves Completing (registerGlobals path items)
  | [] => by
    unfold registerGlobals
    infer_instance
  | item :: rest => by
    have := preserves_registerGlobals path rest
    cases item <;> unfold registerGlobals <;> infer_instance

instance preserves_registerAllGlobals :
    ∀ ms : List Module, Preserves Completing (registerAllGlobals ms)
  | [] => by
    unfold registerAllGlobals
    infer_instance
  | m :: ms => by
    have := preserves_registerAllGlobals ms
    unfold registerAllGlobals
    infer_instance

/-! ## Accepted programs -/

section Steps

variable {o : Options} {ps ordered : List PendingClass} {methods : List (TypeHash × OwnMethod)}
  {c₁ c₂ c₃ c₄ c₅ : Compilation}

/-- What holds when all functions are registered. -/
theorem functions_of_steps (hstart : Compilation.start o = .ok c)
    (hnames : ∀ n ∈ p.names, IsIdentifier n)
    (h : Steps p ps ordered methods c c₁ c₂ c₃ c₄ c₅ c') : Functions p c₃.moduleScopes c₃ := by
  have hd := declared_start hstart
  obtain ⟨b₁, b₂, b₃, b₄, hheaders⟩ := yields_runHeaders h.headers
  have hchanges := hheaders.changes hd
  have hlaid := layOutAll_changes h.layout
  have hsame : SameHeaders c₁.registry c₂.registry :=
    (hlaid.coarsen header (φ := header) fun _ => rfl).shown
  have houtside : c₁.Outside (fun _ => False) false :=
    (runHeaders_written hd (outside_start hstart) h.headers).1
  have hidentified : c₁.registry.Identified :=
    identified_of_headers hnames hd (bare_start hstart) hheaders
  have hunique : c₁.registry.NamesUnique := by
    refine Registry.NamesUnique.congr
      (hheaders.declared.preserves (namesClasses_start hstart)).unique ?_
    have hresolved := hchanges.resolved.coarsen (φ := Class.name) Class.name fun _ => rfl
    exact (hresolved.trans (hchanges.kept Class.name (fun _ => rfl) fun _ => rfl)).shown
  -- No function is registered before the signatures are, so nothing is asked of any.
  have hnone : ∀ id, c₂.registry.function? id = none := by
    intro id
    rw [Registry.function?, hlaid.functions,
      (runHeaders_headed hd h.headers).declared.functionless]
    exact Array.getElem?_eq_none (Nat.zero_le _)
  have habsurd : ∀ {id s} {q : Prop}, c₂.registry.function? id = some s → q := by
    intro id s q hs
    rw [hnone] at hs
    cases hs
  obtain ⟨_, hregister⟩ := h.signatures
  refine Functions.registerModules (fun _ hm => hm) ?_ hregister
  exact ⟨h.layout.preserves houtside, Registry.Identified.congr hidentified hsame,
    Registry.NamesUnique.congr hunique (hlaid.coarsen (φ := Class.name) Class.name fun _ => rfl).shown,
    habsurd, habsurd, ⟨habsurd, habsurd⟩⟩

/-- Methods of a class that share a name have different parameters. -/
theorem methods_different (hstart : Compilation.start o = .ok c)
    (h : Steps p ps ordered methods c c₁ c₂ c₃ c₄ c₅ c') (hf : Functions p c₃.moduleScopes c₃)
    {id id' : Nat} {s s' : Signature} {k : TypeHash} (hs : c₃.registry.function? id = some s)
    (hs' : c₃.registry.function? id' = some s') (howner : s.owner = .classOf k)
    (howner' : s'.owner = .classOf k) (hname : s.name = s'.name) (hparams : s.params = s'.params) :
    id = id' := by
  have hd := declared_start hstart
  have hh := runHeaders_headed hd h.headers
  obtain ⟨_, hregister⟩ := h.signatures
  have hregisters := registerModules_registers hregister
  have hprogress := h.progress hd
  -- The class is one of those that the program declares.
  have hpending : Pending ordered k := by
    obtain ⟨d, hdecl, e, he, hename⟩ := (hf.registered hs).owner k howner
    obtain ⟨b₁, b₂, b₃, b₄, hheaders⟩ := yields_runHeaders h.headers
    rw [show p.classes = ps.map (·.decl) from (declareModules_decls hheaders.declared).symm] at hdecl
    obtain ⟨q, hq, rfl⟩ := List.mem_map.mp hdecl
    obtain ⟨e₁, he₁, hename₁⟩ := hh.declared.registered q hq
    obtain ⟨e₃, he₃, hsame⟩ := h.sameHeaders.exists_class he₁
    have hename₃ : e₃.name = e₁.name := (congrArg Class.name hsame :)
    exact ⟨q, hh.perm.mem_iff.mpr hq,
      hf.unique he₃ he (hename₃.trans (hename₁.trans hename.symm))⟩
  obtain ⟨e, he⟩ : ∃ e, c₄.registry.class? k = some e := by
    obtain ⟨_, _, e, he, _⟩ := (hf.registered hs).owner k howner
    obtain ⟨e', he', _⟩ := hprogress.headers.exists_class he
    exact ⟨e', he'⟩
  obtain ⟨_, htabled⟩ := hprogress.tabled k e he hpending
  have hlisted : ∀ {id s}, c₃.registry.function? id = some s → s.owner = .classOf k →
      ∃ m ∈ bodyOf methods k, m.function = id ∧ m.name = s.name ∧ m.params = s.params := by
    intro id s hs howner
    rcases hregisters.listed hs howner with hs₂ | ⟨m, hm, rfl⟩
    · rw [Registry.function?, (layOutAll_changes h.layout).functions, hh.declared.functionless,
        Array.getElem?_eq_none (Nat.zero_le _)] at hs₂
      cases hs₂
    · obtain ⟨⟨t, ht, hdesc⟩, _, _⟩ := hregisters.signed _ hm
      rw [hs] at ht
      injection ht with ht
      subst ht
      exact ⟨m, List.mem_map.mpr ⟨(k, m), List.mem_filter.mpr ⟨hm, by simp⟩, rfl⟩, rfl,
        hdesc.name.symm, hdesc.params.symm⟩
  obtain ⟨m, hm, rfl, hmname, hmparams⟩ := hlisted hs howner
  obtain ⟨m', hm', rfl, hmname', hmparams'⟩ := hlisted hs' howner'
  by_contra hne
  have hsymm : Std.Symm fun a b : OwnMethod => ¬SameKey a b :=
    ⟨fun _ _ hab hba => hab ⟨hba.1.symm, hba.2.symm⟩⟩
  refine htabled.keys.forall hm hm' (fun heq => hne (congrArg OwnMethod.function heq)) ⟨?_, ?_⟩
  · rw [hmname, hmname', hname]
  · rw [hmparams, hmparams', hparams]

end Steps

/-- What is known about the functions of a program when all of it is registered. -/
structure Complete (p : Program) (c : Compilation) : Prop where
  completing : Completing c
  tables : Tables c.registry
  unique : c.registry.NamesUnique
  registered : ∀ {id s}, c.registry.function? id = some s → Registered p c.registry id s
  different : ∀ {id id' s s'}, c.registry.function? id = some s →
    c.registry.function? id' = some s' → s.owner = s'.owner → s.name = s'.name →
    s.params = s'.params → id = id'
  assigned : ∃ r, (∀ {id s}, r.function? id = some s → s.id = id) ∧
    LinkName.assignAll r = .ok c.registry

theorem complete_of_run {o : Options} {n : Counts} (hstart : Compilation.start o = .ok c)
    (hnames : ∀ n ∈ p.names, IsIdentifier n) (h : Yields (run p) c n c') : Complete p c' := by
  obtain ⟨ps, ordered, methods, c₁, c₂, c₃, c₄, c₅, hsteps⟩ := yields_run h
  have hf := functions_of_steps hstart hnames hsteps
  have hd := declared_start hstart
  obtain ⟨_, hglobals⟩ := hsteps.globals
  have hsigs := hsteps.sameSignatures
  have hsame : SameHeaders c₃.registry c'.registry :=
    SameHeaders.trans hsteps.sameHeaders.symm (sameHeaders_of_steps hsteps)
  refine ⟨?_, hsteps.finished hd, ?_, ?_, ?_, c₄.registry, ?_, hsteps.assigned⟩
  · refine hglobals.preserves (hsteps.names.preserves (hsteps.tables.preserves ⟨?_, ?_⟩))
    · exact ⟨hf.outside.1.mono (fun _ => False.elim) rfl rfl (.refl _), hf.outside.2⟩
    · exact fun _ _ => hf.queued
  · refine Registry.NamesUnique.congr hf.unique fun k => ?_
    have hk := congrArg (Option.map Class.name) (hsame k)
    rw [Option.map_map, Option.map_map] at hk
    exact hk
  · intro id s hs
    obtain ⟨s₀, hs₀, heq⟩ := hsigs.exists_before hs
    exact (hf.registered hs₀).congr hsame heq
  · intro id id' s s' hs hs' howner hname hparams
    obtain ⟨s₀, hs₀, heq⟩ := hsigs.exists_before hs
    obtain ⟨s₀', hs₀', heq'⟩ := hsigs.exists_before hs'
    rw [heq, heq'] at howner hname hparams
    -- Functions of a module are overloads of one name; methods of a class are read together.
    cases hown : s₀.owner with
    | module path =>
      exact hf.overloads.different hs₀ hs₀' hown (howner.symm.trans hown) hname hparams
    | classOf k =>
      exact methods_different hstart hsteps hf hs₀ hs₀' hown (howner.symm.trans hown) hname hparams
  · intro id s hs
    obtain ⟨s₀, hs₀, heq⟩ := (buildMethodTables_keeps hsteps.tables).2.exists_before hs
    rw [heq]
    exact (hf.registered hs₀).id_eq

end Registration

end ClassLang
