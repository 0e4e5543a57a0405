import ClassLang.Proofs.Link.Sections
import ClassLang.Proofs.Registration.Declaring
import ClassLang.Proofs.Safety.Sections

/-!
# Abstract classes are never instantiated

A class tag is only written where an object of a class is made that is not abstract. Classes keep
the tags that they get when they are declared, so a tag says which class was meant, and the method
table of a class that is not abstract has a function in every slot.
-/

namespace ClassLang

open CompileM Dispatch

/-- The class can be instantiated: it is not abstract, and every slot that it sees is bound to a
registered function that has a body. -/
structure Registry.Instantiable (r : Registry) (k : Class) : Prop where
  concrete : k.isAbstract = false
  lists_slots : k.vtable.map (·.1) = k.ranks.map (·.slot)
  binds : ∀ e ∈ k.vtable, ∃ f s, e.2 = some f ∧ r.function? f = some s ∧ s.isAbstract = false

theorem Dispatch.Tables.instantiable {r : Registry} (ht : Tables r) {h : TypeHash} {k : Class}
    (hk : r.class? h = some k) (hconcrete : k.isAbstract = false) : r.Instantiable k := by
  obtain ⟨own, inh, htabled, -⟩ := ht.tabled hk
  refine ⟨hconcrete, htabled.lists_slots, fun ⟨slot, entry⟩ he => ?_⟩
  obtain ⟨f, rfl⟩ := Option.isSome_iff_exists.mp (htabled.concrete hconcrete _ he)
  obtain ⟨s, hs, habstract⟩ := ht.bindsBodies hk slot f he
  exact ⟨f, s, rfl, hs, habstract⟩

/-- Classes are told apart by their tags in a registered program. -/
theorem Registration.tagsUnique_of_run {p : Program} {o : Options} {c c' : Compilation} {n : Counts}
    (hstart : Compilation.start o = .ok c) (h : Yields (run p) c n c') : c'.registry.TagsUnique := by
  obtain ⟨ps, ordered, methods, c₁, c₂, c₃, c₄, c₅, hsteps⟩ := yields_run h
  obtain ⟨d₁, d₂, d₃, d₄, hheaders⟩ := yields_runHeaders hsteps.headers
  have hchanges := hheaders.changes (declared_start hstart)
  have hnumbered : c.registry.Numbered := by
    simp only [Compilation.start, except_bind_eq_ok, except_pure_eq_ok] at hstart
    obtain ⟨_, _, _, _, rfl⟩ := hstart
    exact Registry.numbered_initial _
  refine (declareModules_numbered hnumbered hheaders.declared).tagsUnique.congr fun k => ?_
  have hlast : (c'.registry.class? k).map Class.id = (c₂.registry.class? k).map Class.id := by
    have hsame := congrArg (Option.map Class.id) (hsteps.toTableSteps.sameLayouts.headers k)
    rw [← hsteps.registry_eq, Option.map_map, Option.map_map] at hsame
    exact hsame
  rw [hlast, ((layOutAll_changes hsteps.layout).coarsen Class.id fun _ => rfl).shown k,
    (hchanges.kept Class.id (fun _ => rfl) fun _ => rfl).shown k,
    (hchanges.resolved.coarsen Class.id fun _ => rfl).shown k]

theorem CompileM.Lawful.tags {p : Program} {c : Compilation} (h : Lawful p c) {code : List Instr}
    (hcode : code ∈ c.listing.sections) {reg : Register} {id : Nat} (hi : .setTag reg id ∈ code) :
    c.registry.Tags id := by
  rcases List.mem_append.mp hcode with hcode | hcode
  · obtain ⟨s, hs, rfl⟩ := List.mem_map.mp hcode
    obtain ⟨_, _, hlawful⟩ := h.functions s hs
    exact hlawful _ hi
  · rw [List.mem_singleton.mp hcode] at hi
    obtain ⟨pieces, start, heq, hpieces, hlawful⟩ := h.entry.pieces
    rw [heq] at hi
    rcases List.mem_append.mp hi with hi | hi
    · obtain ⟨piece, hpiece, hi⟩ := List.mem_flatten.mp hi
      obtain ⟨g, _, hinit⟩ := exists_right_of_forall₂ hpieces.flip hpiece
      exact hinit.lawful _ hi
    · exact hlawful _ hi

/-- Every class tag that the code of a program writes is that of a class that is not abstract and
has a function in each of its slots, and of no other class. -/
theorem tags_instantiable {p : Program} {o : Options} {c c' : Compilation}
    (hstart : Compilation.start o = .ok c) (h : Yields (compileProgram p) c () c')
    {code : List Instr} (hcode : code ∈ c'.listing.sections) {reg : Register} {id : Nat}
    (hi : .setTag reg id ∈ code) :
    ∃ hash k, c'.registry.class? hash = some k ∧ k.id = id ∧ c'.registry.Instantiable k ∧
      ∀ hash' k', c'.registry.class? hash' = some k' → k'.id = id → hash' = hash := by
  obtain ⟨c₁, n, hrun, hplan, hlawful⟩ := lawful_of_compileProgram hstart h
  have hregistry : c'.registry = c₁.registry := congrArg (·.1) hplan
  obtain ⟨hash, k, hk, rfl, hconcrete⟩ := hlawful.tags hcode hi
  rw [hregistry] at hk ⊢
  obtain ⟨ps, ordered, methods, d₁, d₂, d₃, d₄, d₅, hsteps⟩ := yields_run hrun
  have htables := hsteps.finished (declared_start hstart)
  exact ⟨hash, k, hk, rfl, htables.instantiable hk hconcrete, fun hash' k' hk' hid =>
    Registration.tagsUnique_of_run hstart hrun hk' hk hid⟩

/-- The local variable `b: B` of the linked program gets the tag of `B`, which implements what the
abstract class `A` declares. -/
theorem tags_instantiable_linkedProgram : ∃ c c' code, Compilation.start {} = .ok c ∧
    Yields (compileProgram linkedProgram) c () c' ∧ code ∈ c'.listing.sections ∧
    .setTag ⟨0⟩ 2 ∈ code ∧
    ∃ hash k, c'.registry.class? hash = some k ∧ k.id = 2 ∧ c'.registry.Instantiable k ∧
      ∀ hash' k', c'.registry.class? hash' = some k' → k'.id = 2 → hash' = hash := by
  have hok : linkedProgram.compilesTo (fun c =>
      decide (∃ code ∈ c.listing.sections, .setTag ⟨0⟩ 2 ∈ code)) = true := by decide +kernel
  obtain ⟨c, c', hstart, hrun, hcheck⟩ := Program.exists_of_compilesTo hok
  obtain ⟨code, hcode, hi⟩ := of_decide_eq_true hcheck
  exact ⟨c, c', code, hstart, hrun, hcode, hi, tags_instantiable hstart hrun hcode hi⟩

end ClassLang
