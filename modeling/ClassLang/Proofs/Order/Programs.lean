import ClassLang.Proofs.Order.Layouts

/-!
# Programs in another order

Names, headers and layouts make up the first part of registration. Whether it succeeds, and what is
known about each class when it does, depends neither on the order of modules nor on the order of the
items in a module. All that the order decides about classes up to then are their tags.
-/

namespace ClassLang

open CompileM

namespace Registration

/-- Registration up to the layouts of classes: the classes in order of declaration and by
ancestry. -/
def runLayouts (p : Program) : CompileM (List PendingClass × List PendingClass) := do
  let x ← Dispatch.runHeaders p
  layOutAll x.1
  return x

/-- Signatures, method tables, linkable names and globals come after the layouts. -/
theorem run_eq_runLayouts (p : Program) : run p = runLayouts p >>= fun x => do
    let (methods, functions) ← registerModules p.modules
    buildMethodTables methods x.2
    assignLinkNames
    let globals ← registerAllGlobals p.modules
    return ⟨x.1.length, functions, globals⟩ := by
  rw [Dispatch.run_eq]
  simp only [runLayouts, bind_assoc, pure_bind]

/-- In another order the classes get the same layouts. -/
theorem runLayouts_perm {p p' : Program} (hp : p.Rearranges p') {c c' : Compilation}
    {x : List PendingClass × List PendingClass} (hc : Declared c.registry []) (hnone : c.deferred = [])
    (h : Yields (runLayouts p) c x c') : ∃ y d', Yields (runLayouts p') c y d' ∧
      ∀ k, (d'.registry.class? k).map Class.untagged = (c'.registry.class? k).map Class.untagged := by
  unfold runLayouts at h ⊢
  simp only [yields_bind, yields_pure] at h
  obtain ⟨⟨ps, ordered⟩, c₁, hheaders, _, _, hlayouts, rfl, rfl⟩ := h
  obtain ⟨qs, ordered', d₁, hperm, hheaders', halike⟩ := runHeaders_perm hp hc hnone hheaders
  obtain ⟨d', hlayouts', hclasses⟩ := layOutAll_perm (Dispatch.runHeaders_headed hc hheaders)
    (Dispatch.runHeaders_headed hc hheaders') (runHeaders_bases hc hheaders)
      (runHeaders_bases hc hheaders')
    hperm halike hlayouts
  refine ⟨(qs, ordered'), d', ?_, hclasses⟩
  exact yields_bind.mpr
    ⟨_, d₁, hheaders', yields_bind.mpr ⟨(), d', hlayouts', yields_pure.mpr ⟨rfl, rfl⟩⟩⟩

/-- The registry when all classes of a program are laid out, if registration gets that far. -/
def laidOut? (o : Options) (p : Program) : Option Registry :=
  match Compilation.start o with
  | .error _ => none
  | .ok c =>
    match (runLayouts p).run.run c with
    | (.ok _, c) => some c.registry
    | (.error _, _) => none

theorem laidOut?_eq_some {o : Options} {p : Program} {r : Registry} : laidOut? o p = some r ↔
    ∃ c x c', Compilation.start o = .ok c ∧ Yields (runLayouts p) c x c' ∧ c'.registry = r := by
  unfold laidOut?
  constructor
  · intro h
    split at h
    · cases h
    · rename_i c hstart
      split at h
      · rename_i x c' hrun
        exact ⟨c, x, c', hstart, hrun, Option.some.inj h⟩
      · cases h
  · rintro ⟨c, x, c', hstart, hrun, rfl⟩
    have hrun : (runLayouts p).run.run c = (.ok x, c') := hrun
    simp only [hstart, hrun]

theorem laidOut?_rearranges {o : Options} {p p' : Program} (hp : p.Rearranges p') {r : Registry}
    (h : laidOut? o p = some r) : ∃ r', laidOut? o p' = some r' ∧
      ∀ k, (r'.class? k).map Class.untagged = (r.class? k).map Class.untagged := by
  obtain ⟨c, x, c', hstart, hrun, rfl⟩ := laidOut?_eq_some.mp h
  have hnone : c.deferred = [] := by
    unfold Compilation.start at hstart
    simp only [except_bind_eq_ok, except_pure_eq_ok] at hstart
    obtain ⟨_, _, _, _, rfl⟩ := hstart
    rfl
  obtain ⟨y, d', hrun', hclasses⟩ := runLayouts_perm hp (Dispatch.declared_start hstart) hnone hrun
  exact ⟨_, laidOut?_eq_some.mpr ⟨c, y, d', hstart, hrun', rfl⟩, hclasses⟩

/-- The first part of registration, from names to layouts, does not depend on the order of modules
and items: it succeeds for a program if and only if it succeeds for the program in another order,
and then every class has the same bases, template parameters, linearization, inherited template
arguments, fields and length. -/
theorem declaration_order_irrelevant {o : Options} {p p' : Program} (hp : p.Rearranges p') :
    ((∃ r, laidOut? o p = some r) ↔ ∃ r', laidOut? o p' = some r') ∧
    ∀ r r', laidOut? o p = some r → laidOut? o p' = some r' → ∀ hash,
      (r'.class? hash).map (fun k => (k.bases, k.templates, k.mro, k.inherited, k.fields, k.length)) =
        (r.class? hash).map fun k => (k.bases, k.templates, k.mro, k.inherited, k.fields, k.length) := by
  have hsucceeds : ∀ {p p' : Program}, p.Rearranges p' → (∃ r, laidOut? o p = some r) →
      ∃ r', laidOut? o p' = some r' := fun hp ⟨r, h⟩ => (laidOut?_rearranges hp h).imp fun _ => And.left
  refine ⟨⟨hsucceeds hp, hsucceeds hp.symm⟩, fun r r' h h' hash => ?_⟩
  obtain ⟨r₁, h₁, hclasses⟩ := laidOut?_rearranges hp h
  obtain rfl := Option.some.inj (h'.symm.trans h₁)
  have hsame := congrArg
    (Option.map fun k : Class => (k.bases, k.templates, k.mro, k.inherited, k.fields, k.length)) (hclasses hash)
  rw [Option.map_map, Option.map_map] at hsame
  exact hsame

/-- Two modules whose classes derive from each other, hold each other and bound a template
parameter. -/
def scatteredRecords : Program :=
  let box : Item := .classDecl ⟨⟨"Box", .unknown⟩, [⟨"T", some (.named "Mark" [] .unknown)⟩], [],
    [⟨"item", .pointer (.named "T" [] .unknown) .unknown, .unknown⟩], [], false, .unknown⟩
  let crate : Item :=
    .classDecl ⟨⟨"Crate", .unknown⟩, [], [.named "Box" [.named "Outer" [] .unknown] .unknown],
    [⟨"out", .named "Outer" [] .unknown, .unknown⟩], [], false, .unknown⟩
  ⟨[⟨"m", [crate, sampleRecord "Mark" [] []]⟩,
    ⟨"n", [sampleRecord "Outer" ["Mark"] [("in", .named "Inner" [] .unknown)], box,
      sampleRecord "Inner" [] [("z", .named "int" [] .unknown)]]⟩]⟩

set_option maxRecDepth 100000 in
theorem declaration_order_irrelevant_scattered : ∃ r r', scatteredRecords.Rearranges scatteredRecords.reversed ∧
    laidOut? {} scatteredRecords = some r ∧ laidOut? {} scatteredRecords.reversed = some r' ∧
    (r.class? (TypeHash.ofName "m$Crate")).map (fun k => (k.id, k.length)) = some (1, 40) ∧
    (r'.class? (TypeHash.ofName "m$Crate")).map (fun k => (k.id, k.length)) = some (5, 40) ∧
    ∀ hash,
      (r'.class? hash).map (fun k => (k.bases, k.templates, k.mro, k.inherited, k.fields, k.length)) =
        (r.class? hash).map fun k => (k.bases, k.templates, k.mro, k.inherited, k.fields, k.length) := by
  have hfound : ((laidOut? {} scatteredRecords).bind fun r =>
      (r.class? (TypeHash.ofName "m$Crate")).map fun k => (k.id, k.length)) = some (1, 40) := by
    decide +kernel
  have hfound' : ((laidOut? {} scatteredRecords.reversed).bind fun r =>
      (r.class? (TypeHash.ofName "m$Crate")).map fun k => (k.id, k.length)) = some (5, 40) := by
    decide +kernel
  obtain ⟨r, hr, hcrate⟩ := Option.bind_eq_some_iff.mp hfound
  obtain ⟨r', hr', hcrate'⟩ := Option.bind_eq_some_iff.mp hfound'
  have hrearranges := scatteredRecords.rearranges_reversed
  exact ⟨r, r', hrearranges, hr, hr', hcrate, hcrate', (declaration_order_irrelevant hrearranges).2 r r' hr hr'⟩

end Registration

end ClassLang
