import ClassLang.Proofs.Registration.Hierarchy

/-!
# The classes that are declared

Declaring the names of a program adds its classes to the registry, one after the other, and does
nothing else to it. Each class gets the next class tag, so that no two classes have the same one.
-/

namespace ClassLang

open CompileM

/-- The class as it is registered when its declaration is met. -/
def PendingClass.opening (p : PendingClass) : Class :=
  .declared p.decl.name.name p.path p.decl.span p.decl.isAbstract

/-- Different classes have different tags. -/
def Registry.TagsUnique (r : Registry) : Prop :=
  ∀ ⦃h h' k k'⦄, r.class? h = some k → r.class? h' = some k' → k.id = k'.id → h = h'

/-- The tag of a class is its place in the order of declaration. -/
def Registry.Numbered (r : Registry) : Prop :=
  ∀ h k, r.class? h = some k → r.order[k.id]? = some h

theorem Registry.Numbered.tagsUnique {r : Registry} (hr : r.Numbered) : r.TagsUnique := by
  intro h h' k k' hk hk' hid
  have hplace := hr h k hk
  rw [hid, hr h' k' hk'] at hplace
  exact (Option.some.inj hplace).symm

theorem Registry.TagsUnique.congr {r r' : Registry} (h : r.TagsUnique)
    (hids : ∀ k, (r'.class? k).map Class.id = (r.class? k).map Class.id) : r'.TagsUnique := by
  have hbefore : ∀ {k c'}, r'.class? k = some c' → ∃ c, r.class? k = some c ∧ c.id = c'.id := by
    intro k c' hc'
    have hk := hids k
    rw [hc', Option.map_some, eq_comm, Option.map_eq_some_iff] at hk
    exact hk
  intro k₁ k₂ c₁ c₂ h₁ h₂ hid
  obtain ⟨d₁, hd₁, hid₁⟩ := hbefore h₁
  obtain ⟨d₂, hd₂, hid₂⟩ := hbefore h₂
  exact h hd₁ hd₂ (hid₁.trans (hid.trans hid₂.symm))

theorem Registry.Numbered.addClass {r : Registry} (h : r.Numbered) (c : Class) :
    (r.addClass c).Numbered := by
  intro k d hd
  rw [class?_addClass] at hd
  split at hd
  · rename_i hk
    injection hd with hd
    subst hd hk
    exact List.getElem?_concat_length
  · have hplace := h k d hd
    show (r.order ++ [c.hash])[d.id]? = some k
    rw [List.getElem?_append_left (List.getElem?_eq_some_iff.mp hplace).1]
    exact hplace

theorem Registry.numbered_initial (n : Nat) : (Registry.initial n).Numbered := by
  have hempty : (⟨.empty, [], #[], 0, n⟩ : Registry).Numbered := fun _ _ hk => by cases hk
  exact hempty.addClass _

namespace Registration

theorem declareItems_registry {path : String} : ∀ {items : List Item} {c c' : Compilation}
    {ps : List PendingClass}, Yields (declareItems path items) c ps c' →
      c'.registry = ps.foldl (fun r p => r.addClass p.opening) c.registry
  | [], c, c', ps, h => by
    obtain ⟨rfl, rfl⟩ := yields_pure.mp h
    rfl
  | .classDecl d :: rest, c, c', ps, h => by
    simp only [declareItems, yields_bind, yields_pure] at h
    obtain ⟨p, c₁, hp, more, c₂, hmore, rfl, rfl⟩ := h
    obtain ⟨rfl, _, hregistry⟩ := declareClass_effect hp
    rw [declareItems_registry hmore, hregistry, List.foldl_cons]
    rfl
  | .require name :: rest, c, c', ps, h => by
    simp only [declareItems, yields_bind] at h
    obtain ⟨_, c₁, hname, hrest⟩ := h
    rw [declareItems_registry hrest, hname.keeps (f := Compilation.registry)]
  | .function _ :: rest, c, c', ps, h | .global _ :: rest, c, c', ps, h => by
    have hrest : Yields (declareItems path rest) c ps c' := h
    exact declareItems_registry hrest

/-- Declaring names adds the classes of the program to the registry, in order. -/
theorem declareModules_registry : ∀ {ms : List Module} {c c' : Compilation} {ps : List PendingClass},
    Yields (declareModules ms) c ps c' →
      c'.registry = ps.foldl (fun r p => r.addClass p.opening) c.registry
  | [], c, c', ps, h => by
    obtain ⟨rfl, rfl⟩ := yields_pure.mp h
    rfl
  | m :: rest, c, c', ps, h => by
    simp only [declareModules, yields_bind, yields_pure] at h
    obtain ⟨ps₁, c₁, hitems, ps₂, c₂, hrest, rfl, rfl⟩ := h
    obtain ⟨c₀, c₁', hbody, hbefore, hafter⟩ := inModule_effect hitems
    rw [declareModules_registry hrest, hafter, declareItems_registry hbody, hbefore,
      List.foldl_append]

theorem declareModules_numbered {ms : List Module} {c c' : Compilation} {ps : List PendingClass}
    (hc : c.registry.Numbered) (h : Yields (declareModules ms) c ps c') : c'.registry.Numbered := by
  rw [declareModules_registry h]
  clear h
  revert hc
  generalize c.registry = r
  induction ps generalizing r with
  | nil => exact id
  | cons p ps ih => exact fun hr => ih _ (hr.addClass p.opening)

end Registration

end ClassLang
