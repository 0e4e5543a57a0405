import ClassLang.Proofs.Order.View

/-!
# Steps in another order

Most steps of registration deal with one class: they read what is known about the others, fill in
one part of it, and may put checks off. Two such steps for different classes can be taken in either
order if neither reads what the other fills in, and the states that are reached look the same. So a
list of such steps can be taken in any order.
-/

namespace ClassLang

open CompileM

/-! ## States that look the same -/

/-- The states look the same but for the tags of classes, and the same checks are put off, in some
order. -/
structure Compilation.Alike (c d : Compilation) : Prop where
  view : d.view Class.untagged = c.view Class.untagged
  deferred : d.deferred.Perm c.deferred

namespace Compilation.Alike

variable {c d e : Compilation}

theorem refl (c : Compilation) : c.Alike c := ⟨rfl, .refl _⟩

theorem symm (h : c.Alike d) : d.Alike c := ⟨h.view.symm, h.deferred.symm⟩

theorem trans (h : c.Alike d) (h' : d.Alike e) : c.Alike e :=
  ⟨h'.view.trans h.view, h'.deferred.trans h.deferred⟩

end Compilation.Alike

/-- The tag of a class is not part of what is seen of it. -/
class Untagged (π : Class → Class) : Prop where
  eq : ∀ k, π k.untagged = π k

instance : Untagged Class.baseless := ⟨fun _ => rfl⟩

theorem View.congr_map (π φ : Class → Class) (hφ : ∀ k, φ (π k) = φ k) (c d : Compilation)
    (h : d.view π = c.view π) : d.view φ = c.view φ := by
  have hview : ∀ c : Compilation, c.view φ =
      { c.view π with classes := fun x => ((c.view π).classes x).map φ } := by
    intro c
    unfold Compilation.view
    simp only [Option.map_map, Function.comp_def, hφ]
  rw [hview, hview, h]

theorem Compilation.Alike.view_eq {c d : Compilation} (h : c.Alike d) (π : Class → Class)
    [hπ : Untagged π] :
    d.view π = c.view π := View.congr_map _ _ hπ.eq _ _ h.view

/-! ## What a step fills in -/

/-- What a step did: it changed the class `h` by `g`, or no class at all, it put checks off, and it
left alone all else that can be seen. -/
structure Filled (h : Option TypeHash) (g : Class → Class) (checks : List BoundCheck)
    (c c' : Compilation) :
    Prop where
  classes : ∀ x, c'.registry.class? x =
    if h = some x then (c.registry.class? x).map g else c.registry.class? x
  pointerSize : c'.registry.pointerSize = c.registry.pointerSize
  names : c'.names = c.names
  scopes : c'.scopes = c.scopes
  path : c'.path = c.path
  deferring : c'.deferring = c.deferring
  deferred : c'.deferred = c.deferred ++ checks

namespace Filled

variable {h h₁ h₂ : Option TypeHash} {g g₁ g₂ : Class → Class} {checks checks₁ checks₂ : List BoundCheck}
  {π : Class → Class} {c c' c₁ c₂ d d' d₁ d₂ : Compilation}

theorem refl (c : Compilation) : Filled none id [] c c :=
  ⟨fun _ => rfl, rfl, rfl, rfl, rfl, rfl, (List.append_nil _).symm⟩

theorem view_eq (hf : Filled h g checks c c') : c'.view π = { c.view π with
    classes := fun x => if h = some x then (c.registry.class? x).map (π ∘ g)
      else (c.registry.class? x).map π } := by
  unfold Compilation.view
  rw [hf.pointerSize, hf.names, hf.scopes, hf.path, hf.deferring]
  congr 1
  funext x
  rw [hf.classes]
  split
  · rw [Option.map_map]
  · rfl

/-- What is filled in is not seen by those who do not look at it. -/
theorem hidden (hf : Filled h g checks c c') (hg : ∀ k, π (g k) = π k) : c'.view π = c.view π := by
  have hcomp : π ∘ g = π := funext hg
  rw [hf.view_eq, hcomp]
  simp only [ite_self]
  rfl

/-- The same is filled in, in states that look the same. -/
theorem alike (h₁ : Filled h g checks c c') (h₂ : Filled h g checks d d')
    (hg : ∀ k, (g k).untagged = g k.untagged) (halike : c.Alike d) : c'.Alike d' := by
  have hcomp : ∀ o : Option Class, o.map (Class.untagged ∘ g) = (o.map Class.untagged).map g := by
    intro o
    rw [Option.map_map]
    exact congrArg (Option.map · o) (funext hg)
  have hclasses : ∀ x,
    (d.registry.class? x).map Class.untagged = (c.registry.class? x).map Class.untagged :=
    congrFun (congrArg View.classes halike.view)
  refine ⟨?_, ?_⟩
  · rw [h₁.view_eq, h₂.view_eq, halike.view]
    simp only [hcomp, hclasses]
  · rw [h₁.deferred, h₂.deferred]
    exact halike.deferred.append_right _

/-- What two steps fill in for different classes, they fill in in either order. -/
theorem swap (hne : h₁ = none ∨ h₂ ≠ h₁) (hc₁ : Filled h₁ g₁ checks₁ c c₁)
    (hc₂ : Filled h₂ g₂ checks₂ c₁ c₂)
    (hd₁ : Filled h₂ g₂ checks₂ c d₁) (hd₂ : Filled h₁ g₁ checks₁ d₁ d₂) : c₂.Alike d₂ := by
  refine ⟨?_, ?_⟩
  · unfold Compilation.view
    rw [hc₂.pointerSize, hc₁.pointerSize, hd₂.pointerSize, hd₁.pointerSize, hc₂.names, hc₁.names,
      hd₂.names,
      hd₁.names, hc₂.scopes, hc₁.scopes, hd₂.scopes, hd₁.scopes, hc₂.path, hc₁.path, hd₂.path, hd₁.path,
      hc₂.deferring, hc₁.deferring, hd₂.deferring, hd₁.deferring]
    congr 1
    funext x
    rw [hc₂.classes, hc₁.classes, hd₂.classes, hd₁.classes]
    by_cases hx₁ : h₁ = some x
    · have hx₂ : h₂ ≠ some x := by
        rintro rfl
        rcases hne with hnone | hne
        · rw [hnone] at hx₁
          cases hx₁
        · exact hne hx₁.symm
      simp only [if_pos hx₁, if_neg hx₂]
    · simp only [if_neg hx₁]
  · rw [hc₂.deferred, hc₁.deferred, hd₂.deferred, hd₁.deferred, List.append_assoc, List.append_assoc]
    exact List.perm_append_comm.append_left _

end Filled

/-- The step fills in the class `h`, or none; it reads nothing but what `π` shows, and does not show
what it fills in. -/
class Fills (π : Class → Class) (h : Option TypeHash) {α : Type} (m : CompileM α) : Prop where
  same : ∀ {c d : Compilation} {a : α} {c' : Compilation}, d.view π = c.view π → Yields m c a c' →
    ∃ g checks, (∀ k, π (g k) = π k) ∧ (∀ k, (g k).untagged = g k.untagged) ∧ Filled h g checks c c' ∧
      ∃ d', Yields m d a d' ∧ Filled h g checks d d'

namespace Fills

variable {π : Class → Class} [Untagged π] {α β : Type} {h h₁ h₂ : Option TypeHash}

theorem alike {m : CompileM α} [hm : Fills π h m] {c d c' : Compilation} {a : α} (halike : c.Alike d)
    (hc : Yields m c a c') : ∃ d', Yields m d a d' ∧ c'.Alike d' := by
  obtain ⟨g, checks, -, hg, hfilled, d', hd, hfilled'⟩ := hm.same (halike.view_eq π) hc
  exact ⟨d', hd, hfilled.alike hfilled' hg halike⟩

omit [Untagged π] in
/-- Steps for different classes can be taken in either order. -/
theorem swap {m : CompileM α} {n : CompileM β} [hm : Fills π h₁ m] [hn : Fills π h₂ n]
    (hne : h₁ = none ∨ h₂ ≠ h₁) {c c₁ c₂ : Compilation} {a : α} {b : β} (h₁ : Yields m c a c₁)
    (h₂ : Yields n c₁ b c₂) : ∃ d₁ d₂, Yields n c b d₁ ∧ Yields m d₁ a d₂ ∧ c₂.Alike d₂ := by
  obtain ⟨g, checks, hg, -, hfilled, -⟩ := hm.same rfl h₁
  obtain ⟨g', checks', hg', -, hfilled₂, d₁, hd₁, hfilled₂'⟩ := hn.same (hfilled.hidden hg).symm h₂
  obtain ⟨g₁, checks₁, -, -, hfilled₁, d₂, hd₂, hfilled₁'⟩ := hm.same (hfilled₂'.hidden hg') h₁
  refine ⟨d₁, d₂, hd₁, hd₂, ?_⟩
  exact hfilled₁.swap hne hfilled₂ hfilled₂' hfilled₁'

end Fills

/-! ## What steps fill in -/

section Instances

variable {π : Class → Class} {α β : Type} {h : Option TypeHash}

/-- A step that only resolves types. -/
instance fills_of_resolves (m : CompileM α) [hm : Resolves π m] : Fills π none m where
  same hview hc := by
    obtain ⟨checks, rfl, hd⟩ := hm.same hview hc
    have hfilled : ∀ c : Compilation,
      Filled none id checks c { c with deferred := c.deferred ++ checks } :=
      fun c => ⟨fun _ => rfl, rfl, rfl, rfl, rfl, rfl, rfl⟩
    exact ⟨id, checks, fun _ => rfl, fun _ => rfl, hfilled _, _, hd, hfilled _⟩

/-- Types are resolved before something is filled in. -/
instance fills_bind (m : CompileM α) (f : α → CompileM β) [hm : Resolves π m]
    [hf : ∀ a, Fills π h (f a)] :
    Fills π h (m >>= f) where
  same {c d b c'} hview hc := by
    obtain ⟨a, c₁, hc₁, hc'⟩ := yields_bind.mp hc
    obtain ⟨checks, rfl, hd₁⟩ := hm.same hview hc₁
    have hview₁ : ({ d with deferred := d.deferred ++ checks } : Compilation).view π =
        ({ c with deferred := c.deferred ++ checks } : Compilation).view π := hview
    obtain ⟨g, more, hπ, hg, hfilled, d', hd', hfilled'⟩ := (hf a).same hview₁ hc'
    have hlater : ∀ {c c' : Compilation}, Filled h g more { c with deferred := c.deferred ++ checks } c' →
        Filled h g (checks ++ more) c c' := fun hf =>
      ⟨hf.classes, hf.pointerSize, hf.names, hf.scopes, hf.path, hf.deferring,
        hf.deferred.trans (List.append_assoc ..)⟩
    exact ⟨g, checks ++ more, hπ, hg, hlater hfilled, d', yields_bind.mpr ⟨a, _, hd₁, hd'⟩,
      hlater hfilled'⟩

theorem fills_modifyClass {hash : TypeHash} {g : Class → Class} (hπ : ∀ k, π (g k) = π k)
    (hg : ∀ k, (g k).untagged = g k.untagged) :
    Fills π (some hash) (modifyClass hash g) where
  same {c d a c'} hview hc := by
    have hfilled : ∀ c : Compilation, Filled (some hash) g [] c
        { c with registry := c.registry.modifyClass hash g } := by
      intro c
      refine ⟨fun x => ?_, rfl, rfl, rfl, rfl, rfl, (List.append_nil _).symm⟩
      rw [Registry.class?_modifyClass]
      by_cases hx : x = hash
      · rw [if_pos hx, if_pos (congrArg some hx.symm), hx]
      · rw [if_neg hx, if_neg fun heq => hx (Option.some.inj heq).symm]
    obtain ⟨⟨k, hk⟩, rfl⟩ := yields_modifyClass.mp hc
    -- The class is registered in both states.
    have hsame : (d.registry.class? hash).map π = (c.registry.class? hash).map π :=
      congrFun (congrArg View.classes hview) hash
    rw [Registry.getClass_eq_ok.mp hk] at hsame
    obtain ⟨k', hk', -⟩ := Option.map_eq_some_iff.mp hsame
    exact ⟨g, [], hπ, hg, hfilled c, _,
      yields_modifyClass.mpr ⟨⟨k', Registry.getClass_eq_ok.mpr hk'⟩, rfl⟩, hfilled d⟩

theorem view_entered {c d : Compilation} (path : String) (h : d.view π = c.view π) :
    (d.entered path).view π = (c.entered path).view π :=
  congrArg (fun v : View =>
    { v with inner := (fun name => v.names (some path, name)) :: v.inner, path := path }) h

/-- What is filled in in a module is still there when the module is left. -/
theorem Filled.exited {g : Class → Class} {checks : List BoundCheck} {c c₁ : Compilation}
    {path : String} (a : α)
    (hf : Filled h g checks (c.entered path) c₁) :
    Filled h g checks c (CompileM.exited path (.ok a) c c₁) where
  classes := hf.classes
  pointerSize := hf.pointerSize
  names := by
    have hscopes : c₁.scopes = c.scopes.push (c.moduleScope path) := hf.scopes
    funext ⟨place, name⟩
    cases place with
    | none =>
      have hname : c₁.scopes.global.meaning? name = c.scopes.global.meaning? name := by rw [hscopes]; rfl
      exact hname
    | some other =>
      have hname : c₁.names (some other, name) = c.names (some other, name) := congrFun hf.names _
      have hcurrent : c₁.scopes.current = c.moduleScope path := by rw [hscopes]; rfl
      unfold Compilation.names Compilation.moduleScope at hname ⊢
      dsimp only [CompileM.exited] at hname ⊢
      by_cases hpath : path = other
      · rw [hpath, Table.find?_insert_self, hcurrent, hpath]
        rfl
      · rw [Table.find?_insert_of_ne _ hpath, hname]
  scopes := by
    show ({ c₁.scopes with inner := c₁.scopes.inner.tail } : Scopes) = c.scopes
    rw [hf.scopes]
    rfl
  path := rfl
  deferring := hf.deferring
  deferred := hf.deferred

/-- A step in a module. -/
instance fills_inModule (path : String) (m : CompileM α) [hm : Fills π h m] :
    Fills π h (inModule path m) where
  same {c d a c'} hview hc := by
    obtain ⟨c₁, _, _, hrun, -, -⟩ := inModule_spec hc
    obtain ⟨g, checks, hπ, hg, hfilled, d₁, hrun', hfilled'⟩ := hm.same (view_entered path hview) hrun
    have hdepth : ∀ {c c₁ : Compilation}, Filled h g checks (c.entered path) c₁ →
        c₁.scopes.depth = c.scopes.depth + 1 := by
      intro c c₁ hf
      rw [hf.scopes]
      rfl
    obtain ⟨-, rfl⟩ := hc.unique (run_inModule hrun (hdepth hfilled))
    exact ⟨g, checks, hπ, hg, hfilled.exited a, _, run_inModule hrun' (hdepth hfilled'),
      hfilled'.exited a⟩

end Instances

/-! ## Lists of steps -/

section Lists

variable {π : Class → Class} [Untagged π] {α β : Type} {κ : α → Option TypeHash}

theorem mapM_alike {f : α → CompileM β} [∀ x, Fills π (κ x) (f x)] {xs : List α} :
    ∀ {c d c' : Compilation} {bs : List β}, c.Alike d → Yields (xs.mapM f) c bs c' →
      ∃ d', Yields (xs.mapM f) d bs d' ∧ c'.Alike d' := by
  induction xs with
  | nil =>
    intro c d c' bs halike h
    obtain ⟨rfl, rfl⟩ := yields_mapM_nil.mp h
    exact ⟨d, yields_mapM_nil.mpr ⟨rfl, rfl⟩, halike⟩
  | cons x xs ih =>
    intro c d c' bs halike h
    obtain ⟨b, c₁, rest, hx, hxs, rfl⟩ := yields_mapM_cons.mp h
    obtain ⟨d₁, hdx, halike₁⟩ := Fills.alike (π := π) (h := κ x) halike hx
    obtain ⟨d', hdxs, halike'⟩ := ih halike₁ hxs
    exact ⟨d', yields_mapM_cons.mpr ⟨b, d₁, rest, hdx, hdxs, rfl⟩, halike'⟩

/-- Steps for different classes can be taken in any order. -/
theorem mapM_perm {f : α → CompileM β} [∀ x, Fills π (κ x) (f x)] {xs ys : List α} (hperm : xs.Perm ys) :
    ∀ {c d c' : Compilation} {bs : List β}, xs.Pairwise (fun x y => κ x = none ∨ κ y ≠ κ x) →
      c.Alike d → Yields (xs.mapM f) c bs c' →
      ∃ bs' d', bs'.Perm bs ∧ Yields (ys.mapM f) d bs' d' ∧ c'.Alike d' := by
  induction hperm with
  | nil =>
    intro c d c' bs _ halike h
    obtain ⟨d', hd, halike'⟩ := mapM_alike (π := π) (κ := κ) halike h
    exact ⟨bs, d', .refl _, hd, halike'⟩
  | cons x _ ih =>
    intro c d c' bs hkeys halike h
    obtain ⟨b, c₁, rest, hx, hxs, rfl⟩ := yields_mapM_cons.mp h
    obtain ⟨d₁, hdx, halike₁⟩ := Fills.alike (π := π) (h := κ x) halike hx
    obtain ⟨rest', d', hrest, hdxs, halike'⟩ := ih (List.pairwise_cons.mp hkeys).2 halike₁ hxs
    exact ⟨b :: rest', d', hrest.cons b, yields_mapM_cons.mpr ⟨b, d₁, rest', hdx, hdxs, rfl⟩, halike'⟩
  | swap x y xs =>
    intro c d c' bs hkeys halike h
    obtain ⟨b, c₁, _, hy, hrest, rfl⟩ := yields_mapM_cons.mp h
    obtain ⟨b', c₂, rest, hx, hxs, rfl⟩ := yields_mapM_cons.mp hrest
    have hne := (List.pairwise_cons.mp hkeys).1 x List.mem_cons_self
    -- Two neighbours are swapped, and what follows runs from a compilation that is alike.
    obtain ⟨e₁, e₂, hex, hey, halike₂⟩ := Fills.swap (π := π) hne hy hx
    obtain ⟨d₁, hdx, halike₁⟩ := Fills.alike (π := π) (h := κ x) halike hex
    obtain ⟨d₂, hdy, halike₂'⟩ := Fills.alike (π := π) (h := κ y) halike₁ hey
    obtain ⟨d', hdxs, halike'⟩ := mapM_alike (π := π) (κ := κ) (halike₂.trans halike₂') hxs
    refine ⟨b' :: b :: rest, d', .swap b b' rest, ?_, halike'⟩
    exact yields_mapM_cons.mpr ⟨b', d₁, _, hdx, yields_mapM_cons.mpr ⟨b, d₂, rest, hdy, hdxs, rfl⟩, rfl⟩
  | trans hxy _ ih₁ ih₂ =>
    intro c d c' bs hkeys halike h
    obtain ⟨bs₁, c₁, hbs₁, hc₁, halike₁⟩ := ih₁ hkeys (.refl c) h
    -- That steps fill different classes does not depend on their order.
    have hsymm : ∀ x y : α, κ x = none ∨ κ y ≠ κ x → κ y = none ∨ κ x ≠ κ y := by
      intro x y hxy
      by_cases heq : κ x = κ y
      · exact .inl (heq ▸ hxy.resolve_right fun hne => hne heq.symm)
      · exact .inr heq
    have hkeys₁ := (hxy.pairwise_iff fun {x y} => hsymm x y).mp hkeys
    obtain ⟨bs', d', hbs', hd', halike'⟩ := ih₂ hkeys₁ halike hc₁
    exact ⟨bs', d', hbs'.trans hbs₁, hd', halike₁.trans halike'⟩

theorem yields_forM_iff_mapM {f : α → CompileM PUnit} {xs : List α} :
    ∀ {c c' : Compilation} {u : PUnit}, Yields (xs.forM f) c u c' ↔ ∃ us, Yields (xs.mapM f) c us c' := by
  induction xs with
  | nil =>
    intro c c' u
    simp
  | cons x xs ih =>
    intro c c' u
    simp only [yields_forM_cons, yields_mapM_cons, ih]
    constructor
    · rintro ⟨v, c₁, hx, us, hxs⟩
      exact ⟨_, v, c₁, us, hx, hxs, rfl⟩
    · rintro ⟨_, v, c₁, us, hx, hxs, rfl⟩
      exact ⟨v, c₁, hx, us, hxs⟩

theorem forM_perm {f : α → CompileM PUnit} [∀ x, Fills π (κ x) (f x)] {xs ys : List α}
    (hperm : xs.Perm ys)
    {c d c' : Compilation} {u : PUnit} (hkeys : xs.Pairwise (fun x y => κ x = none ∨ κ y ≠ κ x))
    (halike : c.Alike d) (h : Yields (xs.forM f) c u c') : ∃ d', Yields (ys.forM f) d u d' ∧
    c'.Alike d' := by
  obtain ⟨us, h⟩ := yields_forM_iff_mapM.mp h
  obtain ⟨us', d', -, hd, halike'⟩ := mapM_perm (π := π) hperm hkeys halike h
  exact ⟨d', yields_forM_iff_mapM.mpr ⟨us', hd⟩, halike'⟩

end Lists

end ClassLang
