import ClassLang.Proofs.Class.Ancestors
import ClassLang.Proofs.Safety.Headers

/-!
# Laying out classes is safe

When classes are laid out their hierarchy is known: a class, its bases and all its ancestors are
registered. The types of own fields were resolved against that registry, and a field that is taken
over from the primary base has a known type in the terms of the class. So a class is refused at its
position, or it gets fields of known types.
-/

namespace ClassLang

open CompileM Lowering Registration

variable {r : Registry}

/-! ## The fields of one class -/

namespace Layout

variable {c : Class} {h : TypeHash}

/-- The primary base is registered, so its fields can be taken over. -/
theorem inheritedFields_ok (hr : Hierarchy r) (hclosed : r.Closed) (hc : r.class? h = some c) :
    ∃ fields start, inheritedFields r c = .ok (fields, start) ∧ ∀ f ∈ fields, r.Knows f.type := by
  unfold inheritedFields
  cases hprimary : c.mro[1]? with
  | none => exact ⟨[], 0, rfl, List.forall_mem_nil _⟩
  | some primary =>
    obtain ⟨base, hbase⟩ := hr.exists_of_mem_mro hc (List.mem_of_getElem? hprimary)
    refine ⟨_, _, except_bind_eq_ok.mpr ⟨base, Registry.getClass_eq_ok.mpr hbase, rfl⟩, ?_⟩
    intro f hf
    obtain ⟨g, hg, rfl⟩ := List.mem_map.mp hf
    exact ((hclosed.classes hbase).fields g hg).inOwnTerms (hclosed.classes hc).inherited base

theorem isLocated_of_placeFields {own : List OwnField} {e : CompileError} :
    ∀ {earlier : List OwnField} {placed : List Field} {start : Nat},
      placeFields r c earlier placed start own = .error e → e.isLocated = true := by
  induction own with
  | nil =>
    intro earlier placed start he
    cases he
  | cons d own ih =>
    intro earlier placed start he
    unfold placeFields at he
    split at he
    · injection he with he
      exact he ▸ rfl
    · exact ih he

theorem isLocated_of_checkBases {fields : List Field} {ts : List Ty} {e : CompileError}
    (hts : r.KnowsAll ts) (he : checkBases r c fields ts = .error e) : e.isLocated = true := by
  induction ts with
  | nil => cases he
  | cons t ts ih =>
    obtain ⟨ht, hts⟩ := Registry.knowsAll_cons.mp hts
    unfold checkBases at he
    cases hh : t.classHash? with
    | none =>
      rw [hh] at he
      exact ih hts he
    | some hash =>
      obtain ⟨base, hbase, _⟩ := (ht.has hh).getClass
      rw [hh] at he
      rcases except_bind_eq_error.mp he with he | ⟨_, _, he⟩
      · rw [hbase] at he
        cases he
      · split at he
        · injection he with he
          exact he ▸ rfl
        · exact ih hts he

/-- A class is refused at a position. -/
theorem isLocated_of_layOut {own : List OwnField} {e : CompileError} (hr : Hierarchy r)
    (hclosed : r.Closed) (hc : r.class? h = some c) (he : layOut r c own = .error e) :
    e.isLocated = true := by
  obtain ⟨inherited, start, hinherited, _⟩ := inheritedFields_ok hr hclosed hc
  unfold layOut at he
  rw [hinherited] at he
  rcases except_bind_eq_error.mp he with he | ⟨⟨_, _⟩, hplace, he⟩
  · cases he
  · cases hplace
    rcases except_bind_eq_error.mp he with he | ⟨⟨fields, length⟩, _, he⟩
    · exact isLocated_of_placeFields he
    · rcases except_bind_eq_error.mp he with he | ⟨_, _, he⟩
      · refine isLocated_of_checkBases (fun t ht => ?_) he
        exact (hclosed.classes hc).bases t (List.mem_of_mem_drop ht)
      · cases he

/-- The fields of a class are of known types. -/
theorem knows_of_layOut {own : List OwnField} {fields : List Field} {length : Nat}
    (hr : Hierarchy r) (hclosed : r.Closed) (hc : r.class? h = some c)
    (hown : ∀ d ∈ own, r.Knows d.type) (hlayout : layOut r c own = .ok (fields, length)) :
    ∀ f ∈ fields, r.Knows f.type := by
  obtain ⟨inherited, start, hinherited, hknown⟩ := inheritedFields_ok hr hclosed hc
  simp only [layOut, except_bind_eq_ok, except_pure_eq_ok, hinherited] at hlayout
  obtain ⟨⟨_, _⟩, hstart, ⟨fields', length'⟩, hplace, _, _, hresult⟩ := hlayout
  injection hstart with hstart
  injection hstart with hfields hstart
  subst hfields hstart
  injection hresult with hfields _
  subst hfields
  obtain ⟨more, rfl, _, _, hmore⟩ := placeFields_spec hplace
  intro f hf
  rcases List.mem_append.mp hf with hf | hf
  · exact hknown f hf
  · obtain ⟨d, hd, htype⟩ := hmore f hf
    exact htype ▸ hown d hd

end Layout

namespace CompileM

variable {c : Compilation} {V : Binding → Prop} {ps : List PendingClass}

/-! ## Members -/

theorem safe_requireStorable {R : Compilation → Compilation → Prop} [Steady R] {t : Ty}
    {name : String} {span : Span} (hr : c.registry = r) (ht : r.Knows t) :
    Safe R (requireStorable t name span) c fun _ c' => c' = c := by
  unfold requireStorable
  split
  · exact .fail
  · exact .fail
  · exact (safe_requireConcrete hr ht).mono fun _ _ _ h => h.1

theorem safe_resolveField {f : FieldDecl} (hr : c.registry = r) (hn : Named r c) :
    Safe Defers (resolveField f) c fun d _ => r.Knows d.type := by
  unfold resolveField
  refine (safe_resolveType f.type hr hn).bind fun t c₁ h₁ ht => ?_
  refine (safe_requireStorable (h₁.registry.trans hr) ht).bind ?_
  rintro _ _ - rfl
  exact .pure ht

/-- Classes can be looked up, with their ancestors. -/
structure Arranged (V : Binding → Prop) (ps : List PendingClass) (c : Compilation) : Prop
    extends Registering V ps c where
  hierarchy : Hierarchy c.registry

/-- A step that leaves the registry and what is visible alone. -/
theorem Arranged.of_same (hc : Arranged V ps c) {c' : Compilation} (houter : c'.Outer V)
    (hr : c'.registry = c.registry) : Arranged V ps c' :=
  ⟨⟨houter, hr ▸ hc.closed, hr ▸ hc.pending⟩, hr ▸ hc.hierarchy⟩

theorem safe_layoutPlan {p : PendingClass} (hp : p ∈ ps) (hc : Arranged V ps c) :
    Safe Drafts (layoutPlan p) c fun plan c' => Arranged V ps c' ∧
      (plan.pending = p ∧ ∀ d ∈ plan.fields, c.registry.Knows d.type) := by
  have hstep : Safe Drafts (layoutPlan p) c fun plan c' => c'.registry = c.registry ∧
      (plan.pending = p ∧ ∀ d ∈ plan.fields, c.registry.Knows d.type) := by
    unfold layoutPlan
    have hfields : Safe Defers (inClass p.hash (p.decl.fields.mapM resolveField)) (c.entered p.path)
        fun ds _ => True ∧ ∀ d ∈ ds, c.registry.Knows d.type := by
      refine safe_inClass (r := c.registry) rfl (hc.outer.entered p.path).named hc.closed
        (hc.pending p hp) fun c₁ hr hn => ?_
      exact Safe.mapM (I := fun _ => True) (fun f _ c₂ h₂ _ =>
        (safe_resolveField (h₂.registry.trans hr) (Named.defers hn h₂)).mono
          fun _ _ _ h => ⟨trivial, h⟩) trivial
    refine (safe_inModule (Q := fun ds c' => c'.registry = c.registry ∧
      ∀ d ∈ ds, c.registry.Knows d.type) hfields.drafts ?_).bind
      fun fields c₁ _ h₁ => .pure ⟨h₁.1, rfl, h₁.2⟩
    exact fun ds c₁ _ h => ⟨h.1.registry, h.2.2⟩
  refine (hstep.outer hc.outer).mono fun plan c' _ ⟨houter, hr, hplan⟩ => ?_
  exact ⟨hc.of_same houter hr, hplan⟩

/-! ## The walk -/

theorem safe_layOutClass {plan : LayoutPlan} (hc : Arranged V ps c) (hp : plan.pending ∈ ps)
    (hfields : ∀ d ∈ plan.fields, c.registry.Knows d.type) :
    Safe Drafts (layOutClass plan) c fun _ c' => Arranged V ps c' := by
  obtain ⟨k, hk, hclass⟩ := (hc.pending _ hp).getClass
  have hlayout : Safe Drafts (inModule plan.pending.path (askRegistry fun r => do
        Layout.layOut r (← r.getClass plan.pending.hash) plan.fields)) c
      fun (x : List Field × Nat) c' =>
        c'.registry = c.registry ∧ ∀ f ∈ x.1, c.registry.Knows f.type := by
    refine safe_inModule (P := fun (x : List Field × Nat) c' => c'.registry = c.registry ∧
      ∀ f ∈ x.1, c.registry.Knows f.type) (.askRegistry (fun x hx => ⟨rfl, ?_⟩) fun e he => ?_)
      fun _ _ _ h => h
    · obtain ⟨k', hk', hx⟩ := except_bind_eq_ok.mp hx
      -- The class is registered, so the only error left is one of the layout, at a field.
      have hclass' := Registry.getClass_eq_ok.mp hk'
      exact Layout.knows_of_layOut hc.hierarchy hc.closed hclass' hfields hx
    · rcases except_bind_eq_error.mp he with he | ⟨k', hk', he⟩
      · have hk : (c.entered plan.pending.path).registry.getClass plan.pending.hash = .ok k := hk
        rw [hk] at he
        cases he
      · have hclass' := Registry.getClass_eq_ok.mp hk'
        exact Layout.isLocated_of_layOut hc.hierarchy hc.closed hclass' he
  have hstep : Safe Drafts (layOutClass plan) c fun _ c' => ∃ fields length,
      (∀ f ∈ fields, c.registry.Knows f.type) ∧ c'.registry =
        c.registry.modifyClass plan.pending.hash fun k =>
          { k with fields := fields, length := length } := by
    unfold layOutClass
    refine hlayout.bind fun x c₁ _ h₁ => ?_
    exact safe_modifyClass (h₁.1 ▸ hc.pending _ hp) ⟨x.1, x.2, h₁.2, by rw [h₁.1]⟩
  refine (hstep.outer hc.outer).mono fun _ c' _ ⟨houter, fields, length, hknown, hr⟩ => ⟨?_, ?_⟩
  · exact hc.toRegistering.modifyClass houter hr fun d _ hd =>
      ⟨hd.templates, hd.bases, hd.inherited, hknown, hd.ranks⟩
  · refine hc.hierarchy.congr fun h => ?_
    rw [hr, Registry.class?_modifyClass]
    split
    · rename_i hh
      rw [hh, Option.map_map]
      rfl
    · rfl

theorem safe_layOutWithin {plans : Table TypeHash LayoutPlan} :
    ∀ {bound : Nat} {visiting done : List TypeHash} {hash : TypeHash} {c : Compilation},
      (∀ h plan, plans.find? h = some plan → plan.pending ∈ ps ∧ plan.pending.hash = h ∧
        ∀ d ∈ plan.fields, c.registry.Knows d.type) → Arranged V ps c →
      Safe Drafts (layOutWithin plans bound visiting done hash) c fun _ c' => Arranged V ps c'
  | 0, visiting, done, hash, c, _, hc => by
    unfold layOutWithin
    exact .pure hc
  | bound + 1, visiting, done, hash, c, hplans, hc => by
    unfold layOutWithin
    split
    · exact .pure hc
    split
    · exact .pure hc
    rename_i plan hplan
    obtain ⟨hp, rfl, hfields⟩ := hplans hash plan hplan
    obtain ⟨k, hk, _⟩ := (hc.pending _ hp).getClass
    dsimp only
    split
    -- A cycle is an error at a position, and nothing is run behind it.
    · have hrefused : ∀ {g : Unit → CompileM (List TypeHash)}, Safe Drafts
          (inModule plan.pending.path (fail (.rule (.containsItself plan.pending.decl.name.name))
            plan.pending.decl.span) >>= g) c fun _ c' => Arranged V ps c' := by
        intro g
        exact (safe_inModule (Q := fun _ _ => False) (P := fun _ _ => False) .fail
          fun _ _ _ h => h).bind fun _ _ _ h => h.elim
      exact hrefused
    · refine .askRegistry_bind hk ?_
      refine (Safe.foldlM (I := fun _ c' => Arranged V ps c') (fun d _ done₁ c₁ h₁ hc₁ => ?_)
        hc).bind fun done₂ c₂ h₂ hc₂ => ?_
      · exact safe_layOutWithin (fun h plan hfind => (hplans h plan hfind).imp_right
          (And.imp_right fun hall d hd => (hall d hd).mono h₁.classes)) hc₁
      · exact (safe_layOutClass hc₂ hp fun d hd => (hfields d hd).mono h₂.classes).bind
          fun _ _ _ h => .pure h

theorem safe_layOutAll (hc : Arranged V ps c) :
    Safe Drafts (layOutAll ps) c fun _ c' => Arranged V ps c' := by
  unfold layOutAll
  have hplans : Safe Drafts (ps.mapM layoutPlan) c fun plans c' => Arranged V ps c' ∧
      ∀ plan ∈ plans, plan.pending ∈ ps ∧ ∀ d ∈ plan.fields, c'.registry.Knows d.type := by
    have hall : Safe Drafts (ps.mapM layoutPlan) c fun plans c' =>
        (Arranged V ps c' ∧ c'.registry = c.registry) ∧
          ∀ plan ∈ plans, plan.pending ∈ ps ∧ ∀ d ∈ plan.fields, c.registry.Knows d.type := by
      refine Safe.mapM (I := fun c' => Arranged V ps c' ∧ c'.registry = c.registry)
        (fun p hp c₁ _ hI => ?_) ⟨hc, rfl⟩
      refine (safe_layoutPlan hp hI.1).traced.mono fun plan c' _ ⟨hstep, hc', hpending, hfields⟩ => ?_
      have hkept : c'.registry = c₁.registry := hstep.keeps
      exact ⟨⟨hc', hkept.trans hI.2⟩, hpending ▸ hp, hI.2 ▸ hfields⟩
    exact hall.mono fun plans c' _ h => ⟨h.1.1, h.1.2 ▸ h.2⟩
  refine hplans.bind fun plans c₁ _ ⟨hc₁, hknown⟩ => ?_
  refine (Safe.foldlM (I := fun _ c' => Arranged V ps c') (fun h _ done c₂ h₂ hc₂ => ?_) hc₁).bind
    fun _ _ _ h => .pure h
  refine safe_layOutWithin (fun h plan hfind => ?_) hc₂
  rcases (find?_foldl_plans plans .empty).1 h plan hfind with ⟨hmem, hhash⟩ | hnone
  · obtain ⟨hp, hfields⟩ := hknown plan hmem
    exact ⟨hp, hhash, fun d hd => (hfields d hd).mono h₂.classes⟩
  · cases hnone

end CompileM

end ClassLang
