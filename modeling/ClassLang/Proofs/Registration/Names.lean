import ClassLang.Proofs.Registration.Visible
import ClassLang.Proofs.Ty.Spelling

/-!
# Names of classes

Every class is visible in the global scope under its own name, so no two classes share a name. A
written type consists of what is visible where it is written: classes under their names, and inside
of a class its template parameters, which hide the classes that are named like them. So if the
names that a program declares are identifiers, its types can be read back from their spelling.
-/

namespace ClassLang

open CompileM

/-! ## Declared names -/

/-- The class that an item declares. -/
def Item.class? : Item → Option ClassDecl
  | .classDecl d => some d
  | _ => none

/-- The names that an item declares for classes, template parameters, functions and methods. -/
def Item.names : Item → List String
  | .function d => [d.name.name]
  | .classDecl d => d.name.name :: (d.templates.map (·.name) ++ d.methods.map (·.name.name))
  | .require _ | .global _ => []

/-- The names that a program declares for classes, template parameters, functions and methods. -/
def Program.names (p : Program) : List String := p.modules.flatMap fun m => m.items.flatMap Item.names

/-- The classes that a program declares. -/
def Program.classes (p : Program) : List ClassDecl :=
  p.modules.flatMap fun m => m.items.filterMap Item.class?

theorem Program.mem_names {p : Program} {m : Module} (hm : m ∈ p.modules) {item : Item}
    (hitem : item ∈ m.items) {n : String} (hn : n ∈ item.names) : n ∈ p.names :=
  List.mem_flatMap.mpr ⟨m, hm, List.mem_flatMap.mpr ⟨item, hitem, hn⟩⟩

theorem Program.mem_classes {p : Program} {d : ClassDecl} :
    d ∈ p.classes ↔ ∃ m ∈ p.modules, .classDecl d ∈ m.items := by
  have hclass : ∀ item : Item, item.class? = some d ↔ item = .classDecl d := by
    intro item
    cases item <;> simp [Item.class?]
  simp only [classes, List.mem_flatMap, List.mem_filterMap, hclass, exists_eq_right]

/-- The names of classes and of their template parameters are identifiers. -/
def Registry.Identified (r : Registry) : Prop :=
  ∀ {h k}, r.class? h = some k → IsIdentifier k.name ∧ ∀ t ∈ k.templates, IsIdentifier t.name

/-- Only headers matter for the names of classes. -/
theorem Registry.Identified.congr {r r' : Registry} (h : r.Identified)
    (hr : Registration.SameHeaders r r') : r'.Identified := by
  intro a k hk
  obtain ⟨k₀, hk₀, heq⟩ := hr.symm.exists_class hk
  have hname : k₀.name = k.name := (congrArg Class.name heq :)
  have htemplates : k₀.templates = k.templates := (congrArg Class.templates heq :)
  rw [← hname, ← htemplates]
  exact h hk₀

theorem Registry.NamesUnique.congr {r r' : Registry} (h : r.NamesUnique)
    (hr : ∀ a, (r'.class? a).map Class.name = (r.class? a).map Class.name) : r'.NamesUnique := by
  have hbefore : ∀ {a k}, r'.class? a = some k → ∃ k₀, r.class? a = some k₀ ∧ k₀.name = k.name := by
    intro a k hk
    have ha := hr a
    rw [hk, Option.map_some, eq_comm, Option.map_eq_some_iff] at ha
    exact ha
  intro a a' k k' hk hk' hname
  obtain ⟨k₀, hk₀, heq⟩ := hbefore hk
  obtain ⟨k₀', hk₀', heq'⟩ := hbefore hk'
  exact h hk₀ hk₀' (heq.trans (hname.trans heq'.symm))

/-! ## What stays defined -/

namespace Scope

variable {s s' : Scope} {n name : String} {d : Meaning} {span : Span}

/-- A class stays what its name stands for. -/
theorem find?_define_of_class {e : Entry} {h : TypeHash} (he : s.find? n = some e)
    (hmeaning : e.meaning = .classOf h) (hs : s.define name d span = .ok s') :
    s'.find? n = some e := by
  have hother : ∀ e' : Entry, name ≠ n →
      ({ s with entries := s.entries.insert name e' } : Scope).find? n = some e :=
    fun e' hne => (Table.find?_insert_of_ne _ hne _).trans he
  unfold define at hs
  split at hs
  · rename_i hnone
    injection hs with hs
    refine hs ▸ hother _ ?_
    rintro rfl
    exact Option.some_ne_none _ (he.symm.trans hnone)
  · rename_i ids first more hfirst
    injection hs with hs
    refine hs ▸ hother _ ?_
    rintro rfl
    rw [he] at hfirst
    injection hfirst with hfirst
    subst hfirst
    cases hmeaning
  · cases hs

/-- A class becomes what its name stands for. -/
theorem find?_define_class {h : TypeHash} (hs : s.define name (.classOf h) span = .ok s') :
    s'.find? name = some ⟨.classOf h, span⟩ := by
  unfold define at hs
  split at hs
  · injection hs with hs
    exact hs ▸ Table.find?_insert_self ..
  · rename_i heq
    cases heq
  · cases hs

end Scope

namespace Scopes

variable {s s' : Scopes} {n name : String} {d : Meaning} {span : Span}

theorem global_find?_define {e : Entry} {h : TypeHash} (he : s.global.find? n = some e)
    (hmeaning : e.meaning = .classOf h) (hs : s.define name d span = .ok s') :
    s'.global.find? n = some e := by
  unfold define at hs
  split at hs
  · simp only [defineGlobal, except_bind_eq_ok, except_pure_eq_ok] at hs
    obtain ⟨g, hg, rfl⟩ := hs
    exact Scope.find?_define_of_class he hmeaning hg
  · simp only [except_bind_eq_ok, except_pure_eq_ok] at hs
    obtain ⟨_, _, rfl⟩ := hs
    exact he

theorem global_pop {scope : Scope} (h : s.pop = .ok (scope, s')) : s'.global = s.global := by
  rw [pop_eq] at h
  split at h
  · cases h
  · injection h with h
    injection h with _ h
    exact h ▸ rfl

end Scopes

/-! ## Unique names -/

/-- In the global scope every class is what its name stands for. -/
def Compilation.NamesClasses (c : Compilation) : Prop :=
  ∀ h k, c.registry.class? h = some k →
    ∃ e, c.scopes.global.find? k.name = some e ∧ e.meaning = .classOf h

theorem Compilation.NamesClasses.unique {c : Compilation} (hc : c.NamesClasses) :
    c.registry.NamesUnique := by
  intro h h' k k' hk hk' hname
  obtain ⟨e, he, hmeaning⟩ := hc h k hk
  obtain ⟨e', he', hmeaning'⟩ := hc h' k' hk'
  rw [hname, he'] at he
  injection he with he
  rw [← he, hmeaning'] at hmeaning
  injection hmeaning with hmeaning
  exact hmeaning.symm

namespace Registration

open Compilation (NamesClasses)

instance : Contextual NamesClasses where
  congr hsame hc := by
    have hregistry := congrArg Compilation.registry hsame
    have hscopes := congrArg Compilation.scopes hsame
    dsimp only [Compilation.context] at hregistry hscopes
    unfold NamesClasses
    rw [hregistry, hscopes]
    exact hc

instance : Modular NamesClasses where
  enter _ hc := hc
  leave path before hpop hc h k hk := by
    rw [Scopes.global_pop hpop]
    exact hc h k hk

instance (name : Ident) : Preserves NamesClasses (requireNative name) where
  keeps {c c' _} hc h := by
    have hregistry : c'.registry = c.registry := h.keeps
    unfold requireNative at h
    split at h
    · simp at h
    · simp only [yields_bind, yields_get, and_assoc, exists_and_left, exists_eq_left] at h
      split at h
      · rw [yields_define] at h
        obtain ⟨s, hs, rfl⟩ := h
        intro k d hd
        obtain ⟨e, he, hmeaning⟩ := hc k d hd
        exact ⟨e, Scopes.global_find?_define he hmeaning hs, hmeaning⟩
      · rw [(yields_pure.mp h).2]
        exact hc

instance (path : String) (d : ClassDecl) : Preserves NamesClasses (declareClass path d) where
  keeps {c c' p} hc h := by
    simp only [declareClass, yields_bind, yields_get, and_assoc, exists_and_left,
      exists_eq_left] at h
    split at h
    · simp at h
    · simp only [defineTopLevel, yields_bind, yields_modifyRegistry, yields_define,
        yields_updateScopes, yields_pure, exists_eq_left] at h
      obtain ⟨_, _, _, ⟨_, _, ⟨s, hs, rfl⟩, s', hs', rfl⟩, _, rfl⟩ := h
      simp only [Scopes.defineGlobal, except_bind_eq_ok, except_pure_eq_ok] at hs'
      obtain ⟨g, hg, rfl⟩ := hs'
      intro k e hk
      have hk := (Registry.class?_addClass ..).symm.trans hk
      split at hk
      · rename_i hnew
        injection hk with hk
        subst hk hnew
        exact ⟨_, Scope.find?_define_class hg, rfl⟩
      · obtain ⟨entry, hentry, hmeaning⟩ := hc k e hk
        exact ⟨entry, Scope.find?_define_of_class (Scopes.global_find?_define hentry hmeaning hs)
          hmeaning hg, hmeaning⟩

theorem namesClasses_start {o : Options} {c : Compilation} (h : Compilation.start o = .ok c) :
    c.NamesClasses := by
  intro k d hd
  rw [Dispatch.start_registry h] at hd
  have hd := (Registry.class?_addClass ..).symm.trans hd
  unfold Compilation.start at h
  simp only [except_bind_eq_ok, except_pure_eq_ok] at h
  obtain ⟨_, _, scopes, hscopes, rfl⟩ := h
  split at hd
  · rename_i hroot
    injection hd with hd
    subst hd hroot
    injection hscopes with hscopes
    exact ⟨⟨.classOf Class.rootHash, .unknown⟩, hscopes ▸ rfl, rfl⟩
  · cases hd

/-! ## Names of declared classes -/

theorem declareItems_decls {path : String} {items : List Item} :
    ∀ {c c' : Compilation} {ps : List PendingClass}, Yields (declareItems path items) c ps c' →
      ps.map (·.decl) = items.filterMap Item.class? := by
  induction items with
  | nil =>
    intro c c' ps h
    rw [(yields_pure.mp h).1]
    rfl
  | cons item rest ih =>
    intro c c' ps h
    cases item with
    | classDecl d =>
      simp only [declareItems, yields_bind, yields_pure] at h
      obtain ⟨p, c₁, hp, more, c₂, hmore, rfl, rfl⟩ := h
      rw [(declareClass_effect hp).1, List.map_cons, ih hmore]
      rfl
    | require name =>
      simp only [declareItems, yields_bind] at h
      obtain ⟨_, c₁, _, hrest⟩ := h
      exact ih hrest
    | _ => exact ih h

/-- Every declared class is pending, in order of declaration. -/
theorem declareModules_decls {ms : List Module} :
    ∀ {c c' : Compilation} {ps : List PendingClass}, Yields (declareModules ms) c ps c' →
      ps.map (·.decl) = ms.flatMap fun m => m.items.filterMap Item.class? := by
  induction ms with
  | nil =>
    intro c c' ps h
    rw [(yields_pure.mp h).1]
    rfl
  | cons m ms ih =>
    intro c c' ps h
    simp only [declareModules, yields_bind, yields_pure] at h
    obtain ⟨ps₁, c₁, hitems, ps₂, c₂, hrest, rfl, rfl⟩ := h
    obtain ⟨_, _, hbody, _, _⟩ := inModule_effect hitems
    rw [List.map_append, declareItems_decls hbody, ih hrest, List.flatMap_cons]

/-- No class has template parameters yet. -/
def Bare (c : Compilation) : Prop := ∀ h k, c.registry.class? h = some k → k.templates = []

theorem Bare.congr {c c' : Compilation} (hc : Bare c) (hr : c'.registry = c.registry) : Bare c' := by
  unfold Bare
  rw [hr]
  exact hc

instance : Contextual Bare where
  congr hsame hc := hc.congr (congrArg Compilation.registry hsame :)

instance : Modular Bare where
  enter _ hc := hc
  leave _ _ _ hc := hc

instance (name : Ident) : Preserves Bare (requireNative name) where
  keeps hc h := hc.congr h.keeps

instance (path : String) (d : ClassDecl) : Preserves Bare (declareClass path d) where
  keeps hc h := by
    obtain ⟨_, _, hadd⟩ := declareClass_effect h
    intro k e hk
    rw [hadd, Registry.class?_addClass] at hk
    split at hk
    · injection hk with hk
      exact hk ▸ rfl
    · exact hc k e hk

theorem bare_start {o : Options} {c : Compilation} (h : Compilation.start o = .ok c) : Bare c := by
  intro k d hd
  rw [Dispatch.start_registry h] at hd
  have hd := (Registry.class?_addClass ..).symm.trans hd
  split at hd
  · injection hd with hd
    exact hd ▸ rfl
  · cases hd

/-- The template parameters of classes are named as they are declared. -/
theorem resolveHeaders_templates {N : String → Prop} {ps : List PendingClass} {c c' : Compilation}
    {u : Unit} (hps : ∀ p ∈ ps, ∀ t ∈ p.decl.templates, N t.name) (hc : Bare c)
    (h : Yields (resolveHeaders ps) c u c') {k : TypeHash} {d : Class}
    (hk : c'.registry.class? k = some d) : ∀ t ∈ d.templates, N t.name := by
  obtain ⟨c₁, c₂, htemplates, hbases, rfl⟩ := yields_resolveHeaders h
  have hnamed : ∀ k d, c₁.registry.class? k = some d → ∀ t ∈ d.templates, N t.name := by
    refine forM_induction (fun c => ∀ k d, c.registry.class? k = some d →
      ∀ t ∈ d.templates, N t.name) ?_ ?_ htemplates
    · intro p hp c _ c' hc hstep k d hk t ht
      obtain ⟨ts, hts, hset⟩ := resolveTemplates_effect hstep
      rw [hset, Registry.class?_modifyClass] at hk
      split at hk
      · obtain ⟨d₀, _, rfl⟩ := Option.map_eq_some_iff.mp hk
        have hmem : t.name ∈ p.decl.templates.map (·.name) := hts ▸ List.mem_map_of_mem ht
        obtain ⟨t₀, ht₀, heq⟩ := List.mem_map.mp hmem
        exact heq ▸ hps p hp t₀ ht₀
      · exact hc k d hk t ht
    · intro k d hk t ht
      rw [hc k d hk] at ht
      exact absurd ht List.not_mem_nil
  have hchanges := forM_changes (π := Class.templates)
    (fun p hp k _ k' hstep => by
      obtain ⟨bases, _, hset⟩ := resolveBases_effect hstep
      rw [hset]
      exact .modifyClass ⟨p, hp, rfl⟩ fun _ => rfl) hbases
  obtain ⟨d₁, hd₁, heq⟩ := hchanges.exists_class_before hk
  exact heq ▸ hnamed k d₁ hd₁

/-- If the names that a program declares are identifiers, so are those of its classes and of their
template parameters. -/
theorem identified_of_headers {p : Program} {ps ordered : List PendingClass}
    {c c₁ c₂ c₃ c₄ c' : Compilation} (hnames : ∀ n ∈ p.names, IsIdentifier n)
    (hd : Declared c.registry []) (hc : Bare c)
    (h : Dispatch.HeaderSteps p ps ordered c c₁ c₂ c₃ c₄ c') : c'.registry.Identified := by
  have hchanges := h.changes hd
  have hdecls : ps.map (·.decl) = p.classes := declareModules_decls h.declared
  have hdeclared : ∀ q ∈ ps, ∀ n ∈ Item.names (.classDecl q.decl), IsIdentifier n := by
    intro q hq n hn
    have hclass : q.decl ∈ p.classes := hdecls ▸ List.mem_map_of_mem hq
    obtain ⟨m, hm, hitem⟩ := Program.mem_classes.mp hclass
    exact hnames n (Program.mem_names hm hitem hn)
  have hd₂ : Declared c₂.registry ps :=
    hchanges.declared.changes (hchanges.resolved.coarsen lasting fun _ => rfl)
  intro k d hk
  obtain ⟨d₂, hk₂, heq⟩ := (hchanges.kept (fun k : Class => (k.name, k.templates)) (fun _ => rfl)
    fun _ => rfl).exists_class_before hk
  obtain ⟨hname, htemplates⟩ := Prod.mk.inj heq
  rw [← hname, ← htemplates]
  constructor
  -- The root has a name of its own, all others have the names that they are declared with.
  · rcases hd₂.known k d₂ hk₂ with rfl | ⟨q, hq, rfl⟩
    · have hroot := hd₂.rootClass
      rw [hk₂] at hroot
      injection hroot with hroot
      have hidentifier : IsIdentifier Class.rootName := by decide
      exact hroot ▸ hidentifier
    · obtain ⟨d, hd, hdname⟩ := hd₂.registered q hq
      rw [hk₂] at hd
      injection hd with hd
      rw [hd, hdname]
      exact hdeclared q hq _ List.mem_cons_self
  · refine resolveHeaders_templates (fun q hq t ht => ?_) (h.declared.preserves hc) h.resolved hk₂
    exact hdeclared q hq _
      (List.mem_cons_of_mem _ (List.mem_append_left _ (List.mem_map_of_mem ht)))

end Registration

/-! ## Written types -/

open Lowering

/-- Classes and template parameters that are visible can be named where the template parameters `ps`
are visible; built-in types hide what is named like them. -/
def SeesNamed (r : Registry) (ps : List TemplateParam) (c : Compilation) : Prop :=
  ∀ n e, c.scopes.find? n = some e → Prim.ofName? n = none →
    (∀ h, e.meaning = .classOf h → r.CanName ps h) ∧
      ∀ t, e.meaning = .typeParam t → t.Named r ps

variable {r : Registry} {ps : List TemplateParam}

theorem SeesNamed.of_context {c c' : Compilation} (h : SeesNamed r ps c)
    (hc : c'.context = c.context) : SeesNamed r ps c' := by
  have hscopes : c'.scopes = c.scopes := (congrArg Compilation.scopes hc :)
  unfold SeesNamed
  rw [hscopes]
  exact h

/-- A step that leaves the context alone leaves the names alone. -/
theorem SeesNamed.after {α : Type} {m : CompileM α} [Keeps Compilation.context m]
    {c c' : Compilation} {a : α} (h : SeesNamed r ps c) (hm : Yields m c a c') : SeesNamed r ps c' :=
  h.of_context hm.keeps

mutual

theorem resolveType_named : ∀ (e : TypeExpr) {c c' : Compilation} {t : Ty}, SeesNamed r ps c →
    Yields (resolveType e) c t c' → t.Named r ps
  | .named name args span, c, c', t, hsees, h => by
    unfold resolveType at h
    split at h
    · split at h
      · rw [(yields_pure.mp h).1]
        exact .prim _
      · simp at h
    · rename_i hprim
      simp only [yields_bind, meaning?, yields_get, yields_pure, and_assoc, exists_and_left,
        exists_eq_left] at h
      split at h
      · rename_i hash hd
        -- A name that is visible stands for a class under its own name, or for a parameter in `ps`.
        obtain ⟨e, he, hmeaning⟩ := Option.map_eq_some_iff.mp hd
        have hclass := (hsees name e he hprim).1 hash hmeaning
        split at h
        · rw [(yields_pure.mp h).1]
          exact .classRef hclass
        · simp only [yields_bind, yields_askRegistry, Registry.getClass_eq_ok] at h
          obtain ⟨k, _, ⟨_, rfl⟩, h⟩ := h
          split at h
          · simp at h
          · simp only [yields_bind, yields_pure] at h
            obtain ⟨as, c₁, hargs, rfl, rfl⟩ := h
            exact .applied hclass (resolveArgs_named k.name k.templates args hsees hargs)
      · rename_i u hd
        obtain ⟨e, he, hmeaning⟩ := Option.map_eq_some_iff.mp hd
        split at h
        · rw [(yields_pure.mp h).1]
          exact (hsees name e he hprim).2 u hmeaning
        · simp at h
      · simp at h
      · simp at h
  | .pointer inner _, c, c', t, hsees, h => by
    simp only [resolveType, yields_bind, yields_pure] at h
    obtain ⟨u, c₁, hu, rfl, rfl⟩ := h
    exact .pointer (resolveType_named inner hsees hu)
  | .array inner _, c, c', t, hsees, h => by
    simp only [resolveType, yields_bind, yields_pure] at h
    obtain ⟨u, c₁, hu, rfl, rfl⟩ := h
    exact .array (resolveType_named inner hsees hu)
  | .function params result _, c, c', t, hsees, h => by
    simp only [resolveType, yields_bind, yields_pure] at h
    obtain ⟨us, c₁, hus, u, c₂, hu, rfl, rfl⟩ := h
    exact .callable (resolveTypes_named params hsees hus)
      (resolveType_named result (hsees.after hus) hu)

theorem resolveTypes_named : ∀ (es : List TypeExpr) {c c' : Compilation} {ts : List Ty},
    SeesNamed r ps c → Yields (resolveTypes es) c ts c' → ∀ t ∈ ts, t.Named r ps
  | [], c, c', ts, _, h => by
    simp only [resolveTypes, yields_pure] at h
    rw [h.1]
    exact List.forall_mem_nil _
  | e :: es, c, c', ts, hsees, h => by
    simp only [resolveTypes, yields_bind, yields_pure] at h
    obtain ⟨u, c₁, hu, us, c₂, hus, rfl, rfl⟩ := h
    exact List.forall_mem_cons.mpr
      ⟨resolveType_named e hsees hu, resolveTypes_named es (hsees.after hu) hus⟩

theorem resolveArgs_named (owner : String) : ∀ (qs : List TemplateParam) (es : List TypeExpr)
    {c c' : Compilation} {as : List Ty}, SeesNamed r ps c →
    Yields (resolveArgs owner qs es) c as c' → ∀ a ∈ as, a.Named r ps
  | [], _, c, c', as, _, h | _ :: _, [], c, c', as, _, h => by
    simp only [resolveArgs, yields_pure] at h
    rw [h.1]
    exact List.forall_mem_nil _
  | q :: qs, e :: es, c, c', as, hsees, h => by
    simp only [resolveArgs, yields_bind, yields_get, yields_pure, and_assoc, exists_and_left,
      exists_eq_left] at h
    obtain ⟨a, c₁, ha, _, c₂, hcheck, as, c₃, has, rfl, rfl⟩ := h
    exact List.forall_mem_cons.mpr ⟨resolveType_named e hsees ha,
      resolveArgs_named owner qs es ((hsees.after ha).after hcheck) has⟩

end

namespace Registration

theorem resolveParams_named {params : List Param} {c c' : Compilation} {ts : List Ty}
    (hsees : SeesNamed r ps c) (h : Yields (params.mapM resolveParam) c ts c') :
    ∀ t ∈ ts, t.Named r ps := by
  refine (mapM_induction (SeesNamed r ps) (fun p _ c₁ t c₂ hsees hp => ⟨hsees.after hp, ?_⟩)
    hsees h).2
  simp only [resolveParam, yields_bind, yields_pure] at hp
  obtain ⟨_, _, htype, _, _, _, rfl, _⟩ := hp
  exact resolveType_named p.type hsees htype

theorem resolveSignature_named {d : FunctionDecl} {c c' : Compilation} {params : List Ty}
    {result : Ty} (hsees : SeesNamed r ps c)
    (h : Yields (resolveSignature d) c (params, result) c') : ∀ t ∈ params, t.Named r ps := by
  obtain ⟨⟨c₁, hparams⟩, _⟩ := resolveSignature_spec h
  exact resolveParams_named hsees hparams

/-- Inside of a class its template parameters hide what is named like them. -/
theorem seesNamed_of_outer {V : Binding → Prop} {c c₀ : Compilation} (hc : c.Outer V)
    (hr : c.registry.Identified) (hps : ∀ p ∈ ps, IsIdentifier p.name)
    (hfound : ∀ n e, c₀.scopes.find? n = some e →
      (c.scopes.find? n = some e ∧ ∀ p ∈ ps, p.name ≠ n) ∨
        ∃ p ∈ ps, p.name = n ∧ e.meaning = .typeParam (.param p.name p.bound)) :
    SeesNamed c.registry ps c₀ := by
  intro n e he hprim
  rcases hfound n e he with ⟨he, hfree⟩ | ⟨p, hp, rfl, hmeaning⟩
  · have houter := hc.find? he
    constructor
    · intro h hclass
      rw [hclass] at houter
      obtain ⟨k, hk, rfl⟩ := houter
      exact ⟨k, hk, (hr hk).1, hprim, hfree⟩
    · intro t hparam
      rw [hparam] at houter
      exact absurd houter id
  · rw [hmeaning]
    refine ⟨fun h hclass => (by cases hclass), fun t ht => ?_⟩
    injection ht with ht
    exact ht ▸ .param hp (hps p hp) hprim

end Registration

end ClassLang
