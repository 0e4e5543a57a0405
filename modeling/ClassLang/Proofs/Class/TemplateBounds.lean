import ClassLang.Proofs.Registration.Bounds

/-!
# Template bounds in what classes record

A class records types of its own body and types that it has from its bases. The latter are written
in the terms of the class: the template parameters of the base are replaced by the arguments with
which it is inherited, by name; those of a base without arguments are left as they are.

So every recorded type comes from one that is written in some class body, by a chain of replacements
along the hierarchy. On the way an instance keeps the number of its arguments. It also keeps them
within their bounds, unless a parameter that an ancestor left open is captured: it has the name of a
parameter of the class in between, but not its bound. No parameter is left open if every generic
base is written with arguments.
-/

namespace ClassLang

open Registration

variable {r : Registry}

/-- The types that a class records: its bases, its generic ancestors with their arguments, and the
types of its fields and of its slots. -/
inductive Class.Mentions (c : Class) : Ty → Prop
  | base {t : Ty} : t ∈ c.bases → c.Mentions t
  | inherited {a : TypeHash} {args : List Ty} :
      c.inherited.find? a = some args → c.Mentions (.applied a args)
  | field {f : Field} : f ∈ c.fields → c.Mentions f.type
  | result {k : Rank} : k ∈ c.ranks → c.Mentions k.result
  | param {k : Rank} {t : Ty} : k ∈ c.ranks → t ∈ k.params → c.Mentions t

/-- An instance has as many arguments as its class has template parameters, all of them
class-like. -/
def Registry.WellFormed (r : Registry) (x : TypeHash × List Ty) : Prop :=
  ∃ k, r.class? x.1 = some k ∧ x.2.length = k.templates.length ∧ ∀ a ∈ x.2, a.isClassLike = true

/-- An instance has for every template parameter of its class an argument below its bound. -/
def Registry.WithinBounds (r : Registry) (x : TypeHash × List Ty) : Prop :=
  ∃ k, r.class? x.1 = some k ∧ List.Forall₂ (fun a p => r.Below a p.bound) x.2 k.templates

theorem Registry.WithinBounds.wellFormed {x : TypeHash × List Ty} (h : r.WithinBounds x) :
    r.WellFormed x := by
  obtain ⟨k, hk, hargs⟩ := h
  refine ⟨k, hk, hargs.length_eq, fun a ha => ?_⟩
  obtain ⟨p, _, hbelow⟩ := exists_right_of_forall₂ hargs ha
  exact hbelow.isClassLike

/-- No parameter that the class has from somewhere else is taken for one of its own: where the
names are the same, its own has the same bound or one below it. -/
def Registry.Uncaptured (r : Registry) (c : Class) : Prop :=
  ∀ t, c.Mentions t → ∀ y ∈ t.params, ∀ p ∈ c.templates, p.name = y.1 →
    p.bound = y.2 ∨ r.Below (.classRef p.bound) y.2

/-- Every generic base of the class is written with arguments. -/
def Registry.Instantiates (r : Registry) (c : Class) : Prop :=
  ∀ t ∈ c.bases, ∀ b base, t.classHash? = some b → r.class? b = some base →
    base.templates ≠ [] → t.args ≠ []

/-! ## Where recorded types come from -/

/-- A property of types that holds of those that are written in a class body, and goes over from a
base to a class. A class has a type from a base as it is, if the base is written without arguments,
or with the template parameters of the base replaced by the arguments that the class has recorded
for it. -/
structure PassesOn (r : Registry) (P : TypeHash → Ty → Prop) : Prop where
  own : ∀ {h t}, r.Written h t → P h t
  bare : ∀ {h c t b base u}, r.class? h = some c → t ∈ c.bases → t.classHash? = some b →
    r.class? b = some base → t.args = [] → base.Mentions u → P b u → P h u
  bound : ∀ {h c b base u args}, r.class? h = some c → b ∈ baseHashes c →
    r.class? b = some base → c.Mentions (.applied b args) → P h (.applied b args) →
    base.Mentions u → P b u → P h (u.substitute base.templateNames args)

/-- The property holds of every type that a base of the class records. -/
def HoldsInBases (r : Registry) (P : TypeHash → Ty → Prop) (c : Class) : Prop :=
  ∀ b ∈ baseHashes c, ∀ base, r.class? b = some base → ∀ t, base.Mentions t → P b t

section Origins

variable {o : Options} {p : Program} {P : TypeHash → Ty → Prop} {h b : TypeHash} {c base : Class}
  {t u : Ty}

/-- A base that is written with arguments is an instance with these. -/
theorem eq_applied_of_base (haccepted : accepted? o p = some r) (hc : r.class? h = some c)
    (ht : t ∈ c.bases) (hb : t.classHash? = some b) (hargs : t.args ≠ []) :
    t = .applied b t.args := by
  have hclass := bases_of_accepted? haccepted hc t ht
  cases t with
  | applied a as =>
    injection hb with hb
    exact hb ▸ rfl
  | classRef => exact absurd rfl hargs
  | _ => cases hclass

/-- The arguments of a generic ancestor: they are written at a base, or come from a base. -/
theorem PassesOn.inherited (hP : PassesOn r P) (haccepted : accepted? o p = some r)
    (hc : r.class? h = some c) (hbases : HoldsInBases r P c) {a : TypeHash} {args : List Ty}
    (hfind : c.inherited.find? a = some args) : P h (.applied a args) := by
  have hw := wellWritten_of_accepted? haccepted
  have hr := (Dispatch.tables_of_accepted? haccepted).hierarchy
  rcases (inheritedArgs_find? (records_of_accepted? haccepted h c hc)).1 args hfind with
    hnone | ⟨t, ht, hoffer⟩
  · cases hnone
  unfold offered? at hoffer
  obtain ⟨base, hbase, hoffer⟩ := Option.bind_eq_some_iff.mp hoffer
  obtain ⟨b, hb, hbase⟩ := Option.bind_eq_some_iff.mp hbase
  have hmem : b ∈ baseHashes c := List.mem_filterMap.mpr ⟨t, ht, hb⟩
  split at hoffer
  · rename_i hself
    injection hoffer with hargs
    rw [hr.hash_eq hbase] at hself
    obtain ⟨rfl, hsome⟩ := hself
    rw [← hargs, ← eq_applied_of_base haccepted hc ht hb hsome]
    exact hP.own (hw.bases hc t ht)
  · obtain ⟨terms, hterms, rfl⟩ := Option.map_eq_some_iff.mp hoffer
    have hancestor : base.Mentions (.applied a terms) := .inherited hterms
    have hbefore := hbases b hmem base hbase _ hancestor
    by_cases hargs : t.args = []
    · rw [hargs, Ty.substituteAll_nil]
      exact hP.bare hc ht hb hbase hargs hancestor hbefore
    · have hself := eq_applied_of_base haccepted hc ht hb hargs
      exact hP.bound hc hmem hbase (hself ▸ .base ht) (hself ▸ hP.own (hw.bases hc t ht))
        hancestor hbefore

/-- What a base records, in the terms of the class. -/
theorem PassesOn.inOwnTerms (hP : PassesOn r P) (haccepted : accepted? o p = some r)
    (hc : r.class? h = some c) (hbases : HoldsInBases r P c) (hb : b ∈ baseHashes c)
    (hbase : r.class? b = some base) (hu : base.Mentions u) : P h (c.inOwnTerms base u) := by
  have hr := (Dispatch.tables_of_accepted? haccepted).hierarchy
  have hbefore := hbases b hb base hbase u hu
  unfold Class.inOwnTerms
  rw [hr.hash_eq hbase]
  cases hfind : c.inherited.find? b with
  | some args =>
    exact hP.bound hc hb hbase (.inherited hfind) (hP.inherited haccepted hc hbases hfind) hu hbefore
  | none =>
    obtain ⟨t, ht, hbt⟩ := List.mem_filterMap.mp hb
    refine hP.bare hc ht hbt hbase ?_ hu hbefore
    -- the arguments of a base would be recorded
    by_contra hargs
    have hwritten := inheritedArgs_written (hr.baseHashes_nodup hc)
      (fun _ _ hk => hr.hash_eq hk) ht hbt hargs (records_of_accepted? haccepted h c hc)
    rw [hfind] at hwritten
    cases hwritten

/-- The types of a method are in its signature. -/
theorem PassesOn.signed (hP : PassesOn r P) (haccepted : accepted? o p = some r) {m : OwnMethod}
    (hm : Signed r h m) : ∀ t ∈ m.result :: m.params, P h t := by
  intro t ht
  obtain ⟨s, hs, hdesc⟩ := hm.signature
  rw [← hdesc.result, ← hdesc.params] at ht
  exact hP.own ((wellWritten_of_accepted? haccepted).signatures _ s h hs hdesc.owner_eq t ht)

/-- The types of a slot: of a method of the class, or of the slot of a base. -/
theorem PassesOn.rank (hP : PassesOn r P) (haccepted : accepted? o p = some r)
    (hc : r.class? h = some c) (hbases : HoldsInBases r P c) {k : Rank} (hk : k ∈ c.ranks) :
    ∀ t ∈ k.result :: k.params, P h t := by
  obtain ⟨body, inh, htabled, hbody⟩ := (Dispatch.tables_of_accepted? haccepted).tabled hc
  rcases htabled.rank_cases hk with ⟨_, m, hm, heq⟩ | ⟨base, k₀, hdesc⟩
  · rw [heq]
    exact hP.signed haccepted (hbody m hm)
  obtain ⟨_, b, hb, hbase⟩ := Dispatch.firstSeeing?_sees hdesc.first
  refine List.forall_mem_cons.mpr ⟨?_, ?_⟩
  · rcases hdesc.result with ⟨hresult, _⟩ | ⟨m, hm, _, hresult, _⟩
    · rw [hresult]
      exact hP.inOwnTerms haccepted hc hbases hb hbase (.result hdesc.mem)
    · rw [hresult]
      exact hP.signed haccepted (hbody m hm) _ (List.mem_cons_self ..)
  · rw [hdesc.params]
    intro t ht
    obtain ⟨u, hu, rfl⟩ := List.mem_map.mp ht
    exact hP.inOwnTerms haccepted hc hbases hb hbase (.param hdesc.mem hu)

/-- What is passed on holds of every type that a class records. -/
theorem PassesOn.mentions (hP : PassesOn r P) (haccepted : accepted? o p = some r)
    (hc : r.class? h = some c) (hmention : c.Mentions t) : P h t := by
  have hw := wellWritten_of_accepted? haccepted
  have hr := (Dispatch.tables_of_accepted? haccepted).hierarchy
  refine hr.induction (P := fun h c => ∀ t, c.Mentions t → P h t) ?_ hc t hmention
  intro h c hc hbases t hmention
  cases hmention with
  | base ht => exact hP.own (hw.bases hc t ht)
  | inherited hfind => exact hP.inherited haccepted hc hbases hfind
  | field hf =>
    rcases (hw.fields hc).origins _ hf with hown | ⟨b, hb, base, hbase, g, hg, heq⟩
    · exact hr.hash_eq hc ▸ hP.own hown
    · rw [heq]
      exact hP.inOwnTerms haccepted hc hbases hb hbase (.field hg)
  | result hk => exact hP.rank haccepted hc hbases hk _ (List.mem_cons_self ..)
  | param hk ht => exact hP.rank haccepted hc hbases hk _ (List.mem_cons_of_mem _ ht)

end Origins

/-! ## What replacing parameters does to instances -/

theorem classHash?_substitute_of_not_isParam {names : List String} {args : List Ty} :
    ∀ {t : Ty}, t.isParam = false → (t.substitute names args).classHash? = t.classHash?
  | .prim _, _ | .pointer _, _ | .array _, _ | .callable .., _ | .classRef _, _ | .applied .., _
  | .intrinsic .., _ => rfl

/-- Class-like types stay class-like if the arguments are. -/
theorem isClassLike_substitute {names : List String} {args : List Ty}
    (hargs : ∀ a ∈ args, a.isClassLike = true) {t : Ty} (ht : t.isClassLike = true) :
    (t.substitute names args).isClassLike = true := by
  cases hparam : t.isParam with
  | false =>
    unfold Ty.isClassLike at ht ⊢
    rwa [classHash?_substitute_of_not_isParam hparam]
  | true =>
    cases t with
    | param n b =>
      rw [Ty.substitute]
      cases hb : Ty.binding? names args n with
      | none => rfl
      | some u => exact hargs u (Ty.mem_of_binding? hb)
    | _ => cases hparam

theorem Registry.WellFormed.substitute {names : List String} {args : List Ty}
    (hargs : ∀ a ∈ args, a.isClassLike = true) {z : TypeHash × List Ty} (hz : r.WellFormed z) :
    r.WellFormed (z.1, Ty.substituteAll names args z.2) := by
  obtain ⟨k, hk, hlen, hlike⟩ := hz
  refine ⟨k, hk, ?_, fun a ha => ?_⟩
  · rw [← hlen, Ty.substituteAll_eq_map, List.length_map]
  rw [Ty.substituteAll_eq_map] at ha
  obtain ⟨u, hu, rfl⟩ := List.mem_map.mp ha
  exact isClassLike_substitute hargs (hlike u hu)

/-- What is below a class is below the ancestors of the class. -/
theorem Registry.Below.trans (hr : Hierarchy r) {t : Ty} {a d : TypeHash} (ht : r.Below t a)
    (ha : r.Below (.classRef a) d) : r.Below t d := by
  obtain ⟨k, K, hk, hK, hmem⟩ := ht
  obtain ⟨_, A, ⟨⟩, hA, hd⟩ := ha
  exact ⟨k, K, hk, hK, hr.mro_trans hK hmem hA hd⟩

/-- Arguments stay within their bounds where parameters are replaced by arguments that are within
theirs, and no parameter is captured. -/
theorem below_substitute (hr : Hierarchy r) {base : Class} {args : List Ty}
    (hargs : List.Forall₂ (fun a p => r.Below a p.bound) args base.templates) {t : Ty}
    {bound : TypeHash} (ht : r.Below t bound)
    (hfree : ∀ y ∈ t.params, ∀ p ∈ base.templates, p.name = y.1 →
      p.bound = y.2 ∨ r.Below (.classRef p.bound) y.2) :
    r.Below (t.substitute base.templateNames args) bound := by
  cases hparam : t.isParam with
  | false =>
    obtain ⟨k, K, hk, hrest⟩ := ht
    exact ⟨k, K, (classHash?_substitute_of_not_isParam hparam).trans hk, hrest⟩
  | true =>
    cases t with
    | param n b =>
      rw [Ty.substitute]
      cases hb : Ty.binding? base.templateNames args n with
      | none => exact ht
      | some u =>
        obtain ⟨p, hp, hname, hu⟩ := Ty.exists_param_of_binding? hargs hb
        have hown : r.Below u b := by
          rcases hfree (n, b) (List.mem_singleton.mpr rfl) p hp hname with rfl | hbelow
          · exact hu
          · exact hu.trans hr hbelow
        exact hown.trans hr ht
    | _ => cases hparam

theorem Registry.WithinBounds.substitute (hr : Hierarchy r) {base : Class} {args : List Ty}
    (hargs : List.Forall₂ (fun a p => r.Below a p.bound) args base.templates)
    {z : TypeHash × List Ty} (hz : r.WithinBounds z)
    (hfree : ∀ y ∈ Ty.allParams z.2, ∀ p ∈ base.templates, p.name = y.1 →
      p.bound = y.2 ∨ r.Below (.classRef p.bound) y.2) :
    r.WithinBounds (z.1, Ty.substituteAll base.templateNames args z.2) := by
  obtain ⟨k, hk, hbelow⟩ := hz
  refine ⟨k, hk, ?_⟩
  dsimp only
  rw [Ty.substituteAll_eq_map, List.forall₂_map_left_iff]
  have hmem := (List.forall₂_and_left (p := fun a => a ∈ z.2) ..).mpr ⟨fun _ h => h, hbelow⟩
  refine hmem.imp fun a p hap => ?_
  exact below_substitute hr hargs hap.2 fun y hy =>
    hfree y (Ty.mem_allParams.mpr ⟨a, hap.1, hy⟩)

/-! ## Accepted programs -/

namespace Registration

/-- What holds of all ancestors of a class holds of all ancestors of a base. -/
theorem Hierarchy.forall_mro_of_base (hr : Hierarchy r) {Q : Class → Prop} {h b : TypeHash}
    {c base : Class} (hc : r.class? h = some c) (hb : b ∈ baseHashes c)
    (hbase : r.class? b = some base) (hall : ∀ a ∈ c.mro, ∀ A, r.class? a = some A → Q A) :
    ∀ a ∈ base.mro, ∀ A, r.class? a = some A → Q A := fun a ha =>
  hall a (hr.mro_trans hc (hr.mem_mro_of_mem_bases hc hb) hbase ha)

section Accepted

variable {o : Options} {p : Program} (h : accepted? o p = some r)

include h

theorem instances_wellFormed {k : TypeHash} {c : Class} (hc : r.class? k = some c) {t : Ty}
    (ht : c.Mentions t) : ∀ x ∈ t.instances, r.WellFormed x := by
  refine PassesOn.mentions (P := fun _ t => ∀ x ∈ t.instances, r.WellFormed x)
    ⟨?own, ?bare, ?bound⟩ h hc ht
  case own =>
    rintro k t ⟨_, _, hresolved⟩ x hx
    exact Registry.WithinBounds.wellFormed (hresolved.instances x hx)
  case bare => exact fun _ _ _ _ _ _ hu => hu
  case bound =>
    intro k c b base u args _ _ _ _ hargs _ hu x hx
    rcases Ty.mem_instances_substitute hx with ⟨z, hz, rfl⟩ | hx
    · obtain ⟨_, _, _, hlike⟩ := hargs (b, args) (List.mem_cons_self ..)
      exact (hu z hz).substitute hlike
    · exact hargs x (List.mem_cons_of_mem _ hx)

theorem instances_withinBounds {k : TypeHash} {c : Class} (hc : r.class? k = some c)
    (hfree : ∀ a ∈ c.mro, ∀ A, r.class? a = some A → r.Uncaptured A) {t : Ty}
    (ht : c.Mentions t) : ∀ x ∈ t.instances, r.WithinBounds x := by
  have hr := (Dispatch.tables_of_accepted? h).hierarchy
  refine PassesOn.mentions (P := fun k t => ∀ c, r.class? k = some c →
    (∀ a ∈ c.mro, ∀ A, r.class? a = some A → r.Uncaptured A) →
    ∀ x ∈ t.instances, r.WithinBounds x) ⟨?own, ?bare, ?bound⟩ h hc ht c hc hfree
  case own =>
    rintro k t ⟨_, _, hresolved⟩ c _ _ x hx
    exact hresolved.instances x hx
  case bare =>
    intro k c t b base u hc ht hb hbase _ _ hu c' hc' hfree
    rw [hc] at hc'
    injection hc' with hc'
    subst hc'
    exact hu base hbase (hr.forall_mro_of_base hc (List.mem_filterMap.mpr ⟨t, ht, hb⟩) hbase hfree)
  case bound =>
    intro k c b base u args hc hb hbase _ hargs hmention hu c' hc' hfree x hx
    rw [hc] at hc'
    injection hc' with hc'
    subst hc'
    have hargs := hargs c hc hfree
    -- An instance after the substitution comes from one before it or lies in an argument.
    rcases Ty.mem_instances_substitute hx with ⟨z, hz, rfl⟩ | hx
    · obtain ⟨base', hclass, hbelow⟩ := hargs (b, args) (List.mem_cons_self ..)
      dsimp only at hclass
      rw [hbase] at hclass
      injection hclass with hclass
      subst hclass
      -- The arguments are below the bounds of the base, whose parameters the instance is about.
      refine (hu base hbase (hr.forall_mro_of_base hc hb hbase hfree) z hz).substitute hr hbelow
        fun y hy => ?_
      exact hfree b (hr.mem_mro_of_mem_bases hc hb) base hbase u hmention y
        (Ty.mem_params_of_instances hy hz)
    · exact hargs x (List.mem_cons_of_mem _ hx)

/-- Where all generic bases are written with arguments, every parameter in what a class records is
one of its own. -/
theorem params_of_instantiates {k : TypeHash} {c : Class} (hc : r.class? k = some c)
    (hwritten : ∀ a ∈ c.mro, ∀ A, r.class? a = some A → r.Instantiates A) {t : Ty}
    (ht : c.Mentions t) : ∀ y ∈ t.params, ∃ p ∈ c.templates, (p.name, p.bound) = y := by
  have hr := (Dispatch.tables_of_accepted? h).hierarchy
  refine PassesOn.mentions (P := fun k t => ∀ c, r.class? k = some c →
    (∀ a ∈ c.mro, ∀ A, r.class? a = some A → r.Instantiates A) →
    ∀ y ∈ t.params, ∃ p ∈ c.templates, (p.name, p.bound) = y) ⟨?own, ?bare, ?bound⟩ h hc ht c hc
    hwritten
  case own =>
    rintro k t ⟨c', hc', hresolved⟩ c hc _
    rw [hc'] at hc
    injection hc with hc
    exact hc ▸ hresolved.params
  case bare =>
    intro k c t b base u hc ht hb hbase hbare _ hu c' hc' hwritten y hy
    rw [hc] at hc'
    injection hc' with hc'
    subst hc'
    obtain ⟨p, hp, _⟩ :=
      hu base hbase (hr.forall_mro_of_base hc (List.mem_filterMap.mpr ⟨t, ht, hb⟩) hbase hwritten) y hy
    exact absurd hbare (hwritten k (hr.self_mem_mro hc) c hc t ht b base hb hbase
      (List.ne_nil_of_mem hp))
  case bound =>
    intro k c b base u args hc hb hbase hmention hargs _ hu c' hc' hwritten y hy
    rw [hc] at hc'
    injection hc' with hc'
    subst hc'
    rcases Ty.mem_params_substitute hy with ⟨hy, hnone⟩ | hy
    · -- Every parameter of the base has an argument.
      obtain ⟨p, hp, rfl⟩ := hu base hbase (hr.forall_mro_of_base hc hb hbase hwritten) y hy
      obtain ⟨base', hclass, hlen, _⟩ :=
        instances_wellFormed h hc hmention (b, args) (List.mem_cons_self ..)
      dsimp only at hclass hlen
      rw [hbase] at hclass
      injection hclass with hclass
      subst hclass
      refine absurd hnone (Ty.binding?_ne_none ?_ (List.mem_map_of_mem hp))
      rw [Class.templateNames, List.length_map, hlen]
    · exact hargs c hc hwritten y hy

end Accepted

/-- In an accepted program every instance that a class records has an argument for each template
parameter, and all arguments are class-like. They are also within their bounds, unless the class or
an ancestor captures a parameter; and none does if they write their generic bases with arguments. -/
theorem template_bounds_hold {o : Options} {p : Program} (h : accepted? o p = some r)
    {k : TypeHash} {c : Class} (hc : r.class? k = some c) :
    (∀ t, c.Mentions t → ∀ x ∈ t.instances, r.WellFormed x) ∧
    ((∀ a ∈ c.mro, ∀ A, r.class? a = some A → r.Uncaptured A) →
      ∀ t, c.Mentions t → ∀ x ∈ t.instances, r.WithinBounds x) ∧
    ((∀ a ∈ c.mro, ∀ A, r.class? a = some A → r.Instantiates A) →
      ∀ a ∈ c.mro, ∀ A, r.class? a = some A → r.Uncaptured A) := by
  have hr := (Dispatch.tables_of_accepted? h).hierarchy
  refine ⟨fun t => instances_wellFormed h hc, fun hfree t => instances_withinBounds h hc hfree, ?_⟩
  intro hwritten a ha A hA t ht y hy q hq hname
  obtain ⟨p, hp, rfl⟩ := params_of_instantiates h hA
    (fun d hd => hwritten d (hr.mro_trans hc ha hA hd)) ht y hy
  have hsame := List.inj_on_of_nodup_map ((wellWritten_of_accepted? h).names hA) hq hp hname
  exact .inl (congrArg TemplateParam.bound hsame)

/-- A class of a sample program: its template parameters with their bounds, its bases and its
fields. -/
def sampleTemplate (name : String) (templates : List (String × Option String))
    (bases : List TypeExpr) (fields : List (String × TypeExpr)) : Item :=
  .classDecl ⟨⟨name, .unknown⟩,
    templates.map fun t => ⟨t.1, t.2.map fun b => .named b [] .unknown⟩, bases,
    fields.map fun f => ⟨f.1, f.2, .unknown⟩, [], false, .unknown⟩

/-- A field of `A` points to an instance of `G`, whose parameter is bounded by `P`. `B` has the base
`A`, written with the given arguments, and its own parameter has the name of that of `A` and the
given bound, if any; `C` inherits from `B` of `X`, which has that bound as its base. -/
def carriers (bound : Option String) (args : List String) : Program :=
  let named := fun name args => TypeExpr.named name (args.map (.named · [] .unknown)) .unknown
  ⟨[⟨"m", [
    sampleTemplate "P" [] [] [],
    sampleTemplate "X" [] (bound.toList.map (named · [])) [],
    sampleTemplate "G" [("U", some "P")] [] [],
    sampleTemplate "A" [("T", some "P")] [] [("g", .pointer (named "G" ["T"]) .unknown)],
    sampleTemplate "B" [("T", bound)] [named "A" args] [],
    sampleTemplate "C" [] [named "B" ["X"]] []]⟩]⟩

/-- Whether all generic bases of a class are written with arguments. -/
def instantiates (r : Registry) (c : Class) : Bool :=
  c.bases.all fun t =>
    (t.classHash?.bind r.class?).all fun base => base.templates.isEmpty || !t.args.isEmpty

theorem instantiates_iff {c : Class} : instantiates r c = true ↔ r.Instantiates c := by
  simp only [instantiates, List.all_eq_true, Option.all_eq_true, Bool.or_eq_true,
    List.isEmpty_iff, Bool.not_eq_true', List.isEmpty_eq_false_iff, Option.bind_eq_some_iff]
  constructor
  · intro h t ht b base hb hbase hne
    exact (h t ht base ⟨b, hb, hbase⟩).resolve_left hne
  · rintro h t ht base ⟨b, hb, hbase⟩
    exact or_iff_not_imp_left.mpr (h t ht b base hb hbase)

set_option maxRecDepth 100000 in
theorem template_bounds_hold_carriers : ∃ r C,
    accepted? {} (carriers (some "P") ["T"]) = some r ∧
    r.class? (TypeHash.ofName "m$C") = some C ∧
    (C.field? "g").map (·.type) = some (.pointer (.applied (TypeHash.ofName "m$G")
      [.classRef (TypeHash.ofName "m$X")])) ∧
    ∀ t, C.Mentions t → ∀ x ∈ t.instances, r.WithinBounds x := by
  have hrun : ((accepted? {} (carriers (some "P") ["T"])).bind fun r =>
      (r.class? (TypeHash.ofName "m$C")).map fun C =>
        ((C.field? "g").map (·.type), C.mro.all fun a => (r.class? a).all (instantiates r))) =
      some (some (.pointer (.applied (TypeHash.ofName "m$G")
        [.classRef (TypeHash.ofName "m$X")])), true) := by
    decide +kernel
  obtain ⟨r, hr, hrun⟩ := Option.bind_eq_some_iff.mp hrun
  obtain ⟨C, hC, hC'⟩ := Option.map_eq_some_iff.mp hrun
  obtain ⟨hfield, hwritten⟩ := Prod.mk.inj hC'
  obtain ⟨_, hbounds, hfree⟩ := template_bounds_hold hr hC
  refine ⟨r, C, hr, hC, hfield, hbounds (hfree fun a ha A hA => ?_)⟩
  rw [List.all_eq_true] at hwritten
  exact instantiates_iff.mp (Option.all_eq_true _ _ |>.mp (hwritten a ha) A hA)

set_option maxRecDepth 100000 in
/-- A parameter that was left open is captured by a class in between, whose parameter of that name
has no bound, and gets an argument that is not below its bound. -/
theorem template_bounds_can_fail : ¬∀ (o : Options) (p : Program) (r : Registry) (k : TypeHash)
    (c : Class), accepted? o p = some r → r.class? k = some c →
    ∀ t, c.Mentions t → ∀ x ∈ t.instances, r.WithinBounds x := by
  intro hall
  have hrun : ((accepted? {} (carriers none [])).bind fun r =>
      (r.class? (TypeHash.ofName "m$C")).bind fun C => (C.field? "g").bind fun g =>
        (r.class? (TypeHash.ofName "m$G")).bind fun G =>
          (r.class? (TypeHash.ofName "m$X")).map fun X => (g.type, G.templates, X.mro)) =
      some (.pointer (.applied (TypeHash.ofName "m$G") [.classRef (TypeHash.ofName "m$X")]),
        [⟨"U", TypeHash.ofName "m$P"⟩], [TypeHash.ofName "m$X", Class.rootHash]) := by
    decide +kernel
  obtain ⟨r, hr, hrun⟩ := Option.bind_eq_some_iff.mp hrun
  obtain ⟨C, hC, hrun⟩ := Option.bind_eq_some_iff.mp hrun
  obtain ⟨g, hg, hrun⟩ := Option.bind_eq_some_iff.mp hrun
  obtain ⟨G, hG, hrun⟩ := Option.bind_eq_some_iff.mp hrun
  obtain ⟨X, hX, hrun⟩ := Option.map_eq_some_iff.mp hrun
  simp only [Prod.mk.injEq] at hrun
  obtain ⟨htype, htemplates, hmro⟩ := hrun
  -- The field of the subclass mentions `G<X>`, where `X` is not below the bound of `U`.
  have hmention : C.Mentions g.type := .field (List.mem_of_find?_eq_some hg)
  rw [htype] at hmention
  obtain ⟨G', hG', hbelow⟩ := hall {} _ r _ C hr hC _ hmention _ (List.mem_cons_self ..)
  dsimp only at hG'
  rw [hG] at hG'
  injection hG' with hG'
  subst hG'
  rw [htemplates] at hbelow
  obtain ⟨_, X', ⟨⟩, hX', hmem⟩ := (List.forall₂_cons.mp hbelow).1
  rw [hX] at hX'
  injection hX' with hX'
  subst hX'
  rw [hmro] at hmem
  revert hmem
  decide +kernel

end Registration

end ClassLang
