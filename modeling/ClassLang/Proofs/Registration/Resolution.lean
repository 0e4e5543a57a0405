import ClassLang.Proofs.Registration.Scopes
import ClassLang.Proofs.Ty.Instances

/-!
# What a written type becomes

Resolving a written type checks every template argument against the bound of its parameter, or
puts the check off while classes are still being read. Template parameters in the result are those
that are visible where the type is written.
-/

namespace ClassLang

open CompileM Lowering

/-- The type has a class `bound` among its ancestors; a template parameter counts as its bound. -/
def Registry.Below (r : Registry) (t : Ty) (bound : TypeHash) : Prop :=
  ∃ k K, t.classHash? = some k ∧ r.class? k = some K ∧ bound ∈ K.mro

theorem Registry.Below.isClassLike {r : Registry} {t : Ty} {bound : TypeHash}
    (h : r.Below t bound) : t.isClassLike = true := by
  obtain ⟨k, _, hk, _⟩ := h
  rw [Ty.isClassLike, hk]
  rfl

/-- Only the hierarchy decides what is below a class. -/
theorem Registry.Below.congr {r r' : Registry}
    (hr : ∀ h, (r'.class? h).map Class.mro = (r.class? h).map Class.mro) {t : Ty}
    {bound : TypeHash} (h : r.Below t bound) : r'.Below t bound := by
  obtain ⟨k, K, hk, hK, hmem⟩ := h
  have hmro := hr k
  rw [hK, Option.map_some, Option.map_eq_some_iff] at hmro
  obtain ⟨K', hK', heq⟩ := hmro
  exact ⟨k, K', hk, hK', heq ▸ hmem⟩

/-- How a step that resolves types changes the state: it may put checks off, if that is done. -/
def PutsOff (c c' : Compilation) : Prop :=
  ∃ more, c' = { c with deferred := c.deferred ++ more } ∧ (c.deferring = false → more = [])

namespace PutsOff

theorem refl (c : Compilation) : PutsOff c c :=
  ⟨[], by rw [List.append_nil], fun _ => rfl⟩

theorem trans {c c₁ c₂ : Compilation} (h₁ : PutsOff c c₁) (h₂ : PutsOff c₁ c₂) :
    PutsOff c c₂ := by
  obtain ⟨more, rfl, hmore⟩ := h₁
  obtain ⟨more', rfl, hmore'⟩ := h₂
  refine ⟨more ++ more', by rw [List.append_assoc], fun h => ?_⟩
  rw [hmore h, hmore' h]
  rfl

end PutsOff

/-- A template argument is among those that will be checked for a bound. -/
def Awaits (checks : List BoundCheck) (arg : Ty) (bound : TypeHash) : Prop :=
  ∃ check ∈ checks, check.arg = arg ∧ check.bound = .classRef bound

/-- A template argument is accepted for a bound: it is below the bound, or while checks are put
off, it is among those that will be checked. -/
def Compilation.Admits (c : Compilation) (arg : Ty) (bound : TypeHash) : Prop :=
  if c.deferring then Awaits c.deferred arg bound else c.registry.Below arg bound

theorem Compilation.Admits.congr {c c' : Compilation} (hdefer : c'.deferring = c.deferring)
    (hdeferred : c'.deferred = c.deferred) (hr : c'.registry = c.registry) {arg : Ty}
    {bound : TypeHash} (h : c.Admits arg bound) : c'.Admits arg bound := by
  unfold Admits at h ⊢
  rwa [hdefer, hdeferred, hr]

theorem PutsOff.admits {c c' : Compilation} (h : PutsOff c c') {arg : Ty} {bound : TypeHash}
    (hc : c.Admits arg bound) : c'.Admits arg bound := by
  obtain ⟨more, rfl, _⟩ := h
  unfold Compilation.Admits at hc ⊢
  dsimp only
  split at hc
  · rename_i hdefer
    rw [if_pos hdefer]
    obtain ⟨check, hcheck, hsame⟩ := hc
    exact ⟨check, List.mem_append_left _ hcheck, hsame⟩
  · rename_i hnow
    rwa [if_neg hnow]

/-- What a written type becomes where the template parameters `ps` are visible: every instance has
an argument for each parameter of its class, each of which is `ok` for the bound. -/
structure Ty.Resolved (r : Registry) (ok : Ty → TypeHash → Prop) (ps : List TemplateParam)
    (t : Ty) : Prop where
  instances : ∀ x ∈ t.instances, ∃ k, r.class? x.1 = some k ∧
    List.Forall₂ (fun a p => ok a p.bound) x.2 k.templates
  params : ∀ y ∈ t.params, ∃ p ∈ ps, (p.name, p.bound) = y

namespace Ty.Resolved

variable {r r' : Registry} {ok ok' : Ty → TypeHash → Prop} {ps : List TemplateParam}

theorem imp {t : Ty} (hok : ∀ a b, ok a b → ok' a b) (h : t.Resolved r ok ps) :
    t.Resolved r ok' ps where
  instances x hx := by
    obtain ⟨k, hk, hargs⟩ := h.instances x hx
    exact ⟨k, hk, hargs.imp fun a (p : TemplateParam) => hok a p.bound⟩
  params := h.params

/-- Only the template parameters of classes matter. -/
theorem congr {t : Ty}
    (hr : ∀ h, (r'.class? h).map Class.templates = (r.class? h).map Class.templates)
    (h : t.Resolved r ok ps) : t.Resolved r' ok ps where
  instances x hx := by
    obtain ⟨k, hk, hargs⟩ := h.instances x hx
    have hsame := hr x.1
    rw [hk, Option.map_some, Option.map_eq_some_iff] at hsame
    obtain ⟨k', hk', heq⟩ := hsame
    exact ⟨k', hk', heq ▸ hargs⟩
  params := h.params

theorem pointer {t : Ty} (h : t.Resolved r ok ps) : (Ty.pointer t).Resolved r ok ps :=
  ⟨h.instances, h.params⟩

theorem array {t : Ty} (h : t.Resolved r ok ps) : (Ty.array t).Resolved r ok ps :=
  ⟨h.instances, h.params⟩

/-- A type in which nothing is written. -/
theorem of_leaf {t : Ty} (hi : t.instances = []) (hp : t.params = []) : t.Resolved r ok ps := by
  refine ⟨fun x hx => ?_, fun y hy => ?_⟩
  · rw [hi] at hx
    exact absurd hx List.not_mem_nil
  · rw [hp] at hy
    exact absurd hy List.not_mem_nil

theorem instances_of_all {ts : List Ty} (h : ∀ t ∈ ts, t.Resolved r ok ps) :
    ∀ x ∈ allInstances ts, ∃ k, r.class? x.1 = some k ∧
      List.Forall₂ (fun a p => ok a p.bound) x.2 k.templates := by
  intro x hx
  obtain ⟨t, ht, hx⟩ := mem_allInstances.mp hx
  exact (h t ht).instances x hx

theorem params_of_all {ts : List Ty} (h : ∀ t ∈ ts, t.Resolved r ok ps) :
    ∀ y ∈ allParams ts, ∃ p ∈ ps, (p.name, p.bound) = y := by
  intro y hy
  obtain ⟨t, ht, hy⟩ := mem_allParams.mp hy
  exact (h t ht).params y hy

theorem callable {k : CallKind} {ts : List Ty} {t : Ty} (hts : ∀ t ∈ ts, t.Resolved r ok ps)
    (ht : t.Resolved r ok ps) : (Ty.callable k ts t).Resolved r ok ps where
  instances x hx := (List.mem_append.mp hx).elim (instances_of_all hts x) (ht.instances x)
  params y hy := (List.mem_append.mp hy).elim (params_of_all hts y) (ht.params y)

theorem applied {h : TypeHash} {k : Class} {as : List Ty} (hk : r.class? h = some k)
    (hargs : List.Forall₂ (fun a p => ok a p.bound) as k.templates)
    (has : ∀ a ∈ as, a.Resolved r ok ps) : (Ty.applied h as).Resolved r ok ps where
  instances x hx := by
    rcases List.mem_cons.mp hx with rfl | hx
    · exact ⟨k, hk, hargs⟩
    · exact instances_of_all has x hx
  params := params_of_all has

end Ty.Resolved

/-- The template parameters that are visible are among the given ones. -/
def SeesParams (ps : List TemplateParam) (c : Compilation) : Prop :=
  ∀ n e t, c.scopes.find? n = some e → e.meaning = .typeParam t →
    ∃ p ∈ ps, t = .param p.name p.bound

theorem SeesParams.putsOff {ps : List TemplateParam} {c c' : Compilation}
    (h : SeesParams ps c) (hc : PutsOff c c') : SeesParams ps c' := by
  obtain ⟨more, rfl, _⟩ := hc
  exact h

theorem PutsOff.registry {c c' : Compilation} (h : PutsOff c c') : c'.registry = c.registry := by
  obtain ⟨more, rfl, _⟩ := h
  rfl

/-- Outside of classes no template parameter is visible, inside of a class those of the class. -/
theorem seesParams_of_outer {V : Binding → Prop} {c c₀ : Compilation} {ps : List TemplateParam}
    (hc : c.Outer V) (hfound : ∀ n e, c₀.scopes.find? n = some e → c.scopes.find? n = some e ∨
      ∃ p ∈ ps, e.meaning = .typeParam (.param p.name p.bound)) : SeesParams ps c₀ := by
  intro n e t he ht
  rcases hfound n e he with he | ⟨p, hp, hmeaning⟩
  · have houter := hc.find? he
    rw [ht] at houter
    exact absurd houter id
  · rw [ht] at hmeaning
    injection hmeaning with hmeaning
    exact ⟨p, hp, hmeaning⟩

/-! ## Checking bounds -/

theorem below_of_upcastDistance? {r : Registry} {t : Ty} {bound : TypeHash}
    (h : (r.upcastDistance? t (.classRef bound)).isSome = true) : r.Below t bound := by
  obtain ⟨n, hn⟩ := Option.isSome_iff_exists.mp h
  unfold Registry.upcastDistance? at hn
  obtain ⟨k, hk, hn⟩ := Option.bind_eq_some_iff.mp hn
  obtain ⟨K, hK, hn⟩ := Option.bind_eq_some_iff.mp hn
  obtain ⟨b, hb, hn⟩ := Option.bind_eq_some_iff.mp hn
  obtain ⟨i, hi, _⟩ := Option.bind_eq_some_iff.mp hn
  injection hb with hb
  subst hb
  refine ⟨k, K, hk, hK, ?_⟩
  obtain ⟨hlt, hget, _⟩ := List.findIdx?_eq_some_iff_getElem.mp hi
  exact (of_decide_eq_true hget) ▸ List.getElem_mem hlt

theorem checkBound_below {check : BoundCheck} {bound : TypeHash} {c c' : Compilation} {u : Unit}
    (hb : check.bound = .classRef bound) (h : Yields (checkBound check) c u c') :
    c.registry.Below check.arg bound ∧ c' = c := by
  simp only [checkBound, yields_bind, yields_get, and_assoc, exists_and_left,
    exists_eq_left] at h
  split at h
  · simp at h
  · rename_i hpass
    obtain ⟨_, rfl⟩ := yields_pure.mp h
    simp only [Bool.not_eq_true', Bool.not_eq_false, Bool.and_eq_true] at hpass
    exact ⟨below_of_upcastDistance? (hb ▸ hpass.2), rfl⟩

/-- A bound is checked now or put off. -/
theorem checkOrDefer_spec {check : BoundCheck} {bound : TypeHash} {c c' : Compilation} {u : Unit}
    (hb : check.bound = .classRef bound) (h : Yields (checkOrDefer check) c u c') :
    PutsOff c c' ∧ c'.Admits check.arg bound := by
  simp only [checkOrDefer, yields_bind, yields_get, and_assoc, exists_and_left,
    exists_eq_left] at h
  split at h
  · rename_i hdefer
    rw [yields_modify] at h
    subst h
    refine ⟨⟨[check], rfl, fun hno => ?_⟩, ?_⟩
    · rw [hdefer] at hno
      cases hno
    · unfold Compilation.Admits
      rw [if_pos hdefer]
      exact ⟨check, List.mem_append_right _ (.head _), rfl, hb⟩
  · rename_i hnow
    obtain ⟨hbelow, rfl⟩ := checkBound_below hb h
    refine ⟨.refl _, ?_⟩
    unfold Compilation.Admits
    rwa [if_neg hnow]

/-! ## Resolving types -/

variable {r : Registry} {ps : List TemplateParam}

mutual

theorem resolveType_resolved : ∀ (e : TypeExpr) {c c' : Compilation} {t : Ty},
    c.registry = r → SeesParams ps c → Yields (resolveType e) c t c' →
    PutsOff c c' ∧ t.Resolved r c'.Admits ps
  | .named name args span, c, c', t, hr, hsees, h => by
    unfold resolveType at h
    split at h
    · split at h
      · obtain ⟨rfl, rfl⟩ := yields_pure.mp h
        exact ⟨.refl _, .of_leaf rfl rfl⟩
      · simp at h
    · simp only [yields_bind, meaning?, yields_get, yields_pure, and_assoc, exists_and_left,
        exists_eq_left] at h
      split at h
      · rename_i hash hd
        split at h
        · obtain ⟨rfl, rfl⟩ := yields_pure.mp h
          exact ⟨.refl _, .of_leaf rfl rfl⟩
        · simp only [yields_bind, yields_askRegistry, Registry.getClass_eq_ok] at h
          obtain ⟨k, _, ⟨hk, rfl⟩, h⟩ := h
          split at h
          · simp at h
          · rename_i harity
            simp only [yields_bind, yields_pure] at h
            obtain ⟨as, c₁, hargs, rfl, rfl⟩ := h
            obtain ⟨hoff, hadmit, has⟩ := resolveArgs_resolved k.name k.templates args hr hsees
              (Decidable.not_not.mp harity) hargs
            exact ⟨hoff, .applied (hr ▸ hk) hadmit has⟩
      · rename_i u hd
        split at h
        · obtain ⟨rfl, rfl⟩ := yields_pure.mp h
          obtain ⟨e, he, hmeaning⟩ := Option.map_eq_some_iff.mp hd
          -- A name that stands for a type is one of the parameters in `ps`.
          obtain ⟨p, hp, rfl⟩ := hsees _ _ _ he hmeaning
          refine ⟨.refl _, fun x hx => absurd hx List.not_mem_nil, fun y hy => ?_⟩
          exact ⟨p, hp, (List.mem_singleton.mp hy).symm⟩
        · simp at h
      · simp at h
      · simp at h
  | .pointer inner _, c, c', t, hr, hsees, h => by
    simp only [resolveType, yields_bind, yields_pure] at h
    obtain ⟨u, c₁, hu, rfl, rfl⟩ := h
    exact (resolveType_resolved inner hr hsees hu).imp_right Ty.Resolved.pointer
  | .array inner _, c, c', t, hr, hsees, h => by
    simp only [resolveType, yields_bind, yields_pure] at h
    obtain ⟨u, c₁, hu, rfl, rfl⟩ := h
    exact (resolveType_resolved inner hr hsees hu).imp_right Ty.Resolved.array
  | .function params result _, c, c', t, hr, hsees, h => by
    simp only [resolveType, yields_bind, yields_pure] at h
    obtain ⟨us, c₁, hus, u, c₂, hu, rfl, rfl⟩ := h
    obtain ⟨hoff₁, hus⟩ := resolveTypes_resolved params hr hsees hus
    obtain ⟨hoff₂, hu⟩ := resolveType_resolved result (hoff₁.registry.trans hr)
      (hsees.putsOff hoff₁) hu
    exact ⟨hoff₁.trans hoff₂, .callable (fun t ht => (hus t ht).imp fun _ _ => hoff₂.admits) hu⟩

theorem resolveTypes_resolved : ∀ (es : List TypeExpr) {c c' : Compilation} {ts : List Ty},
    c.registry = r → SeesParams ps c → Yields (resolveTypes es) c ts c' →
    PutsOff c c' ∧ ∀ t ∈ ts, t.Resolved r c'.Admits ps
  | [], c, c', ts, _, _, h => by
    simp only [resolveTypes, yields_pure] at h
    obtain ⟨rfl, rfl⟩ := h
    exact ⟨.refl _, List.forall_mem_nil _⟩
  | e :: es, c, c', ts, hr, hsees, h => by
    simp only [resolveTypes, yields_bind, yields_pure] at h
    obtain ⟨u, c₁, hu, us, c₂, hus, rfl, rfl⟩ := h
    obtain ⟨hoff₁, hu⟩ := resolveType_resolved e hr hsees hu
    obtain ⟨hoff₂, hus⟩ := resolveTypes_resolved es (hoff₁.registry.trans hr)
      (hsees.putsOff hoff₁) hus
    exact ⟨hoff₁.trans hoff₂, List.forall_mem_cons.mpr ⟨hu.imp fun _ _ => hoff₂.admits, hus⟩⟩

theorem resolveArgs_resolved (owner : String) : ∀ (qs : List TemplateParam)
    (es : List TypeExpr) {c c' : Compilation} {as : List Ty}, c.registry = r →
    SeesParams ps c → qs.length = es.length → Yields (resolveArgs owner qs es) c as c' →
    PutsOff c c' ∧ List.Forall₂ (fun a p => c'.Admits a p.bound) as qs ∧
      ∀ a ∈ as, a.Resolved r c'.Admits ps
  | [], [], c, c', as, _, _, _, h => by
    simp only [resolveArgs, yields_pure] at h
    obtain ⟨rfl, rfl⟩ := h
    exact ⟨.refl _, .nil, List.forall_mem_nil _⟩
  | [], _ :: _, _, _, _, _, _, hlen, _ => absurd hlen.symm (Nat.succ_ne_zero _)
  | _ :: _, [], _, _, _, _, _, hlen, _ => absurd hlen (Nat.succ_ne_zero _)
  | q :: qs, e :: es, c, c', as, hr, hsees, hlen, h => by
    simp only [resolveArgs, yields_bind, yields_get, yields_pure, and_assoc, exists_and_left,
      exists_eq_left] at h
    obtain ⟨a, c₁, ha, _, c₂, hcheck, as, c₃, has, rfl, rfl⟩ := h
    obtain ⟨hoff₁, ha⟩ := resolveType_resolved e hr hsees ha
    obtain ⟨hoff₂, hpass⟩ := checkOrDefer_spec rfl hcheck
    have hoff := hoff₁.trans hoff₂
    obtain ⟨hoff₃, hadmit, has⟩ := resolveArgs_resolved owner qs es (hoff.registry.trans hr)
      (hsees.putsOff hoff) (Nat.succ.inj hlen) has
    exact ⟨hoff.trans hoff₃, .cons (hoff₃.admits hpass) hadmit, List.forall_mem_cons.mpr
      ⟨ha.imp fun _ _ h => hoff₃.admits (hoff₂.admits h), has⟩⟩

end

/-! ## Resolving the types of a declaration -/

theorem resolveClass_resolved {e : TypeExpr} {c c' : Compilation} {t : Ty} (hr : c.registry = r)
    (hsees : SeesParams ps c) (h : Yields (resolveClass e) c t c') :
    PutsOff c c' ∧ t.Resolved r c'.Admits ps := by
  simp only [resolveClass, yields_bind] at h
  obtain ⟨u, c₁, hu, h⟩ := h
  split at h
  · obtain ⟨rfl, rfl⟩ := yields_pure.mp h
    exact resolveType_resolved e hr hsees hu
  · simp at h

/-- Several steps that resolve types; `types` are those in an outcome. -/
theorem mapM_resolved {α β : Type} {f : α → CompileM β} (types : β → List Ty)
    (hf : ∀ x {c c' b}, c.registry = r → SeesParams ps c → Yields (f x) c b c' →
      PutsOff c c' ∧ ∀ t ∈ types b, t.Resolved r c'.Admits ps) {xs : List α} :
    ∀ {c c' : Compilation} {bs : List β}, c.registry = r → SeesParams ps c →
      Yields (xs.mapM f) c bs c' →
      PutsOff c c' ∧ ∀ t ∈ bs.flatMap types, t.Resolved r c'.Admits ps := by
  induction xs with
  | nil =>
    intro c c' bs _ _ h
    obtain ⟨rfl, rfl⟩ := yields_mapM_nil.mp h
    exact ⟨.refl _, List.forall_mem_nil _⟩
  | cons x xs ih =>
    intro c c' bs hr hsees h
    obtain ⟨b, c₁, rest, hx, hxs, rfl⟩ := yields_mapM_cons.mp h
    obtain ⟨hoff₁, hb⟩ := hf x hr hsees hx
    obtain ⟨hoff₂, hrest⟩ := ih (hoff₁.registry.trans hr) (hsees.putsOff hoff₁) hxs
    refine ⟨hoff₁.trans hoff₂, fun t ht => ?_⟩
    rw [List.flatMap_cons, List.mem_append] at ht
    exact ht.elim (fun ht => (hb t ht).imp fun _ _ => hoff₂.admits) (hrest t)

/-- Types that are resolved inside of a class mention no template parameters but those of the
class, which have different names. -/
theorem inClass_resolved {β : Type} {hash : TypeHash} {body : CompileM β}
    [Keeps Compilation.context body] (types : β → List Ty) {V : Binding → Prop}
    {c c' : Compilation} {b : β} (hc : c.Outer V)
    (hbody : ∀ {ps c₀ c₁ b}, c₀.registry = c.registry → SeesParams ps c₀ → Yields body c₀ b c₁ →
      PutsOff c₀ c₁ ∧ ∀ t ∈ types b, t.Resolved c.registry c₁.Admits ps)
    (h : Yields (inClass hash body) c b c') :
    ∃ k, c.registry.class? hash = some k ∧ (k.templates.map (·.name)).Nodup ∧
      (∀ t ∈ types b, t.Resolved c.registry c'.Admits k.templates) ∧
      c.deferred ⊆ c'.deferred := by
  obtain ⟨hcontext, k, c₀, c₁, hk, hnodup, hrun, hr, hdefer, hdeferred, hlast, hfound⟩ :=
    inClass_spec h
  have hsees := seesParams_of_outer hc fun n e he =>
    (hfound n e he).imp And.left fun ⟨p, hp, _, hmeaning⟩ => ⟨p, hp, hmeaning⟩
  obtain ⟨hoff, hresolved⟩ := hbody hr hsees hrun
  have hr' : c'.registry = c.registry := (congrArg Compilation.registry hcontext :)
  have hdefer' : c'.deferring = c.deferring := (congrArg Compilation.deferring hcontext :)
  refine ⟨k, hk, hnodup, fun t ht => (hresolved t ht).imp fun a bound => ?_, ?_⟩
  · obtain ⟨more, rfl, _⟩ := hoff
    exact .congr (c := { c₀ with deferred := c₀.deferred ++ more }) (hdefer'.trans hdefer.symm)
      hlast (hr'.trans hr.symm)
  · obtain ⟨more, rfl, _⟩ := hoff
    rw [hlast, ← hdeferred]
    exact List.subset_append_left ..

end ClassLang
