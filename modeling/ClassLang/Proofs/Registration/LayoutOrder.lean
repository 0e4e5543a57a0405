import ClassLang.Proofs.Registration.Faults
import ClassLang.Proofs.Registration.Layout
import Mathlib.Logic.Relation
import Mathlib.Order.WellFounded

/-!
# The order of layouts

A class depends on its direct bases and on the classes that its own fields hold by value. The walk
that lays classes out goes along these dependencies. It always ends, although the recursion as such
has no bound. If it succeeds, it has laid out every class once, each one after those that it depends
on, and so no class is on a cycle. If it reports that a class contains itself, that class is on a
cycle: the classes that wait are a path to the one that is visited.
-/

namespace ClassLang

open CompileM

namespace Registration

/-! ## Dependencies -/

/-- The class `h` has `k` as a direct base, or declares a field that holds an object of `k`. -/
def DependsOn (r : Registry) (plans : List LayoutPlan) (h k : TypeHash) : Prop :=
  ∃ plan ∈ plans, plan.pending.hash = h ∧
    ((∃ c, r.class? h = some c ∧ ∃ t ∈ c.bases, t.classHash? = some k) ∨
      ∃ d ∈ plan.fields, d.type.isClass = true ∧ d.type.classHash? = some k)

theorem mem_layoutDependencies {c : Class} {fields : List OwnField} {k : TypeHash} :
    k ∈ layoutDependencies c fields ↔ (∃ t ∈ c.bases, t.classHash? = some k) ∨
      ∃ d ∈ fields, d.type.isClass = true ∧ d.type.classHash? = some k := by
  simp [layoutDependencies, and_assoc]

/-- The plans, each under its class. -/
def planTable (plans : List LayoutPlan) : Table TypeHash LayoutPlan :=
  plans.foldl (fun t plan => t.insert plan.pending.hash plan) .empty

/-! ## The walk without a bound -/

/-- A class is to be laid out: it is planned, it is not laid out, and it does not wait. -/
structure Enters (plans : Table TypeHash LayoutPlan) (waiting done : List TypeHash) (h : TypeHash)
    (plan : LayoutPlan) : Prop where
  planned : plans.find? h = some plan
  undone : h ∉ done
  fresh : h ∉ waiting

/-- Visiting classes one after another, with no bound on the recursion, while some wait and some are
laid out: from a state to an outcome, which on success lists the classes that are laid out, and a
state. -/
inductive Visits (plans : Table TypeHash LayoutPlan) : List TypeHash → List TypeHash → List TypeHash →
    Compilation → Except CompileError (List TypeHash) → Compilation → Prop
  | nil {waiting done : List TypeHash} {c : Compilation} : Visits plans waiting done [] c (.ok done) c
  | skip {waiting done hs : List TypeHash} {h : TypeHash} {c c' : Compilation}
      {o : Except CompileError (List TypeHash)} : h ∈ done ∨ plans.find? h = none →
      Visits plans waiting done hs c o c' → Visits plans waiting done (h :: hs) c o c'
  | circular {waiting done hs : List TypeHash} {h : TypeHash} {plan : LayoutPlan} {c c' : Compilation}
      {e : CompileError} : plans.find? h = some plan → h ∉ done → h ∈ waiting →
      Fails (inModule plan.pending.path (fail (.rule (.containsItself plan.pending.decl.name.name))
        plan.pending.decl.span) : CompileM Unit) c e c' →
      Visits plans waiting done (h :: hs) c (.error e) c'
  | unregistered {waiting done hs : List TypeHash} {h : TypeHash} {plan : LayoutPlan} {c : Compilation} :
      Enters plans waiting done h plan → c.registry.class? h = none →
      Visits plans waiting done (h :: hs) c (.error (.internal (.unregisteredClass h))) c
  | failed {waiting done hs : List TypeHash} {h : TypeHash} {plan : LayoutPlan} {k : Class}
      {c c' : Compilation} {e : CompileError} : Enters plans waiting done h plan →
      c.registry.class? h = some k →
      Visits plans (h :: waiting) done (layoutDependencies k plan.fields) c (.error e) c' →
      Visits plans waiting done (h :: hs) c (.error e) c'
  | refused {waiting done done₁ hs : List TypeHash} {h : TypeHash} {plan : LayoutPlan} {k : Class}
      {c c₁ c' : Compilation} {e : CompileError} : Enters plans waiting done h plan →
      c.registry.class? h = some k →
      Visits plans (h :: waiting) done (layoutDependencies k plan.fields) c (.ok done₁) c₁ →
      Fails (layOutClass plan) c₁ e c' → Visits plans waiting done (h :: hs) c (.error e) c'
  | laid {waiting done done₁ hs : List TypeHash} {h : TypeHash} {plan : LayoutPlan} {k : Class}
      {c c₁ c₂ c' : Compilation} {o : Except CompileError (List TypeHash)} :
      Enters plans waiting done h plan → c.registry.class? h = some k →
      Visits plans (h :: waiting) done (layoutDependencies k plan.fields) c (.ok done₁) c₁ →
      Yields (layOutClass plan) c₁ () c₂ → Visits plans waiting (h :: done₁) hs c₂ o c' →
      Visits plans waiting done (h :: hs) c o c'

/-- Laying out all classes, with no bound on the recursion. -/
inductive LaysOut (ps : List PendingClass) (c : Compilation) :
    Except CompileError Unit → Compilation → Prop
  | unresolved {e : CompileError} {c' : Compilation} : Fails (ps.mapM layoutPlan) c e c' →
      LaysOut ps c (.error e) c'
  | failed {plans : List LayoutPlan} {e : CompileError} {c₁ c' : Compilation} :
      Yields (ps.mapM layoutPlan) c plans c₁ →
      Visits (planTable plans) [] [] (ps.map (·.hash)) c₁ (.error e) c' → LaysOut ps c (.error e) c'
  | done {plans : List LayoutPlan} {done : List TypeHash} {c₁ c' : Compilation} :
      Yields (ps.mapM layoutPlan) c plans c₁ →
      Visits (planTable plans) [] [] (ps.map (·.hash)) c₁ (.ok done) c' → LaysOut ps c (.ok ()) c'

section Visits

variable {plans : Table TypeHash LayoutPlan} {waiting done hs : List TypeHash}
  {c c₁ c₂ : Compilation}

theorem Enters.same {h : TypeHash} {plan plan' : LayoutPlan} {k k' : Class}
    (hp : Enters plans waiting done h plan) (hk : c.registry.class? h = some k)
    (hp' : Enters plans waiting done h plan') (hk' : c.registry.class? h = some k') :
    plan = plan' ∧ k = k' :=
  ⟨Option.some.inj (hp.planned.symm.trans hp'.planned), Option.some.inj (hk.symm.trans hk')⟩

/-- There is one way to go on. -/
theorem Visits.unique {o : Except CompileError (List TypeHash)}
    (h : Visits plans waiting done hs c o c₁) :
    ∀ {o' c₂}, Visits plans waiting done hs c o' c₂ → o = o' ∧ c₁ = c₂ := by
  induction h with
  | nil =>
    intro o' c₂ h'
    cases h'
    exact ⟨rfl, rfl⟩
  -- The conditions of the rules exclude each other; the outcomes below a class tell the last three.
  | skip hskip _ ih =>
    intro o' c₂ h'
    cases h' with
    | skip _ hrest => exact ih hrest
    | circular hplan hundone => grind
    | unregistered henters | failed henters | refused henters | laid henters => grind [Enters]
  | circular hplan hundone hwaits hfails =>
    intro o' c₂ h'
    cases h' with
    | circular hplan' _ _ hfails' =>
      obtain rfl := Option.some.inj (hplan.symm.trans hplan')
      exact (hfails.unique hfails').imp_left (congrArg _)
    | skip | unregistered | failed | refused | laid => grind [Enters]
  | unregistered henters hnone =>
    intro o' c₂ h'
    cases h' with
    | unregistered => exact ⟨rfl, rfl⟩
    | skip | circular | failed | refused | laid => grind [Enters]
  | failed henters hk _ ih =>
    intro o' c₂ h'
    cases h' with
    | failed henters' hk' hdeps =>
      obtain ⟨rfl, rfl⟩ := henters.same hk henters' hk'
      obtain ⟨he, rfl⟩ := ih hdeps
      injection he with he
      exact ⟨congrArg _ he, rfl⟩
    | refused henters' hk' hdeps | laid henters' hk' hdeps =>
      obtain ⟨rfl, rfl⟩ := henters.same hk henters' hk'
      cases (ih hdeps).1
    | skip | circular | unregistered => grind [Enters]
  | refused henters hk _ hfails ih =>
    intro o' c₂ h'
    cases h' with
    | failed henters' hk' hdeps =>
      obtain ⟨rfl, rfl⟩ := henters.same hk henters' hk'
      cases (ih hdeps).1
    | refused henters' hk' hdeps hfails' =>
      obtain ⟨rfl, rfl⟩ := henters.same hk henters' hk'
      obtain ⟨-, rfl⟩ := ih hdeps
      exact (hfails.unique hfails').imp_left (congrArg _)
    | laid henters' hk' hdeps hlaid =>
      obtain ⟨rfl, rfl⟩ := henters.same hk henters' hk'
      obtain ⟨-, rfl⟩ := ih hdeps
      cases hfails.symm.trans hlaid
    | skip | circular | unregistered => grind [Enters]
  | laid henters hk _ hlaid _ ih ih' =>
    intro o' c₂ h'
    cases h' with
    | failed henters' hk' hdeps =>
      obtain ⟨rfl, rfl⟩ := henters.same hk henters' hk'
      cases (ih hdeps).1
    | refused henters' hk' hdeps hfails =>
      obtain ⟨rfl, rfl⟩ := henters.same hk henters' hk'
      obtain ⟨-, rfl⟩ := ih hdeps
      cases hfails.symm.trans hlaid
    | laid henters' hk' hdeps hlaid' hrest =>
      obtain ⟨rfl, rfl⟩ := henters.same hk henters' hk'
      obtain ⟨hdone, rfl⟩ := ih hdeps
      injection hdone with hdone
      subst hdone
      obtain ⟨-, rfl⟩ := hlaid.unique hlaid'
      exact ih' hrest
    | skip | circular | unregistered => grind [Enters]

/-! ## The bound of the walk -/

theorem layOutWithin_skip {bound : Nat} {h : TypeHash} (hskip : h ∈ done ∨ plans.find? h = none) :
    layOutWithin plans (bound + 1) waiting done h = pure done := by
  unfold layOutWithin
  by_cases hdone : h ∈ done
  · rw [if_pos (List.contains_iff_mem.mpr hdone)]
  · rw [hskip.resolve_left hdone, ite_self]

theorem layOutWithin_circular {bound : Nat} {h : TypeHash} {plan : LayoutPlan} {c' : Compilation}
    {o : Except CompileError (List TypeHash)} (hplan : plans.find? h = some plan) (hdone : h ∉ done)
    (hwaits : h ∈ waiting)
    (hrun : (layOutWithin plans (bound + 1) waiting done h).run.run c = (o, c')) :
    ∃ e, o = .error e ∧
      Fails (inModule plan.pending.path (fail (.rule (.containsItself plan.pending.decl.name.name))
        plan.pending.decl.span) : CompileM Unit) c e c' := by
  unfold layOutWithin at hrun
  rw [if_neg (by simpa using hdone), hplan] at hrun
  dsimp only at hrun
  rw [if_pos (by simpa using hwaits)] at hrun
  rcases run_bind_eq.mp hrun with ⟨e, hfails, rfl⟩ | ⟨_, _, hyields, _⟩
  · exact ⟨e, rfl, hfails⟩
  · obtain ⟨_, _, hfail, _⟩ := inModule_effect hyields
    exact (yields_fail.mp hfail).elim

theorem layOutWithin_enters {bound : Nat} {h : TypeHash} {plan : LayoutPlan}
    (henters : Enters plans waiting done h plan) :
    layOutWithin plans (bound + 1) waiting done h = (do
      let k ← askRegistry (·.getClass h)
      let done ← (layoutDependencies k plan.fields).foldlM (layOutWithin plans bound (h :: waiting)) done
      layOutClass plan
      return h :: done) := by
  rw [layOutWithin, if_neg (by simpa using henters.undone), henters.planned]
  dsimp only
  rw [if_neg (by simpa using henters.fresh)]

/-- The bound is not reached: the classes that wait are different classes that are planned. -/
theorem visits_of_run {keys : List TypeHash} (hkeys : ∀ h plan, plans.find? h = some plan → h ∈ keys) :
    ∀ (bound : Nat) {waiting hs done : List TypeHash} {c c' : Compilation}
      {o : Except CompileError (List TypeHash)}, keys.length < bound + waiting.length →
      waiting.Nodup → (∀ h ∈ waiting, h ∈ keys) →
      (hs.foldlM (layOutWithin plans bound waiting) done).run.run c = (o, c') →
      Visits plans waiting done hs c o c'
  | 0, waiting, hs, done, c, c', o, hbound, hnodup, hwaiting, _ => by
    have hle := (hnodup.subperm hwaiting).length_le
    omega
  | bound + 1, waiting, hs, done, c, c', o, hbound, hnodup, hwaiting, hrun => by
    induction hs generalizing done c with
    | nil =>
      cases hrun
      exact .nil
    | cons h hs ih =>
      rw [List.foldlM_cons] at hrun
      by_cases hskip : h ∈ done ∨ plans.find? h = none
      · rw [layOutWithin_skip hskip, pure_bind] at hrun
        exact .skip hskip (ih _ _ hrun)
      obtain ⟨hdone, hplanned⟩ := not_or.mp hskip
      obtain ⟨plan, hplan⟩ := Option.ne_none_iff_exists'.mp hplanned
      by_cases hwaits : h ∈ waiting
      · rcases run_bind_eq.mp hrun with ⟨e, hfails, rfl⟩ | ⟨_, _, hyields, _⟩
        · obtain ⟨_, he, hfails⟩ := layOutWithin_circular hplan hdone hwaits hfails
          injection he with he
          exact .circular hplan hdone hwaits (he ▸ hfails)
        · obtain ⟨_, he, _⟩ := layOutWithin_circular hplan hdone hwaits hyields
          cases he
      · have henters : Enters plans waiting done h plan := ⟨hplan, hdone, hwaits⟩
        -- While its dependencies are visited, the class waits with those that wait for it.
        have hdeps : ∀ {hs done c c' o},
          (hs.foldlM (layOutWithin plans bound (h :: waiting)) done).run.run c =
            (o, c') → Visits plans (h :: waiting) done hs c o c' :=
          visits_of_run hkeys bound (by rw [List.length_cons]; omega)
            (List.nodup_cons.mpr ⟨hwaits, hnodup⟩)
            (List.forall_mem_cons.mpr ⟨hkeys h plan hplan, hwaiting⟩)
        rw [layOutWithin_enters henters] at hrun
        simp only [bind_assoc, pure_bind] at hrun
        rcases run_bind_eq.mp hrun with ⟨e, hask, rfl⟩ | ⟨k, _, hask, hrest⟩
        · obtain ⟨hfail, rfl⟩ := fails_askRegistry.mp hask
          obtain ⟨hnone, he⟩ := Registry.getClass_eq_error.mp hfail
          exact he ▸ .unregistered henters hnone
        obtain ⟨hk, rfl⟩ := yields_askRegistry.mp hask
        have hk := Registry.getClass_eq_ok.mp hk
        rcases run_bind_eq.mp hrest with ⟨e, hwalk, rfl⟩ | ⟨done₁, c₁, hwalk, hrest⟩
        · exact .failed henters hk (hdeps hwalk)
        rcases run_bind_eq.mp hrest with ⟨e, hlayout, rfl⟩ | ⟨_, c₂, hlayout, hrest⟩
        · exact .refused henters hk (hdeps hwalk) hlayout
        · exact .laid henters hk (hdeps hwalk) hlayout (ih _ _ hrest)

end Visits

/-! ## Plans and dependencies -/

section Plans

variable {r : Registry} {ps : List PendingClass} {plans : List LayoutPlan} {c c' : Compilation}

theorem find?_planTable (hplans : (plans.map (·.pending.hash)).Nodup) {h : TypeHash} {plan : LayoutPlan} :
    (planTable plans).find? h = some plan ↔ plan ∈ plans ∧ plan.pending.hash = h := by
  obtain ⟨hsound, htotal⟩ := find?_foldl_plans plans .empty
  have hmem : ∀ plan, (planTable plans).find? h = some plan → plan ∈ plans ∧ plan.pending.hash = h :=
    fun plan hfind => (hsound h plan hfind).resolve_right fun hnone => nomatch hnone
  refine ⟨hmem plan, fun ⟨hplan, hhash⟩ => ?_⟩
  obtain ⟨plan', hfind⟩ := htotal h (.inl ⟨plan, hplan, hhash⟩)
  obtain ⟨hplan', hhash'⟩ := hmem plan' hfind
  rw [List.inj_on_of_nodup_map hplans hplan hplan' (hhash.trans hhash'.symm)]
  exact hfind

/-- The walk goes on to what a class depends on, if the registry still has the headers of before. -/
theorem dependsOn_iff (hplans : (plans.map (·.pending.hash)).Nodup) {r' : Registry}
    (hr : SameHeaders r r') {plan : LayoutPlan} (hplan : plan ∈ plans) {k : Class}
    (hk : r'.class? plan.pending.hash = some k) {h : TypeHash} :
    DependsOn r plans plan.pending.hash h ↔ h ∈ layoutDependencies k plan.fields := by
  obtain ⟨k₀, hk₀, heq⟩ := hr.symm.exists_class hk
  have hbases : k₀.bases = k.bases := (congrArg Class.bases heq :)
  rw [mem_layoutDependencies, ← hbases]
  constructor
  · rintro ⟨plan', hplan', hhash, hdeps⟩
    obtain rfl := List.inj_on_of_nodup_map hplans hplan' hplan hhash
    refine hdeps.imp_left ?_
    rintro ⟨k', hk', ht⟩
    rw [hk₀] at hk'
    injection hk' with hk'
    exact hk' ▸ ht
  · exact fun hdeps => ⟨plan, hplan, rfl, hdeps.imp_left fun ht => ⟨k₀, hk₀, ht⟩⟩

/-- What a class depends on is registered. -/
theorem Site.exists_of_dependsOn {wrote : TypeHash → Ty → Prop}
    (hsite : Site r wrote ps (planTable plans)) (hplans : (plans.map (·.pending.hash)).Nodup)
    {h k : TypeHash} (hdep : DependsOn r plans h k) : ∃ c, r.class? k = some c := by
  obtain ⟨plan, hplan, rfl, ⟨c, hc, t, ht, htk⟩ | ⟨d, hd, hclass, hdk⟩⟩ := hdep
  · exact hsite.hierarchy.bases hc k (List.mem_filterMap.mpr ⟨t, ht, htk⟩)
  · have hfind := (find?_planTable hplans).mpr ⟨hplan, rfl⟩
    obtain ⟨-, -, hfields⟩ := hsite.planned.spec _ plan hfind
    obtain ⟨-, hparam, hregistered⟩ := hfields d hd
    exact hregistered k ((Ty.storage_eq_object hparam).mpr ⟨hclass, hdk⟩)

theorem layOutClass_headers {plan : LayoutPlan} {u : Unit} (h : Yields (layOutClass plan) c u c') :
    SameHeaders c.registry c'.registry := by
  obtain ⟨k, fields, length, -, -, hset⟩ := layOutClass_effect h
  intro a
  rw [hset, Registry.class?_modifyClass]
  split
  · rename_i ha
    rw [ha, Option.map_map]
    rfl
  · rfl

end Plans

/-! ## The order of a walk that succeeds -/

/-- The plans are carried out one after another, each one once, and after those of all classes that
its class depends on. -/
inductive Follows (r : Registry) (plans : List LayoutPlan) : List TypeHash → List LayoutPlan → Prop
  | nil {done : List TypeHash} : Follows r plans done []
  | cons {done : List TypeHash} {plan : LayoutPlan} {rest : List LayoutPlan} : plan ∈ plans →
      plan.pending.hash ∉ done → (∀ k, DependsOn r plans plan.pending.hash k → Settled done k) →
      Follows r plans (plan.pending.hash :: done) rest → Follows r plans done (plan :: rest)

namespace Follows

variable {r : Registry} {plans order : List LayoutPlan} {done : List TypeHash}

theorem append {rest : List LayoutPlan} (h : Follows r plans done order)
    (h' : Follows r plans ((order.map (·.pending.hash)).reverse ++ done) rest) :
    Follows r plans done (order ++ rest) := by
  induction h with
  | nil => exact h'
  | cons hplan hnew hdeps _ ih =>
    refine .cons hplan hnew hdeps (ih ?_)
    simpa using h'

theorem mem (h : Follows r plans done order) : ∀ plan ∈ order, plan ∈ plans := by
  induction h with
  | nil => exact List.forall_mem_nil _
  | cons hplan _ _ _ ih => exact List.forall_mem_cons.mpr ⟨hplan, ih⟩

theorem nodup (h : Follows r plans done order) :
    (order.map (·.pending.hash)).Nodup ∧ ∀ plan ∈ order, plan.pending.hash ∉ done := by
  induction h with
  | nil => exact ⟨List.nodup_nil, List.forall_mem_nil _⟩
  | @cons done plan rest _ hnew _ _ ih =>
    obtain ⟨hnodup, hapart⟩ := ih
    refine ⟨List.nodup_cons.mpr ⟨fun hmem => ?_, hnodup⟩, List.forall_mem_cons.mpr ⟨hnew, fun q hq => ?_⟩⟩
    · obtain ⟨q, hq, heq⟩ := List.mem_map.mp hmem
      exact hapart q hq (heq ▸ List.mem_cons_self)
    · exact fun hmem => hapart q hq (List.mem_cons_of_mem _ hmem)

/-- What a class depends on comes before it. -/
theorem settled {before after : List LayoutPlan} {plan : LayoutPlan} {k : TypeHash}
    (h : Follows r plans done (before ++ plan :: after))
    (hdep : DependsOn r plans plan.pending.hash k) :
    Settled done k ∨ ∃ q ∈ before, q.pending.hash = k := by
  induction before generalizing done with
  | nil =>
    cases h with
    | cons _ _ hdeps _ => exact .inl (hdeps k hdep)
  | cons q before ih =>
    cases h with
    | cons _ _ _ hrest =>
      rcases ih hrest with (hroot | hdone) | ⟨q', hq', heq⟩
      · exact .inl (.inl hroot)
      · rcases List.mem_cons.mp hdone with rfl | hdone
        · exact .inr ⟨q, List.mem_cons_self, rfl⟩
        · exact .inl (.inr hdone)
      · exact .inr ⟨q', List.mem_cons_of_mem _ hq', heq⟩

/-- Along the dependencies of the classes that are laid out one comes to an end. -/
theorem acc (h : Follows r plans done order)
    (hdone : ∀ k, Settled done k → Acc (Function.swap (DependsOn r plans)) k) :
    ∀ plan ∈ order, Acc (Function.swap (DependsOn r plans)) plan.pending.hash := by
  induction h with
  | nil => exact List.forall_mem_nil _
  | @cons done plan rest _ _ hdeps _ ih =>
    have hself : Acc (Function.swap (DependsOn r plans)) plan.pending.hash :=
      ⟨_, fun k hdep => hdone k (hdeps k hdep)⟩
    refine List.forall_mem_cons.mpr ⟨hself, ih ?_⟩
    rintro k (hroot | hk)
    · exact hdone k (.inl hroot)
    · rcases List.mem_cons.mp hk with rfl | hk
      · exact hself
      · exact hdone k (.inr hk)

end Follows

/-- No class depends on itself, directly or along other classes. -/
def Acyclic (r : Registry) (plans : List LayoutPlan) : Prop :=
  ∀ h, ¬Relation.TransGen (DependsOn r plans) h h

/-- What a part of the walk that succeeds has done: it has carried out some plans in order. What was
to be visited is laid out, and no class that waits is. -/
structure VisitOrder (r : Registry) (plans : List LayoutPlan) (waiting done hs : List TypeHash)
    (c : Compilation) (done' : List TypeHash) (c' : Compilation) (order : List LayoutPlan) : Prop where
  follows : Follows r plans done order
  done_eq : done' = (order.map (·.pending.hash)).reverse ++ done
  runs : Yields (order.forM layOutClass) c () c'
  visited : ∀ h ∈ hs, h ∈ done' ∨ (planTable plans).find? h = none
  waits : ∀ h ∈ waiting, h ∉ done → h ∉ done'

section Order

variable {r : Registry} {wrote : TypeHash → Ty → Prop} {ps : List PendingClass} {plans : List LayoutPlan}
  {waiting done hs : List TypeHash} {c c' : Compilation} {o : Except CompileError (List TypeHash)}

theorem Visits.headers {table : Table TypeHash LayoutPlan} (h : Visits table waiting done hs c o c') :
    ∀ {done'}, o = .ok done' → SameHeaders c.registry c'.registry := by
  induction h with
  | nil => exact fun _ _ => rfl
  | skip _ _ ih => exact ih
  | circular | unregistered | failed | refused => exact fun ho => nomatch ho
  | laid _ _ _ hlayout _ ih ih' =>
    exact fun ho =>
      (ih rfl).trans ((layOutClass_headers hlayout).trans (ih' ho))

/-- A class is laid out when all that it depends on is. -/
theorem Visits.exists_order (hsite : Site r wrote ps (planTable plans))
    (hplans : (plans.map (·.pending.hash)).Nodup) (h : Visits (planTable plans) waiting done hs c o c') :
    ∀ {done'}, o = .ok done' → SameHeaders r c.registry →
      ∃ order, VisitOrder r plans waiting done hs c done' c' order := by
  induction h with
  | nil =>
    intro done' ho hr
    injection ho with ho
    exact ⟨[], .nil, ho.symm, yields_forM_nil.mpr rfl, List.forall_mem_nil _, fun _ _ h => ho ▸ h⟩
  | skip hskip _ ih =>
    intro done' ho hr
    obtain ⟨order, horder⟩ := ih ho hr
    refine ⟨order, { horder with visited := List.forall_mem_cons.mpr ⟨?_, horder.visited⟩ }⟩
    refine hskip.imp_left fun hdone => ?_
    rw [horder.done_eq]
    exact List.mem_append_right _ hdone
  | circular | unregistered | failed | refused =>
    intro _ ho
    cases ho
  | @laid waiting done done₁ hs h plan k c c₁ c₂ c' o henters hk hwalk hlayout _ ih ih' =>
    intro done' ho hr
    obtain ⟨hplan, rfl⟩ := (find?_planTable hplans).mp henters.planned
    have hr₂ := hr.trans ((hwalk.headers rfl).trans (layOutClass_headers hlayout))
    obtain ⟨first, hfirst⟩ := ih rfl hr
    obtain ⟨rest, hrest⟩ := ih' ho hr₂
    have hnew : plan.pending.hash ∉ done₁ := hfirst.waits _ List.mem_cons_self henters.undone
    -- What the class depends on was visited before it, and what was visited is settled.
    have hdeps : ∀ d, DependsOn r plans plan.pending.hash d → Settled done₁ d := by
      intro d hdep
      obtain ⟨kd, hkd⟩ := hsite.exists_of_dependsOn hplans hdep
      exact hsite.settled hkd (hfirst.visited d ((dependsOn_iff hplans hr hplan hk).mp hdep))
    have hdone : done' = ((first ++ plan :: rest).map (·.pending.hash)).reverse ++ done := by
      rw [hrest.done_eq, hfirst.done_eq]
      simp
    refine ⟨first ++ plan :: rest, ?_, hdone, ?_, ?_, ?_⟩
    · exact hfirst.follows.append (hfirst.done_eq ▸ .cons hplan hnew hdeps hrest.follows)
    · exact yields_forM_append.mpr
        ⟨(), c₁, hfirst.runs, yields_forM_cons.mpr ⟨(), c₂, hlayout, hrest.runs⟩⟩
    · refine List.forall_mem_cons.mpr ⟨.inl ?_, hrest.visited⟩
      rw [hdone]
      simp
    · intro v hv hundone
      have hne : v ≠ plan.pending.hash := fun heq => henters.fresh (heq ▸ hv)
      have hundone₁ : v ∉ done₁ := hfirst.waits v (List.mem_cons_of_mem _ hv) hundone
      exact hrest.waits v hv (List.not_mem_cons_of_ne_of_not_mem hne hundone₁)

/-! ## The report of a cycle -/

/-- While the dependencies of a class are visited, it waits, and all that wait are on paths to
them. -/
theorem waiting_paths (hplans : (plans.map (·.pending.hash)).Nodup) (hr : SameHeaders r c.registry)
    {plan : LayoutPlan} (hplan : plan ∈ plans) {k : Class}
    (hk : c.registry.class? plan.pending.hash = some k)
    (hpath : ∀ w ∈ waiting, ∀ h ∈ plan.pending.hash :: hs, Relation.TransGen (DependsOn r plans) w h) :
    ∀ w ∈ plan.pending.hash :: waiting, ∀ d ∈ layoutDependencies k plan.fields,
      Relation.TransGen (DependsOn r plans) w d := by
  have hdeps : ∀ d ∈ layoutDependencies k plan.fields, DependsOn r plans plan.pending.hash d :=
    fun d => (dependsOn_iff hplans hr hplan hk).mpr
  refine List.forall_mem_cons.mpr ⟨fun d hd => .single (hdeps d hd), fun w hw d hd => ?_⟩
  exact (hpath w hw _ List.mem_cons_self).tail (hdeps d hd)

/-- The classes that wait are on a path to what is visited, so a class that is met again is on a
cycle. -/
theorem Visits.cycle (hplans : (plans.map (·.pending.hash)).Nodup)
    (h : Visits (planTable plans) waiting done hs c o c') :
    ∀ {e}, o = .error e → e.isStructural = true → SameHeaders r c.registry →
      (∀ w ∈ waiting, ∀ h ∈ hs, Relation.TransGen (DependsOn r plans) w h) →
      ∃ plan ∈ plans,
        e = .located (.rule (.containsItself plan.pending.decl.name.name)) plan.pending.decl.span ∧
        Relation.TransGen (DependsOn r plans) plan.pending.hash plan.pending.hash := by
  induction h with
  | nil => exact fun ho => nomatch ho
  | skip _ _ ih =>
    exact fun ho he hr hpath => ih ho he hr fun w hw h hh =>
      hpath w hw h (List.mem_cons_of_mem _ hh)
  -- The class is on its own path, which closes the cycle.
  | circular hplan _ hwaits hfails =>
    intro e ho he _ hpath
    injection ho with ho
    subst ho
    obtain ⟨hmem, rfl⟩ := (find?_planTable hplans).mp hplan
    exact ⟨_, hmem, (fails_inModule_fail hfails).1, hpath _ hwaits _ List.mem_cons_self⟩
  | unregistered =>
    intro e ho he
    injection ho with ho
    subst ho
    cases he
  | @failed waiting done hs h plan k c c' e henters hk _ ih =>
    intro e' ho he hr hpath
    injection ho with ho
    obtain ⟨hplan, rfl⟩ := (find?_planTable hplans).mp henters.planned
    exact ih (congrArg _ ho) he hr (waiting_paths hplans hr hplan hk hpath)
  -- Laying out one class blames no cycle.
  | refused _ _ _ hfails =>
    intro e ho he
    injection ho with ho
    subst ho
    rw [Blameless.fails hfails] at he
    cases he
  | laid henters hk hwalk hlayout _ _ ih' =>
    intro e ho he hr hpath
    have hr₂ := hr.trans ((hwalk.headers rfl).trans (layOutClass_headers hlayout))
    exact ih' ho he hr₂ fun w hw h hh => hpath w hw h (List.mem_cons_of_mem _ hh)

end Order

/-! ## Laying out all classes -/

section All

variable {ps ordered : List PendingClass} {plans : List LayoutPlan} {c c₁ c' : Compilation}

theorem map_hash_of_mapM (h : Yields (ps.mapM layoutPlan) c plans c₁) :
    plans.map (·.pending.hash) = ps.map (·.hash) := by
  rw [← map_pending_of_mapM h, List.map_map]
  rfl

/-- The walk comes to an end, and as the bounded one does. -/
theorem visits_iff (hps : (ps.map (·.hash)).Nodup) (hplans : Yields (ps.mapM layoutPlan) c plans c₁)
    {o : Except CompileError (List TypeHash)} :
    Visits (planTable plans) [] [] (ps.map (·.hash)) c₁ o c' ↔ ((ps.map (·.hash)).foldlM
      (layOutWithin (planTable plans) (ps.length + 1) []) []).run.run c₁ = (o, c') := by
  have hhashes := map_hash_of_mapM hplans
  have hkeys : ∀ h plan, (planTable plans).find? h = some plan → h ∈ ps.map (·.hash) := by
    intro h plan hfind
    obtain ⟨hplan, rfl⟩ := (find?_planTable (hhashes ▸ hps)).mp hfind
    exact hhashes ▸ List.mem_map_of_mem hplan
  have hvisits : ∀ {o c'}, ((ps.map (·.hash)).foldlM
      (layOutWithin (planTable plans) (ps.length + 1) []) []).run.run c₁ = (o, c') →
      Visits (planTable plans) [] [] (ps.map (·.hash)) c₁ o c' :=
    visits_of_run hkeys _ (by simp) List.nodup_nil (List.forall_mem_nil _)
  refine ⟨fun h => ?_, hvisits⟩
  obtain ⟨ho, hc⟩ := h.unique (hvisits rfl)
  exact Prod.ext ho.symm hc.symm

/-- The recursion comes to an end, with the outcome of the bounded one. -/
theorem laysOut_iff (hps : (ps.map (·.hash)).Nodup) {out : Except CompileError Unit} :
    LaysOut ps c out c' ↔ (layOutAll ps).run.run c = (out, c') := by
  unfold layOutAll
  constructor
  · intro h
    cases h with
    | unresolved hfails => exact run_bind_eq.mpr (.inl ⟨_, hfails, rfl⟩)
    | failed hplans hvisits =>
      have hrun := (visits_iff hps hplans).mp hvisits
      exact run_bind_eq.mpr (.inr ⟨_, _, hplans, run_bind_eq.mpr (.inl ⟨_, hrun, rfl⟩)⟩)
    | done hplans hvisits =>
      have hrun := (visits_iff hps hplans).mp hvisits
      exact run_bind_eq.mpr (.inr ⟨_, _, hplans, run_bind_eq.mpr (.inr ⟨_, _, hrun, rfl⟩)⟩)
  · intro h
    rcases run_bind_eq.mp h with ⟨e, hfails, rfl⟩ | ⟨plans, c₁, hplans, hwalk⟩
    · exact .unresolved hfails
    rcases run_bind_eq.mp hwalk with ⟨e, hfails, rfl⟩ | ⟨done, c₂, hyields, hpure⟩
    · exact .failed hplans ((visits_iff hps hplans).mpr hfails)
    · obtain ⟨rfl, rfl⟩ := Prod.mk.inj hpure
      exact .done hplans ((visits_iff hps hplans).mpr hyields)

/-- Plans in an order in which each one comes after those that it depends on rule cycles out. -/
theorem acyclic_of_follows {r : Registry} {order : List LayoutPlan} (hfollows : Follows r plans [] order)
    (hall : ∀ plan ∈ plans, plan ∈ order) (hroot : ∀ plan ∈ plans, plan.pending.hash ≠ Class.rootHash) :
    Acyclic r plans := by
  have hleaf : ∀ h, (∀ plan ∈ plans, plan.pending.hash ≠ h) →
      Acc (Function.swap (DependsOn r plans)) h := fun h hnone =>
    ⟨h, fun k ⟨plan, hplan, hhash, _⟩ => (hnone plan hplan hhash).elim⟩
  have hlaid := hfollows.acc fun k hk => by
    rcases hk with rfl | hk
    · exact hleaf _ hroot
    · exact absurd hk List.not_mem_nil
  have hwf : WellFounded (Function.swap (DependsOn r plans)) := by
    refine ⟨fun h => ?_⟩
    by_cases hplanned : ∃ plan ∈ plans, plan.pending.hash = h
    · obtain ⟨plan, hplan, rfl⟩ := hplanned
      exact hlaid plan (hall plan hplan)
    · exact hleaf h fun plan hplan hhash => hplanned ⟨plan, hplan, hhash⟩
  intro h hcycle
  exact hwf.transGen.irrefl.irrefl h (Relation.transGen_swap.mpr hcycle)

theorem site_of_headed (hh : Dispatch.Headed c.registry ps ordered)
    (hbases : ∀ h d, c.registry.class? h = some d →
      (∀ t ∈ d.bases, t.isClass = true) ∧ (h = Class.rootHash ∨ d.bases ≠ []))
    (hplans : Yields (ps.mapM layoutPlan) c plans c₁) :
    Site c.registry (fun _ _ => True) ps (planTable plans) :=
  ⟨hh.hierarchy, hh.declared.known, fun _ => hh.declared.root_not_mem, hbases,
    planned_of_mapM hplans fun _ _ _ _ => trivial⟩

/-- All classes are laid out, each one after those that it depends on. -/
theorem exists_order_of_layOutAll (hh : Dispatch.Headed c.registry ps ordered)
    (hbases : ∀ h d, c.registry.class? h = some d →
      (∀ t ∈ d.bases, t.isClass = true) ∧ (h = Class.rootHash ∨ d.bases ≠ []))
    (h : Yields (layOutAll ps) c () c') :
    ∃ plans c₁ order, Yields (ps.mapM layoutPlan) c plans c₁ ∧ order.Perm plans ∧
      Follows c.registry plans [] order ∧ Yields (order.forM layOutClass) c₁ () c' := by
  have hps := (List.nodup_cons.mp hh.declared.distinct).2
  have hlays := (laysOut_iff hps).mpr h
  cases hlays with
  | @done plans done c₁ _ hplans hvisits =>
    have hkept : c₁.registry = c.registry := hplans.keeps
    have hhashes : (plans.map (·.pending.hash)).Nodup := map_hash_of_mapM hplans ▸ hps
    have hsite := site_of_headed hh hbases hplans
    obtain ⟨order, horder⟩ := hvisits.exists_order hsite hhashes rfl (hkept ▸ fun _ => rfl)
    refine ⟨plans, c₁, order, hplans, ?_, horder.follows, horder.runs⟩
    refine (List.perm_ext_iff_of_nodup (.of_map _ horder.follows.nodup.1) (.of_map _ hhashes)).mpr
      fun plan =>
      ⟨horder.follows.mem plan, fun hplan => ?_⟩
    have hfind := (find?_planTable hhashes).mpr ⟨hplan, rfl⟩
    have hvisited := horder.visited plan.pending.hash
      (map_hash_of_mapM hplans ▸ List.mem_map_of_mem hplan)
    rw [horder.done_eq, hfind, List.append_nil, List.mem_reverse] at hvisited
    obtain ⟨q, hq, heq⟩ := List.mem_map.mp (hvisited.resolve_right (Option.some_ne_none plan))
    exact List.inj_on_of_nodup_map hhashes (horder.follows.mem q hq) hplan heq ▸ hq

/-- A class that is said to contain itself is on a cycle. -/
theorem cycle_of_layOutAll (hps : (ps.map (·.hash)).Nodup) {e : CompileError}
    (h : Fails (layOutAll ps) c e c') (he : e.isStructural = true) :
    ∃ plans c₁, Yields (ps.mapM layoutPlan) c plans c₁ ∧ ∃ plan ∈ plans,
      e = .located (.rule (.containsItself plan.pending.decl.name.name)) plan.pending.decl.span ∧
      Relation.TransGen (DependsOn c.registry plans) plan.pending.hash plan.pending.hash := by
  have hlays := (laysOut_iff hps).mpr h
  cases hlays with
  | unresolved hfails =>
    rw [Blameless.fails hfails] at he
    cases he
  | failed hplans hvisits =>
    have hkept : Compilation.registry _ = c.registry := hplans.keeps
    have hhashes := map_hash_of_mapM hplans ▸ hps
    refine ⟨_, _, hplans, ?_⟩
    exact hvisits.cycle hhashes rfl he (hkept ▸ fun _ => rfl) fun _ hw => absurd hw List.not_mem_nil

end All

/-- Laying out the classes of a program whose hierarchies are linearized comes to an end without a
bound on the recursion. If it succeeds, no class depends on itself, and every class has been laid
out once, after all that it depends on but the root, which has its layout from the start. Only a
class that depends on itself is said to contain itself. -/
theorem layout_in_dependency_order {o : Options} {p : Program} {c₀ c : Compilation}
    {ps ordered : List PendingClass} (hstart : Compilation.start o = .ok c₀)
    (h : Yields (Dispatch.runHeaders p) c₀ (ps, ordered) c) :
    (∀ out c', LaysOut ps c out c' ↔ (layOutAll ps).run.run c = (out, c')) ∧
    (∀ c', Yields (layOutAll ps) c () c' → ∃ plans c₁ order,
      Yields (ps.mapM layoutPlan) c plans c₁ ∧ plans.map (·.pending) = ps ∧ Acyclic c.registry plans ∧
      order.Perm plans ∧
      (∀ before plan after k, order = before ++ plan :: after →
        DependsOn c.registry plans plan.pending.hash k →
        k = Class.rootHash ∨ ∃ q ∈ before, q.pending.hash = k) ∧
      Yields (order.forM layOutClass) c₁ () c') ∧
    ∀ name span c', Fails (layOutAll ps) c (.located (.rule (.containsItself name)) span) c' →
      ∃ plans c₁, Yields (ps.mapM layoutPlan) c plans c₁ ∧ ∃ plan ∈ plans,
        plan.pending.decl.name.name = name ∧ plan.pending.decl.span = span ∧
        Relation.TransGen (DependsOn c.registry plans) plan.pending.hash plan.pending.hash := by
  have hd := Dispatch.declared_start hstart
  have hh := Dispatch.runHeaders_headed hd h
  have hps := (List.nodup_cons.mp hh.declared.distinct).2
  refine ⟨fun _ _ => laysOut_iff hps, fun c' hlayout => ?_, fun name span c' hfails => ?_⟩
  · obtain ⟨plans, c₁, order, hplans, hperm, hfollows, hruns⟩ :=
      exists_order_of_layOutAll hh (runHeaders_bases hd h) hlayout
    have hpending := map_pending_of_mapM hplans
    have hroot : ∀ plan ∈ plans, plan.pending.hash ≠ Class.rootHash := fun plan hplan =>
      hh.declared.root_not_mem (hpending ▸ List.mem_map_of_mem hplan)
    refine ⟨plans, c₁, order, hplans, hpending, ?_, hperm, ?_, hruns⟩
    · exact acyclic_of_follows hfollows (fun plan => hperm.mem_iff.mpr) hroot
    · rintro before plan after k rfl hdep
      -- At the start the root alone is settled.
      rcases hfollows.settled hdep with (hk | hk) | hbefore
      · exact .inl hk
      · exact absurd hk List.not_mem_nil
      · exact .inr hbefore
  · obtain ⟨plans, c₁, hplans, plan, hplan, he, hcycle⟩ := cycle_of_layOutAll hps hfails rfl
    injection he with hcause hspan
    injection hcause with hfault
    injection hfault with hname
    exact ⟨plans, c₁, hplans, plan, hplan, hname.symm, hspan.symm, hcycle⟩

/-- What becomes of the layout of a program, if it is reached. -/
def layoutOutcome? (o : Options) (p : Program) : Option (Except CompileError Unit) :=
  match Compilation.start o with
  | .error _ => none
  | .ok c₀ =>
    match (Dispatch.runHeaders p).run.run c₀ with
    | (.ok x, c) => some ((layOutAll x.1).run.run c).1
    | (.error _, _) => none

theorem exists_of_layoutOutcome? {o : Options} {p : Program} {out : Except CompileError Unit}
    (h : layoutOutcome? o p = some out) :
    ∃ c₀ ps ordered c c', Compilation.start o = .ok c₀ ∧
      Yields (Dispatch.runHeaders p) c₀ (ps, ordered) c ∧ (layOutAll ps).run.run c = (out, c') := by
  unfold layoutOutcome? at h
  split at h
  · cases h
  · rename_i c₀ hstart
    split at h
    · rename_i x c hheaders
      injection h with h
      exact ⟨c₀, x.1, x.2, c, _, hstart, hheaders, Prod.ext h rfl⟩
    · cases h

/-- A class that holds an object of a class below it. -/
def knottedRecords : Program :=
  ⟨[⟨"m", [
    sampleRecord "Whole" [] [("part", .named "Part" [] .unknown)],
    sampleRecord "Part" ["Whole"] []]⟩]⟩

set_option maxRecDepth 100000 in
theorem layout_in_dependency_order_samples :
    (∃ c₀ c c' c₁ ps ordered plans, ∃ order : List LayoutPlan, Compilation.start {} = .ok c₀ ∧
      Yields (Dispatch.runHeaders nestedRecords) c₀ (ps, ordered) c ∧ Yields (layOutAll ps) c () c' ∧
      LaysOut ps c (.ok ()) c' ∧ Yields (ps.mapM layoutPlan) c plans c₁ ∧ Acyclic c.registry plans ∧
      order.Perm plans ∧ Yields (order.forM layOutClass) c₁ () c') ∧
    ∃ c₀ c c' c₁ ps ordered plans, Compilation.start {} = .ok c₀ ∧
      Yields (Dispatch.runHeaders knottedRecords) c₀ (ps, ordered) c ∧
      Fails (layOutAll ps) c (.located (.rule (.containsItself "Whole")) .unknown) c' ∧
      Yields (ps.mapM layoutPlan) c plans c₁ ∧ ∃ plan ∈ plans, plan.pending.decl.name.name = "Whole" ∧
      Relation.TransGen (DependsOn c.registry plans) plan.pending.hash plan.pending.hash := by
  have hnested : layoutOutcome? {} nestedRecords = some (.ok ()) := by decide +kernel
  have hknotted : layoutOutcome? {} knottedRecords =
      some (.error (.located (.rule (.containsItself "Whole")) .unknown)) := by decide +kernel
  constructor
  · obtain ⟨c₀, ps, ordered, c, c', hstart, hheaders, hlayout⟩ := exists_of_layoutOutcome? hnested
    obtain ⟨hends, horder, -⟩ := layout_in_dependency_order hstart hheaders
    obtain ⟨plans, c₁, order, hplans, -, hacyclic, hperm, -, hruns⟩ := horder c' hlayout
    exact ⟨c₀, c, c', c₁, ps, ordered, plans, order, hstart, hheaders, hlayout, (hends _ _).mpr hlayout,
      hplans, hacyclic, hperm, hruns⟩
  · obtain ⟨c₀, ps, ordered, c, c', hstart, hheaders, hlayout⟩ := exists_of_layoutOutcome? hknotted
    obtain ⟨-, -, hcycle⟩ := layout_in_dependency_order hstart hheaders
    obtain ⟨plans, c₁, hplans, plan, hplan, hname, -, hcycle⟩ := hcycle _ _ c' hlayout
    exact ⟨c₀, c, c', c₁, ps, ordered, plans, hstart, hheaders, hlayout, hplans, plan, hplan, hname, hcycle⟩

end Registration

end ClassLang
