import ClassLang.Class.Basic
import ClassLang.Proofs.Ty.Substitution
import Mathlib.Data.List.Forall2

/-!
# Template parameters and instances in a type

Replacing the template parameters in a type changes the arguments of the instances of generic
classes that occur in it, and brings in those that occur in the new arguments; nothing else. A
parameter that is left has no argument, or comes with one.

An intrinsic is only good for being called, so nothing is replaced in its type, and nothing is
looked for in it.
-/

namespace ClassLang.Ty

mutual

/-- The template parameters that occur in a type, each with its bound. -/
def params : Ty → List (String × TypeHash)
  | param n bound => [(n, bound)]
  | pointer t | array t => t.params
  | callable _ ps r => allParams ps ++ r.params
  | applied _ as => allParams as
  | _ => []

/-- The template parameters that occur in some types. -/
def allParams : List Ty → List (String × TypeHash)
  | [] => []
  | t :: ts => t.params ++ allParams ts

end

mutual

/-- The instances of generic classes that occur in a type: the class and its arguments. -/
def instances : Ty → List (TypeHash × List Ty)
  | pointer t | array t => t.instances
  | callable _ ps r => allInstances ps ++ r.instances
  | applied h as => (h, as) :: allInstances as
  | _ => []

/-- The instances of generic classes that occur in some types. -/
def allInstances : List Ty → List (TypeHash × List Ty)
  | [] => []
  | t :: ts => t.instances ++ allInstances ts

end

theorem mem_allParams {y : String × TypeHash} {ts : List Ty} :
    y ∈ allParams ts ↔ ∃ t ∈ ts, y ∈ t.params := by
  induction ts with
  | nil => simp [allParams]
  | cons t ts ih => simp [allParams, ih]

theorem mem_allInstances {x : TypeHash × List Ty} {ts : List Ty} :
    x ∈ allInstances ts ↔ ∃ t ∈ ts, x ∈ t.instances := by
  induction ts with
  | nil => simp [allInstances]
  | cons t ts ih => simp [allInstances, ih]

mutual

/-- Parameters that occur in an instance occur in the type. -/
theorem mem_params_of_instances {x : TypeHash × List Ty} {y : String × TypeHash}
    (hy : y ∈ allParams x.2) : ∀ {t : Ty}, x ∈ t.instances → y ∈ t.params
  | pointer t, hx => mem_params_of_instances hy (t := t) hx
  | array t, hx => mem_params_of_instances hy (t := t) hx
  | callable k ps r, hx => by
    rcases List.mem_append.mp hx with hps | hr
    · exact List.mem_append_left _ (mem_allParams_of_instances hy hps)
    · exact List.mem_append_right _ (mem_params_of_instances hy hr)
  | applied h as, hx => by
    rcases List.mem_cons.mp hx with rfl | has
    · exact hy
    · exact mem_allParams_of_instances hy has
  | prim _, hx => absurd hx List.not_mem_nil
  | classRef _, hx => absurd hx List.not_mem_nil
  | param .., hx => absurd hx List.not_mem_nil
  | intrinsic .., hx => absurd hx List.not_mem_nil

theorem mem_allParams_of_instances {x : TypeHash × List Ty} {y : String × TypeHash}
    (hy : y ∈ allParams x.2) : ∀ {ts : List Ty}, x ∈ allInstances ts → y ∈ allParams ts
  | [], hx => absurd hx List.not_mem_nil
  | t :: ts, hx => by
    rcases List.mem_append.mp hx with ht | hts
    · exact List.mem_append_left _ (mem_params_of_instances hy ht)
    · exact List.mem_append_right _ (mem_allParams_of_instances hy hts)

end

/-! ## Replacing parameters -/

section Substitution

variable {names : List String} {args : List Ty}

mutual

/-- An instance in the result is one of the type with its arguments replaced, or comes with an
argument. -/
theorem mem_instances_substitute {x : TypeHash × List Ty} :
    ∀ {t : Ty}, x ∈ (t.substitute names args).instances →
      (∃ z ∈ t.instances, x = (z.1, substituteAll names args z.2)) ∨ x ∈ allInstances args
  -- A parameter has no instances; those of its argument come with the arguments.
  | param n bound, hx => by
    rw [substitute] at hx
    cases hb : binding? names args n with
    | none =>
      rw [hb] at hx
      exact absurd hx List.not_mem_nil
    | some u =>
      rw [hb] at hx
      exact .inr (mem_allInstances.mpr ⟨u, mem_of_binding? hb, hx⟩)
  | pointer t, hx => mem_instances_substitute (t := t) hx
  | array t, hx => mem_instances_substitute (t := t) hx
  | callable k ps r, hx => by
    rcases List.mem_append.mp hx with hps | hr
    · refine (mem_allInstances_substituteAll hps).imp_left ?_
      rintro ⟨z, hz, heq⟩
      exact ⟨z, List.mem_append_left _ hz, heq⟩
    · refine (mem_instances_substitute hr).imp_left ?_
      rintro ⟨z, hz, heq⟩
      exact ⟨z, List.mem_append_right _ hz, heq⟩
  | applied h as, hx => by
    rcases List.mem_cons.mp hx with rfl | has
    · exact .inl ⟨(h, as), List.mem_cons_self, rfl⟩
    · refine (mem_allInstances_substituteAll has).imp_left ?_
      rintro ⟨z, hz, heq⟩
      exact ⟨z, List.mem_cons_of_mem _ hz, heq⟩
  | prim _, hx => absurd hx List.not_mem_nil
  | classRef _, hx => absurd hx List.not_mem_nil
  | intrinsic .., hx => absurd hx List.not_mem_nil

theorem mem_allInstances_substituteAll {x : TypeHash × List Ty} :
    ∀ {ts : List Ty}, x ∈ allInstances (substituteAll names args ts) →
      (∃ z ∈ allInstances ts, x = (z.1, substituteAll names args z.2)) ∨ x ∈ allInstances args
  | [], hx => absurd hx List.not_mem_nil
  | t :: ts, hx => by
    rcases List.mem_append.mp hx with ht | hts
    · refine (mem_instances_substitute ht).imp_left ?_
      rintro ⟨z, hz, heq⟩
      exact ⟨z, List.mem_append_left _ hz, heq⟩
    · refine (mem_allInstances_substituteAll hts).imp_left ?_
      rintro ⟨z, hz, heq⟩
      exact ⟨z, List.mem_append_right _ hz, heq⟩

end

mutual

/-- A parameter in the result is one of the type that has no argument, or comes with an
argument. -/
theorem mem_params_substitute {y : String × TypeHash} :
    ∀ {t : Ty}, y ∈ (t.substitute names args).params →
      (y ∈ t.params ∧ binding? names args y.1 = none) ∨ y ∈ allParams args
  | param n bound, hy => by
    rw [substitute] at hy
    cases hb : binding? names args n with
    | none =>
      rw [hb] at hy
      refine .inl ⟨hy, ?_⟩
      rw [List.mem_singleton.mp hy]
      exact hb
    | some u =>
      rw [hb] at hy
      exact .inr (mem_allParams.mpr ⟨u, mem_of_binding? hb, hy⟩)
  | pointer t, hy => mem_params_substitute (t := t) hy
  | array t, hy => mem_params_substitute (t := t) hy
  | callable k ps r, hy => by
    rcases List.mem_append.mp hy with hps | hr
    · exact (mem_allParams_substituteAll hps).imp_left (And.imp_left (List.mem_append_left _))
    · exact (mem_params_substitute hr).imp_left (And.imp_left (List.mem_append_right _))
  | applied _ _, hy => mem_allParams_substituteAll hy
  | prim _, hy => absurd hy List.not_mem_nil
  | classRef _, hy => absurd hy List.not_mem_nil
  | intrinsic .., hy => absurd hy List.not_mem_nil

theorem mem_allParams_substituteAll {y : String × TypeHash} :
    ∀ {ts : List Ty}, y ∈ allParams (substituteAll names args ts) →
      (y ∈ allParams ts ∧ binding? names args y.1 = none) ∨ y ∈ allParams args
  | [], hy => absurd hy List.not_mem_nil
  | t :: ts, hy => by
    rcases List.mem_append.mp hy with ht | hts
    · exact (mem_params_substitute ht).imp_left (And.imp_left (List.mem_append_left _))
    · exact (mem_allParams_substituteAll hts).imp_left (And.imp_left (List.mem_append_right _))

end

end Substitution

/-! ## Arguments of template parameters -/

/-- What a name is bound to stands where a parameter of that name does. -/
theorem exists_param_of_binding? {R : Ty → TemplateParam → Prop} {args : List Ty}
    {ps : List TemplateParam} (h : List.Forall₂ R args ps) {n : String} {a : Ty}
    (ha : binding? (ps.map (·.name)) args n = some a) : ∃ p ∈ ps, p.name = n ∧ R a p := by
  induction h with
  | nil => cases ha
  | @cons b p as ps hb _ ih =>
    rw [binding?, List.map_cons, List.zip_cons_cons, List.lookup_cons] at ha
    split at ha
    · rename_i hn
      have hname : n = p.name := by simpa using hn
      injection ha with ha
      exact ⟨p, List.mem_cons_self, hname.symm, ha ▸ hb⟩
    · obtain ⟨q, hq, hname, hR⟩ := ih ha
      exact ⟨q, List.mem_cons_of_mem _ hq, hname, hR⟩

/-- Where there are as many arguments as parameters, every parameter has one. -/
theorem binding?_ne_none {args : List Ty} {names : List String} (h : args.length = names.length)
    {n : String} (hn : n ∈ names) : binding? names args n ≠ none := by
  induction names generalizing args with
  | nil => exact absurd hn List.not_mem_nil
  | cons m names ih =>
    obtain ⟨a, as, rfl⟩ := List.exists_cons_of_length_eq_add_one h
    rw [binding?, List.zip_cons_cons, List.lookup_cons]
    split
    · exact Option.some_ne_none _
    · rename_i hne
      refine ih (Nat.succ.inj h) ((List.mem_cons.mp hn).resolve_left ?_)
      rintro rfl
      simp at hne

end ClassLang.Ty
