import ClassLang.Ty.Substitution

/-!
# Substituting twice

The arguments that replace template parameters may mention parameters themselves, those of the
class in which they are written. If every parameter of a type has an argument, then replacing
the parameters and afterwards those of the arguments is replacing them once, by the arguments
in their final form. A parameter without an argument would be mistaken for one of the second
class if that has a parameter of the same name.
-/

namespace ClassLang.Ty

mutual

/-- Every template parameter in the type has an argument. -/
def isBoundBy (names : List String) (args : List Ty) : Ty → Bool
  | param n _ => (binding? names args n).isSome
  | pointer inner | array inner => inner.isBoundBy names args
  | callable _ ps r => allBoundBy names args ps && r.isBoundBy names args
  | applied _ as => allBoundBy names args as
  | _ => true

/-- Every template parameter in one of the types has an argument. -/
def allBoundBy (names : List String) (args : List Ty) : List Ty → Bool
  | [] => true
  | t :: ts => t.isBoundBy names args && allBoundBy names args ts

end

/-- What a name is bound to is one of the arguments. -/
theorem mem_of_binding? {names : List String} {args : List Ty} {n : String} {t : Ty}
    (h : binding? names args n = some t) : t ∈ args := by
  unfold binding? at h
  induction names generalizing args with
  | nil => cases h
  | cons name names ih =>
    cases args with
    | nil => cases h
    | cons u us =>
      rw [List.zip_cons_cons, List.lookup_cons] at h
      split at h
      · injection h with h
        exact h ▸ List.mem_cons_self
      · exact List.mem_cons_of_mem _ (ih h)

theorem binding?_substituteAll (names ms : List String) (args bs : List Ty) (n : String) :
    binding? names (substituteAll ms bs args) n =
      (binding? names args n).map (substitute ms bs) := by
  unfold binding?
  induction names generalizing args with
  | nil => rfl
  | cons name names ih =>
    cases args with
    | nil => rfl
    | cons t ts =>
      rw [substituteAll, List.zip_cons_cons, List.zip_cons_cons, List.lookup_cons,
        List.lookup_cons]
      cases n == name with
      | true => rfl
      | false => exact ih ts

mutual

theorem substitute_substitute {names ms : List String} {args bs : List Ty} :
    ∀ {t : Ty}, t.isBoundBy names args = true →
      (t.substitute names args).substitute ms bs =
        t.substitute names (substituteAll ms bs args)
  | param n bound, h => by
    obtain ⟨u, hu⟩ := Option.isSome_iff_exists.mp h
    rw [substitute, substitute, binding?_substituteAll, hu]
    rfl
  | pointer inner, h => by
    simp only [substitute, substitute_substitute (t := inner) h]
  | array inner, h => by
    simp only [substitute, substitute_substitute (t := inner) h]
  | callable k ps r, h => by
    obtain ⟨hps, hr⟩ := Bool.and_eq_true_iff.mp h
    simp only [substitute, substituteAll_substituteAll hps, substitute_substitute hr]
  | applied _ as, h => by
    have has : allBoundBy names args as = true := h
    simp only [substitute, substituteAll_substituteAll has]
  | prim _, _ => rfl
  | classRef _, _ => rfl
  | intrinsic .., _ => rfl

theorem substituteAll_substituteAll {names ms : List String} {args bs : List Ty} :
    ∀ {ts : List Ty}, allBoundBy names args ts = true →
      substituteAll ms bs (substituteAll names args ts) =
        substituteAll names (substituteAll ms bs args) ts
  | [], _ => rfl
  | t :: ts, h => by
    obtain ⟨ht, hts⟩ := Bool.and_eq_true_iff.mp h
    simp only [substituteAll, substitute_substitute ht, substituteAll_substituteAll hts]

end

end ClassLang.Ty
