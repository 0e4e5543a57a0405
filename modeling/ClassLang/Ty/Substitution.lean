import ClassLang.Ty.Basic

/-!
# Template substitution

A generic class is written in terms of its own parameters. Seen from a subclass, or through
a type that binds them, every parameter is replaced by the argument at its position. A name
that has no argument stays as it is, so substituting nothing changes nothing.
-/

namespace ClassLang.Ty

/-- What `name` is bound to: the argument at the first position of `name` among the names. -/
def binding? (names : List String) (args : List Ty) (name : String) : Option Ty :=
  (names.zip args).lookup name

mutual

/-- Replace the template parameters in `names` by the arguments at their positions. -/
def substitute (names : List String) (args : List Ty) : Ty → Ty
  | param n bound => (binding? names args n).getD (param n bound)
  | pointer inner => pointer (inner.substitute names args)
  | array inner => array (inner.substitute names args)
  | callable k ps r => callable k (substituteAll names args ps) (r.substitute names args)
  | applied h as => applied h (substituteAll names args as)
  | other => other

/-- Substitute in each of several types. -/
def substituteAll (names : List String) (args : List Ty) : List Ty → List Ty
  | [] => []
  | t :: ts => t.substitute names args :: substituteAll names args ts

end

/-- Substituting in a list is substituting in its members. -/
theorem substituteAll_eq_map (names : List String) (args ts : List Ty) :
    substituteAll names args ts = ts.map (substitute names args) := by
  induction ts with
  | nil => rfl
  | cons t ts ih => simp [substituteAll, ih]

@[simp]
theorem binding?_nil (names : List String) (name : String) : binding? names [] name = none := by
  simp [binding?]

mutual

/-- Without arguments a type stays as it is. -/
theorem substitute_nil (names : List String) : ∀ t : Ty, substitute names [] t = t
  | param n bound => by simp [substitute]
  | pointer inner => by simp [substitute, substitute_nil names inner]
  | array inner => by simp [substitute, substitute_nil names inner]
  | callable k ps r => by
    simp [substitute, substituteAll_nil names ps, substitute_nil names r]
  | applied h as => by simp [substitute, substituteAll_nil names as]
  | prim _ => rfl
  | classRef _ => rfl
  | intrinsic .. => rfl

theorem substituteAll_nil (names : List String) : ∀ ts : List Ty, substituteAll names [] ts = ts
  | [] => rfl
  | t :: ts => by simp [substituteAll, substitute_nil names t, substituteAll_nil names ts]

end

end ClassLang.Ty
