import ClassLang.Proofs.Ty.Storage
import ClassLang.Proofs.Ty.Substitution

/-!
# Types of registered classes

A type is known if all the classes that it mentions are registered. Types that are written in a
program are known once they are resolved, and everything that is derived from them stays known:
parts of types, types of fields and methods, and types in which template parameters are
replaced.
-/

namespace ClassLang

namespace Ty

mutual

/-- The classes that a type mentions. -/
def hashes : Ty → List TypeHash
  | prim _ => []
  | pointer t | array t => t.hashes
  | callable _ ps r => allHashes ps ++ r.hashes
  | classRef h | param _ h => [h]
  | applied h as => h :: allHashes as
  | intrinsic _ r => r.hashes

/-- The classes that some types mention. -/
def allHashes : List Ty → List TypeHash
  | [] => []
  | t :: ts => t.hashes ++ allHashes ts

end

theorem mem_allHashes {h : TypeHash} {ts : List Ty} :
    h ∈ allHashes ts ↔ ∃ t ∈ ts, h ∈ t.hashes := by
  induction ts with
  | nil => simp [allHashes]
  | cons t ts ih => simp [allHashes, ih]

mutual

/-- Replacing parameters brings in no classes but those of the arguments. -/
theorem mem_hashes_substitute {names : List String} {args : List Ty} {h : TypeHash} :
    ∀ {t : Ty}, h ∈ (t.substitute names args).hashes → h ∈ t.hashes ∨ h ∈ allHashes args
  | param n bound, hh => by
    rw [substitute] at hh
    cases hb : binding? names args n with
    | none =>
      rw [hb] at hh
      exact .inl hh
    | some u =>
      rw [hb] at hh
      exact .inr (mem_allHashes.mpr ⟨u, mem_of_binding? hb, hh⟩)
  | pointer inner, hh => mem_hashes_substitute (t := inner) hh
  | array inner, hh => mem_hashes_substitute (t := inner) hh
  | callable k ps r, hh => by
    rcases List.mem_append.mp hh with hps | hr
    · exact (mem_allHashes_substituteAll hps).imp_left (List.mem_append_left _)
    · exact (mem_hashes_substitute hr).imp_left (List.mem_append_right _)
  | applied k as, hh => by
    rcases List.mem_cons.mp hh with rfl | has
    · exact .inl List.mem_cons_self
    · exact (mem_allHashes_substituteAll has).imp_left (List.mem_cons_of_mem _)
  | prim _, hh => .inl hh
  | classRef _, hh => .inl hh
  | intrinsic .., hh => .inl hh

theorem mem_allHashes_substituteAll {names : List String} {args : List Ty} {h : TypeHash} :
    ∀ {ts : List Ty}, h ∈ allHashes (substituteAll names args ts) →
      h ∈ allHashes ts ∨ h ∈ allHashes args
  | [], hh => absurd hh List.not_mem_nil
  | t :: ts, hh => by
    rcases List.mem_append.mp hh with ht | hts
    · exact (mem_hashes_substitute ht).imp_left (List.mem_append_left _)
    · exact (mem_allHashes_substituteAll hts).imp_left (List.mem_append_right _)

end

end Ty

namespace Registry

/-- The class is registered. -/
def Has (r : Registry) (h : TypeHash) : Prop := ∃ c, r.class? h = some c

/-- All classes that the type mentions are registered. -/
def Knows (r : Registry) (t : Ty) : Prop := ∀ h ∈ t.hashes, r.Has h

def KnowsAll (r : Registry) (ts : List Ty) : Prop := ∀ t ∈ ts, r.Knows t

variable {r : Registry}

@[simp]
theorem knows_prim (p : Prim) : r.Knows (.prim p) := fun _ h => absurd h List.not_mem_nil

@[simp]
theorem knows_pointer {t : Ty} : r.Knows (.pointer t) ↔ r.Knows t := Iff.rfl

@[simp]
theorem knows_array {t : Ty} : r.Knows (.array t) ↔ r.Knows t := Iff.rfl

@[simp]
theorem knows_classRef {h : TypeHash} : r.Knows (.classRef h) ↔ r.Has h :=
  List.forall_mem_singleton

@[simp]
theorem knows_param {n : String} {h : TypeHash} : r.Knows (.param n h) ↔ r.Has h :=
  List.forall_mem_singleton

theorem knowsAll_iff {ts : List Ty} : r.KnowsAll ts ↔ ∀ h ∈ Ty.allHashes ts, r.Has h := by
  constructor
  · intro hts h hh
    obtain ⟨t, ht, hh⟩ := Ty.mem_allHashes.mp hh
    exact hts t ht h hh
  · intro hts t ht h hh
    exact hts h (Ty.mem_allHashes.mpr ⟨t, ht, hh⟩)

@[simp]
theorem knowsAll_nil : r.KnowsAll [] := List.forall_mem_nil _

@[simp]
theorem knowsAll_cons {t : Ty} {ts : List Ty} :
    r.KnowsAll (t :: ts) ↔ r.Knows t ∧ r.KnowsAll ts := List.forall_mem_cons

@[simp]
theorem knows_applied {h : TypeHash} {as : List Ty} :
    r.Knows (.applied h as) ↔ r.Has h ∧ r.KnowsAll as := by
  rw [knowsAll_iff]
  exact List.forall_mem_cons

@[simp]
theorem knows_callable {k : CallKind} {ps : List Ty} {res : Ty} :
    r.Knows (.callable k ps res) ↔ r.KnowsAll ps ∧ r.Knows res := by
  rw [knowsAll_iff]
  exact List.forall_mem_append

/-- The class of a known type is registered. -/
theorem Knows.has {t : Ty} (h : r.Knows t) {k : TypeHash} (hk : t.classHash? = some k) :
    r.Has k := by
  cases t with
  | classRef _ | param _ _ | applied _ _ =>
    injection hk with hk
    exact hk ▸ h _ List.mem_cons_self
  | _ => cases hk

theorem Knows.args {t : Ty} (h : r.Knows t) : r.KnowsAll t.args := by
  cases t with
  | applied k as => exact (knows_applied.mp h).2
  | _ => exact knowsAll_nil

theorem Knows.substitute {t : Ty} (h : r.Knows t) {names : List String} {args : List Ty}
    (hargs : r.KnowsAll args) : r.Knows (t.substitute names args) := by
  intro k hk
  rcases Ty.mem_hashes_substitute hk with hk | hk
  · exact h k hk
  · exact knowsAll_iff.mp hargs k hk

theorem KnowsAll.substitute {ts : List Ty} (h : r.KnowsAll ts) {names : List String}
    {args : List Ty} (hargs : r.KnowsAll args) :
    r.KnowsAll (Ty.substituteAll names args ts) := by
  rw [Ty.substituteAll_eq_map]
  intro t ht
  obtain ⟨u, hu, rfl⟩ := List.mem_map.mp ht
  exact (h u hu).substitute hargs

/-- What is known stays known when classes are added. -/
theorem Knows.mono {r' : Registry} (hr : ∀ h, r.Has h → r'.Has h) {t : Ty} (h : r.Knows t) :
    r'.Knows t := fun k hk => hr k (h k hk)

theorem KnowsAll.mono {r' : Registry} (hr : ∀ h, r.Has h → r'.Has h) {ts : List Ty}
    (h : r.KnowsAll ts) : r'.KnowsAll ts := fun t ht => (h t ht).mono hr

end Registry

end ClassLang
