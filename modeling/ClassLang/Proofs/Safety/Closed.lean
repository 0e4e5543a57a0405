import ClassLang.Proofs.Registration.Scopes
import ClassLang.Proofs.Safety.Ready

/-!
# Registries that mention only what they hold

While a program is registered, classes and functions are added and completed, and nothing is ever
taken away. A registry is closed if all types in it are known: then no lookup of a class that some
type mentions can fail. Every change that registration makes keeps a registry closed, because the
types that it puts in were resolved against that registry.
-/

namespace ClassLang

/-! ## What is recorded -/

/-- What is recorded about the class mentions registered classes only. -/
structure Class.Known (r : Registry) (c : Class) : Prop where
  templates : ∀ p ∈ c.templates, r.Has p.bound
  bases : r.KnowsAll c.bases
  inherited : ∀ e ∈ c.inherited.entries, r.KnowsAll e.2
  fields : ∀ f ∈ c.fields, r.Knows f.type
  ranks : ∀ k ∈ c.ranks, r.KnowsAll k.params ∧ r.Knows k.result

/-- The signature mentions registered classes only. -/
structure Signature.Known (r : Registry) (s : Signature) : Prop where
  params : r.KnowsAll s.params
  result : r.Knows s.result
  owner : ∀ h, s.owner = .classOf h → r.Has h

/-- All that is registered mentions registered classes only, and functions know their places. -/
structure Registry.Closed (r : Registry) : Prop where
  root : r.Has Class.rootHash
  classes : ∀ {h c}, r.class? h = some c → c.Known r
  functions : ∀ {id s}, r.function? id = some s → s.Known r
  numbered : ∀ {id s}, r.function? id = some s → s.id = id

variable {r r' : Registry}

theorem Table.mem_of_find? {κ α : Type} [DecidableEq κ] {t : Table κ α} {k : κ} {v : α}
    (h : t.find? k = some v) : (k, v) ∈ t.entries := by
  obtain ⟨entries⟩ := t
  induction entries with
  | nil => cases h
  | cons e rest ih =>
    obtain ⟨k', v'⟩ := e
    by_cases hk : k' = k
    · have hv : v' = v := by simpa [find?, lookup, hk] using h
      exact hk ▸ hv ▸ List.mem_cons_self
    · exact List.mem_cons_of_mem _ (ih (by simpa [find?, lookup, hk] using h))

theorem Table.mem_put {κ α : Type} [DecidableEq κ] {k : κ} {v : α} {e : κ × α} :
    ∀ {entries : List (κ × α)}, e ∈ put k v entries → e ∈ entries ∨ e.2 = v
  | [], h => .inr (by rw [List.mem_singleton.mp h])
  | e' :: rest, h => by
    rw [put] at h
    split at h
    · rcases List.mem_cons.mp h with rfl | h
      · exact .inr rfl
      · exact .inl (List.mem_cons_of_mem _ h)
    · rcases List.mem_cons.mp h with rfl | h
      · exact .inl List.mem_cons_self
      · exact (mem_put h).imp_left (List.mem_cons_of_mem _)

theorem Table.mem_insert {κ α : Type} [DecidableEq κ] {t : Table κ α} {k : κ} {v : α} {e : κ × α}
    (h : e ∈ (t.insert k v).entries) : e ∈ t.entries ∨ e.2 = v := mem_put h

/-- Types of ancestors are known in the terms of a class. -/
theorem Registry.Knows.inOwnTerms {c : Class} {t : Ty} (ht : r.Knows t)
    (hc : ∀ e ∈ c.inherited.entries, r.KnowsAll e.2) (ancestor : Class) :
    r.Knows (c.inOwnTerms ancestor t) := by
  unfold Class.inOwnTerms
  split
  · rename_i args hargs
    exact ht.substitute (hc _ (Table.mem_of_find? hargs))
  · exact ht

namespace Class.Known

variable {c : Class}

theorem mono (hr : ∀ h, r.Has h → r'.Has h) (h : c.Known r) : c.Known r' where
  templates p hp := hr _ (h.templates p hp)
  bases := h.bases.mono hr
  inherited e he := (h.inherited e he).mono hr
  fields f hf := (h.fields f hf).mono hr
  ranks k hk := ⟨(h.ranks k hk).1.mono hr, (h.ranks k hk).2.mono hr⟩

/-- A class that is only declared mentions no other. -/
theorem declared (r : Registry) (name path : String) (span : Span) (isAbstract : Bool) :
    (Class.declared name path span isAbstract).Known r where
  templates := List.forall_mem_nil _
  bases := Registry.knowsAll_nil
  inherited := List.forall_mem_nil _
  fields := List.forall_mem_nil _
  ranks := List.forall_mem_nil _

end Class.Known

theorem Signature.Known.mono {s : Signature} (hr : ∀ h, r.Has h → r'.Has h) (h : s.Known r) :
    s.Known r' := ⟨h.params.mono hr, h.result.mono hr, fun k hk => hr k (h.owner k hk)⟩

/-! ## Changes of the registry -/

namespace Registry

theorem has_of_map {β : Type} {π : Class → β}
    (hr : ∀ h, (r'.class? h).map π = (r.class? h).map π) {h : TypeHash} (hh : r.Has h) :
    r'.Has h := by
  obtain ⟨c, hc⟩ := hh
  have hmap := hr h
  rw [hc] at hmap
  obtain ⟨c', hc', _⟩ := Option.map_eq_some_iff.mp hmap
  exact ⟨c', hc'⟩

theorem Has.modifyClass {h k : TypeHash} {f : Class → Class} (hh : r.Has k) :
    (r.modifyClass h f).Has k := by
  obtain ⟨c, hc⟩ := hh
  unfold Has
  rw [class?_modifyClass]
  split
  · rename_i heq
    subst heq
    exact ⟨f c, by rw [hc]; rfl⟩
  · exact ⟨c, hc⟩

theorem Has.addClass {c : Class} {k : TypeHash} (hh : r.Has k) : (r.addClass c).Has k := by
  obtain ⟨d, hd⟩ := hh
  unfold Has
  rw [class?_addClass]
  split
  · exact ⟨_, rfl⟩
  · exact ⟨d, hd⟩

namespace Closed

theorem initial (n : Nat) : (Registry.initial n).Closed where
  root := ⟨_, (Registration.declared_initial n).rootClass⟩
  classes {h c} hc := by
    rcases (Registration.declared_initial n).known h c hc with rfl | ⟨_, hp, _⟩
    · rw [(Registration.declared_initial n).rootClass] at hc
      injection hc with hc
      subst hc
      exact ⟨List.forall_mem_nil _, knowsAll_nil, List.forall_mem_nil _,
        List.forall_mem_singleton.mpr (knows_pointer.mpr (knows_prim _)), List.forall_mem_nil _⟩
    · exact absurd hp List.not_mem_nil
  functions hs := by cases hs
  numbered hs := by cases hs

/-- A class is changed to one that mentions registered classes only. -/
theorem modifyClass (h : r.Closed) {k : TypeHash} {f : Class → Class}
    (hf : ∀ c, r.class? k = some c → c.Known r → (f c).Known r) : (r.modifyClass k f).Closed where
  root := h.root.modifyClass
  classes {k' c'} hc := by
    rw [class?_modifyClass] at hc
    split at hc
    · obtain ⟨c, hk, rfl⟩ := Option.map_eq_some_iff.mp hc
      exact (hf c hk (h.classes hk)).mono fun _ => Has.modifyClass
    · exact (h.classes hc).mono fun _ => Has.modifyClass
  functions hs := (h.functions hs).mono fun _ => Has.modifyClass
  numbered hs := h.numbered hs

theorem addClass (h : r.Closed) {c : Class} (hc : c.Known r) : (r.addClass c).Closed where
  root := h.root.addClass
  classes {k d} hd := by
    rw [class?_addClass] at hd
    split at hd
    · injection hd with hd
      subst hd
      have hknown : c.Known (r.addClass c) := hc.mono fun _ => Has.addClass
      exact ⟨hknown.templates, hknown.bases, hknown.inherited, hknown.fields, hknown.ranks⟩
    · exact (h.classes hd).mono fun _ => Has.addClass
  functions hs := (h.functions hs).mono fun _ => Has.addClass
  numbered hs := h.numbered hs

theorem pushFunction (h : r.Closed) {s : Signature} (hs : s.Known r)
    (hid : s.id = r.functions.size) : (Registration.pushFunction r s).Closed := by
  have hhas : ∀ k, r.Has k → (Registration.pushFunction r s).Has k := fun _ hk => hk
  refine ⟨h.root, fun hc => (h.classes hc).mono hhas, fun {i t} ht => ?_, fun {i t} ht => ?_⟩ <;>
    obtain ⟨rfl, rfl⟩ | ⟨_, ht⟩ := Registration.new_or_old_of_pushFunction ht
  · exact hs.mono hhas
  · exact (h.functions ht).mono hhas
  · exact hid
  · exact h.numbered ht

end Closed

end Registry

/-! ## What is visible -/

theorem Meaning.Outer.registered {V : Binding → Prop} {name : String} :
    ∀ {m : Meaning}, m.Outer r V name → m.Registered r
  | .variable _, _ => trivial
  | .functions _, h => ⟨h.1, fun id hid => by
    obtain ⟨s, hs, _⟩ := h.2 id hid
    exact (Array.getElem?_eq_some_iff.mp hs).1⟩
  | .classOf _, h => by
    obtain ⟨k, hk, _⟩ := h
    exact ⟨k, hk⟩
  | .typeParam _, h => h.elim
  | .native _, _ | .intrinsic _, _ => trivial

/-- Outside of classes, all names that are visible are registered. -/
theorem Compilation.Outer.named {V : Binding → Prop} {c : Compilation} (h : c.Outer V) :
    Named c.registry c := fun _ _ he => (h.find? he).registered

end ClassLang
