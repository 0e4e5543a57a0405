import ClassLang.Lowering.State
import ClassLang.Proofs.Step

/-!
# Chains of scopes

Names are added to the innermost scope, and leaving a scope gives back the chain from before.
What the scopes say about the statement one is in depends on nothing but what opened them.
-/

namespace ClassLang

/-! ## One scope -/

namespace Scope

variable {s s' : Scope} {name : String} {d : Meaning} {span : Span}

/-- Defining a name writes one entry: the meaning, or all overloads of a function. -/
theorem define_effect (h : s.define name d span = .ok s') :
    ∃ e, s' = { s with entries := s.entries.insert name e } ∧
      (s.find? name = none ∧ e = ⟨d, span⟩ ∨ ∃ ids more first,
        s.find? name = some ⟨.functions ids, first⟩ ∧ d = .functions more ∧
          e = ⟨.functions (mergeIds ids more), first⟩) := by
  unfold define at h
  split at h
  · rename_i hnone
    injection h with h
    exact ⟨_, h.symm, .inl ⟨hnone, rfl⟩⟩
  · rename_i ids first more hsome
    injection h with h
    exact ⟨_, h.symm, .inr ⟨ids, more, first, hsome, rfl, rfl⟩⟩
  · cases h

theorem kind_define (h : s.define name d span = .ok s') : s'.kind = s.kind := by
  obtain ⟨e, rfl, _⟩ := define_effect h
  rfl

/-- A name keeps its meaning when another one is defined. -/
theorem find?_define_of_ne (h : s.define name d span = .ok s') {other : String}
    (hne : name ≠ other) : s'.find? other = s.find? other := by
  obtain ⟨e, rfl, _⟩ := define_effect h
  exact Table.find?_insert_of_ne _ hne e

/-- All names in the scope have meanings of some sort. -/
def All (P : Meaning → Prop) (s : Scope) : Prop :=
  ∀ name e, s.find? name = some e → P e.meaning

variable {P : Meaning → Prop}

theorem all_opened (kind : ScopeKind) : (opened kind).All P := fun _ _ h => by cases h

theorem All.imp {P' : Meaning → Prop} (h : s.All P) (hP : ∀ d, P d → P' d) : s.All P' :=
  fun name e he => hP _ (h name e he)

theorem All.define (hs : s.All P) (hd : P d)
    (hmerge : ∀ ids more, P (.functions ids) → P (.functions more) →
      P (.functions (mergeIds ids more)))
    (h : s.define name d span = .ok s') : s'.All P := by
  intro other e he
  by_cases hname : name = other
  · subst hname
    obtain ⟨new, rfl, hnew⟩ := define_effect h
    have he : (s.entries.insert name new).find? name = some e := he
    rw [Table.find?_insert_self] at he
    injection he with he
    subst he
    rcases hnew with ⟨_, rfl⟩ | ⟨ids, more, first, hold, rfl, rfl⟩
    · exact hd
    · exact hmerge ids more (hs name _ hold) hd
  · rw [find?_define_of_ne h hname] at he
    exact hs other e he

end Scope

/-! ## Chains -/

namespace Scopes

variable {s s' : Scopes} {name : String} {d : Meaning} {span : Span}

/-- What opened the scopes, innermost first. -/
def kinds (s : Scopes) : List ScopeKind := s.chain.map (·.kind)

/-- The chain with another innermost scope. -/
def replace (s : Scopes) (scope : Scope) : Scopes :=
  match s.inner with
  | [] => { s with global := scope }
  | _ :: rest => { s with inner := scope :: rest }

theorem chain_replace (s : Scopes) (scope : Scope) :
    (s.replace scope).chain = scope :: s.chain.tail := by
  obtain ⟨global, _ | ⟨first, rest⟩⟩ := s <;> rfl

theorem chain_eq (s : Scopes) : s.chain = s.current :: s.chain.tail := by
  obtain ⟨global, _ | ⟨first, rest⟩⟩ := s <;> rfl

@[simp]
theorem replace_current (s : Scopes) : s.replace s.current = s := by
  obtain ⟨global, _ | ⟨first, rest⟩⟩ := s <;> rfl

@[simp]
theorem current_replace (s : Scopes) (scope : Scope) : (s.replace scope).current = scope := by
  obtain ⟨global, _ | ⟨first, rest⟩⟩ := s <;> rfl

@[simp]
theorem replace_replace (s : Scopes) (scope scope' : Scope) :
    (s.replace scope).replace scope' = s.replace scope' := by
  obtain ⟨global, _ | ⟨first, rest⟩⟩ := s <;> rfl

@[simp]
theorem depth_replace (s : Scopes) (scope : Scope) : (s.replace scope).depth = s.depth := by
  obtain ⟨global, _ | ⟨first, rest⟩⟩ := s <;> rfl

/-- The innermost scope is left, whatever was added to it. -/
theorem truncate_replace_push (s : Scopes) (scope scope' : Scope) :
    ((s.push scope).replace scope').truncate s.depth = s := by
  obtain ⟨global, inner⟩ := s
  have hdrop : inner.length + 1 - (inner.length + 1 - 1) = 1 := by omega
  show (⟨global, (scope' :: inner).drop (inner.length + 1 - (inner.length + 1 - 1))⟩ : Scopes) = _
  rw [hdrop]
  rfl

/-- Names are defined in the innermost scope. -/
theorem define_effect (h : s.define name d span = .ok s') :
    ∃ scope, s.current.define name d span = .ok scope ∧ s' = s.replace scope := by
  obtain ⟨global, _ | ⟨first, rest⟩⟩ := s
  · simp only [define, defineGlobal, except_bind_eq_ok, except_pure_eq_ok] at h
    exact h
  · simp only [define, except_bind_eq_ok, except_pure_eq_ok] at h
    exact h

/-- What is found after a name is defined that is not an overload: the new meaning under this
name, and what was found before under others. -/
theorem find?_define (h : s.define name d span = .ok s') (hd : ∀ more, d ≠ .functions more)
    {other : String} :
    s'.find? other = if other = name then some ⟨d, span⟩ else s.find? other := by
  obtain ⟨scope, hscope, rfl⟩ := define_effect h
  unfold find?
  rw [chain_replace, s.chain_eq, List.findSome?_cons, List.findSome?_cons, List.tail_cons]
  by_cases hname : other = name
  · subst hname
    obtain ⟨e, rfl, ⟨_, rfl⟩ | ⟨_, more, _, _, hmore, _⟩⟩ := Scope.define_effect hscope
    · have hfind : Scope.find? { s.current with
          entries := s.current.entries.insert other ⟨d, span⟩ } other = some ⟨d, span⟩ :=
        Table.find?_insert_self ..
      rw [hfind, if_pos rfl]
    · exact absurd hmore (hd more)
  · rw [if_neg hname, Scope.find?_define_of_ne hscope (Ne.symm hname)]

/-- When a name gets a meaning of some sort, all names in the chain still have meanings of this
sort. -/
theorem all_define {P : Meaning → Prop} (hs : ∀ x ∈ s.chain, x.All P) (hd : P d)
    (hmerge : ∀ ids more, P (.functions ids) → P (.functions more) →
      P (.functions (Scope.mergeIds ids more)))
    (h : s.define name d span = .ok s') : ∀ x ∈ s'.chain, x.All P := by
  obtain ⟨scope, hscope, rfl⟩ := define_effect h
  rw [s.chain_eq] at hs
  obtain ⟨hcurrent, hrest⟩ := List.forall_mem_cons.mp hs
  rw [chain_replace]
  exact List.forall_mem_cons.mpr ⟨hcurrent.define hd hmerge hscope, hrest⟩

/-! ## What the scopes around a statement say -/

theorem function?_eq (s : Scopes) : s.function? = s.kinds.findSome? fun
    | .function name result => some ⟨name, result, none⟩
    | .method name result owner => some ⟨name, result, some owner⟩
    | _ => none := by
  unfold kinds function?
  rw [List.findSome?_map]
  rfl

theorem function?_congr (h : s'.kinds = s.kinds) : s'.function? = s.function? := by
  rw [function?_eq, function?_eq, h]

/-- Two chains of the same kinds are not told apart by what looks at the kinds alone. -/
theorem eq_of_kinds {α : Type} {f : List Scope → α}
    (hstep : ∀ {s t ss ts}, s.kind = t.kind → f ss = f ts → f (s :: ss) = f (t :: ts))
    {ss ts : List Scope} (h : ss.map (·.kind) = ts.map (·.kind)) : f ss = f ts := by
  induction ss generalizing ts with
  | nil =>
    cases ts with
    | nil => rfl
    | cons t ts => cases h
  | cons s ss ih =>
    cases ts with
    | nil => cases h
    | cons t ts =>
      injection h with hkind h
      exact hstep hkind (ih h)

theorem loop?_congr (h : s'.kinds = s.kinds) : s'.loop? = s.loop? :=
  eq_of_kinds (fun hkind hrest => by rw [loopIn?, loopIn?, hkind, hrest]) h

theorem case?_congr (h : s'.kinds = s.kinds) : s'.case? = s.case? :=
  eq_of_kinds (fun hkind hrest => by rw [caseIn?, caseIn?, hkind, hrest]) h

theorem kinds_replace {scope : Scope} (h : scope.kind = s.current.kind) :
    (s.replace scope).kinds = s.kinds := by
  unfold kinds
  rw [chain_replace, s.chain_eq, List.map_cons, List.map_cons, h, List.tail_cons]

theorem kinds_define (h : s.define name d span = .ok s') : s'.kinds = s.kinds := by
  obtain ⟨scope, hscope, rfl⟩ := define_effect h
  exact kinds_replace (Scope.kind_define hscope)

/-- Leaving the scopes that were entered. -/
theorem kinds_truncate {kind : ScopeKind} (h : s'.kinds = (s.enter kind).kinds) :
    (s'.truncate s.depth).kinds = s.kinds := by
  have hlength : s'.inner.length = s.inner.length + 1 := by
    have hsize := congrArg List.length h
    simp only [kinds, chain, enter, push, List.length_map, List.length_append, List.length_cons,
      List.length_nil] at hsize
    omega
  obtain ⟨global, inner⟩ := s'
  cases inner with
  | nil => cases hlength
  | cons first rest =>
    have hdrop : (first :: rest).length - (s.depth - 1) = 1 := by
      rw [hlength, depth]
      omega
    have htail := congrArg List.tail h
    unfold truncate
    dsimp only
    rw [hdrop]
    exact htail

end Scopes

end ClassLang
