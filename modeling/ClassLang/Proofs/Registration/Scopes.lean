import ClassLang.Proofs.Lowering.Scopes
import ClassLang.Proofs.Registration.Members

/-!
# What names stand for during registration

Registration makes names visible in the global scope and in the scopes of modules: natives,
classes, free functions and global variables. Template parameters are names as well, but only in
a scope of their own, which is gone when what they are needed for is resolved. So a name that is
visible outside of classes never stands for a template parameter, and inside of a class it does
only for one of that class.
-/

namespace ClassLang

open CompileM

/-! ## Growing registries -/

/-- Classes and functions stay registered, with their names. -/
structure Registry.Grows (r r' : Registry) : Prop where
  classes : ∀ {h k}, r.class? h = some k → ∃ k', r'.class? h = some k' ∧ k'.name = k.name
  functions : ∀ {id s}, r.function? id = some s → ∃ s', r'.function? id = some s' ∧
    s'.name = s.name ∧ s'.owner = s.owner

namespace Registry.Grows

theorem refl (r : Registry) : r.Grows r :=
  ⟨fun h => ⟨_, h, rfl⟩, fun h => ⟨_, h, rfl, rfl⟩⟩

theorem of_changes {β : Type} {touched : TypeHash → Prop} {π : Class → β} {r r' : Registry}
    (h : r.Changes touched π r') (g : β → String) (hg : ∀ c, c.name = g (π c)) : r.Grows r' where
  classes hk := by
    obtain ⟨k', hk', hname⟩ := (h.coarsen (φ := Class.name) g hg).exists_class hk
    exact ⟨k', hk', hname⟩
  functions {id s} hs := by
    refine ⟨s, ?_, rfl, rfl⟩
    unfold Registry.function? at hs ⊢
    rw [h.functions]
    exact hs

theorem of_adds {r r' : Registry} (h : Registration.AddsFunctions r r') : r.Grows r' where
  classes {_ k} hk := by
    obtain ⟨more, rfl⟩ := h
    exact ⟨k, hk, rfl⟩
  functions hs := ⟨_, h.function? hs, rfl, rfl⟩

/-- A class that was not registered is added. -/
theorem addClass {r : Registry} {k : Class} (hfree : r.class? k.hash = none) :
    r.Grows (r.addClass k) where
  classes {h c} hc := by
    refine ⟨c, ?_, rfl⟩
    rw [Registry.class?_addClass, if_neg]
    · exact hc
    · rintro rfl
      exact Option.some_ne_none _ (hc.symm.trans hfree)
  functions hs := ⟨_, hs, rfl, rfl⟩

end Registry.Grows

/-! ## Names outside of classes -/

/-- What a name may stand for outside of classes and functions; `V` says which variables there
are. -/
def Meaning.Outer (r : Registry) (V : Binding → Prop) (name : String) : Meaning → Prop
  | .variable b => V b
  | .functions ids => ids ≠ [] ∧ ∀ id ∈ ids, ∃ s, r.function? id = some s ∧ s.name = name ∧
    s.isMethod = false
  | .classOf h => ∃ k, r.class? h = some k ∧ k.name = name
  | .typeParam _ => False
  | .native _ | .intrinsic _ => True

theorem Meaning.Outer.mono {r r' : Registry} {V W : Binding → Prop} {name : String}
    (hr : r.Grows r') (hV : ∀ b, V b → W b) :
    ∀ {m : Meaning}, m.Outer r V name → m.Outer r' W name
  | .variable b, h => hV b h
  | .functions ids, h => by
    refine ⟨h.1, fun id hid => ?_⟩
    obtain ⟨s, hs, hname, hfree⟩ := h.2 id hid
    obtain ⟨s', hs', hname', howner⟩ := hr.functions hs
    refine ⟨s', hs', hname'.trans hname, ?_⟩
    rw [Signature.isMethod, howner]
    exact hfree
  | .classOf k, h => by
    obtain ⟨c, hc, hname⟩ := h
    obtain ⟨c', hc', hname'⟩ := hr.classes hc
    exact ⟨c', hc', hname'.trans hname⟩
  | .typeParam _, h => h
  | .native _, h => h
  | .intrinsic _, h => h

namespace Scope

/-- All names in a scope may be visible outside of classes. -/
def Outer (r : Registry) (V : Binding → Prop) (s : Scope) : Prop :=
  ∀ name e, s.find? name = some e → e.meaning.Outer r V name

variable {r : Registry} {V : Binding → Prop}

theorem outer_opened (kind : ScopeKind) : (opened kind).Outer r V := by
  intro name e h
  cases h

theorem mem_mergeIds {id : Nat} {ids more : List Nat} :
    id ∈ mergeIds ids more ↔ id ∈ ids ∨ id ∈ more := by
  unfold mergeIds
  induction more generalizing ids with
  | nil => simp
  | cons a more ih =>
    rw [List.foldl_cons, ih]
    split
    · rename_i hin
      have hin := List.contains_iff_mem.mp hin
      constructor
      · exact Or.imp_right (List.mem_cons_of_mem _)
      · rintro (h | h)
        · exact .inl h
        · rcases List.mem_cons.mp h with rfl | h
          · exact .inl hin
          · exact .inr h
    · simp [or_assoc]

theorem Outer.define {s s' : Scope} (hs : s.Outer r V) {name : String} {d : Meaning} {span : Span}
    (hd : d.Outer r V name) (h : s.define name d span = .ok s') : s'.Outer r V := by
  -- The new entry is allowed, and all others are the old ones.
  have hinsert : ∀ e : Entry, e.meaning.Outer r V name →
      ({ s with entries := s.entries.insert name e } : Scope).Outer r V := by
    intro e he n e' hn
    by_cases hname : name = n
    · subst hname
      have hn : some e = some e' := (Table.find?_insert_self ..).symm.trans hn
      injection hn with hn
      exact hn ▸ he
    · exact hs n e' ((Table.find?_insert_of_ne _ hname _).symm.trans hn)
  unfold Scope.define at h
  split at h
  · injection h with h
    exact h ▸ hinsert _ hd
  · rename_i ids first more heq
    injection h with h
    obtain ⟨hne, hids⟩ := hs _ _ heq
    obtain ⟨_, hmore⟩ := hd
    refine h ▸ hinsert _ ⟨?_, fun id hid => ?_⟩
    · obtain ⟨id, hid⟩ := List.exists_mem_of_ne_nil _ hne
      exact List.ne_nil_of_mem (mem_mergeIds.mpr (.inl hid))
    · exact (mem_mergeIds.mp hid).elim (hids id) (hmore id)
  · cases h

end Scope

namespace Scopes

variable {r : Registry} {V : Binding → Prop} {s s' : Scopes} {name : String} {d : Meaning}
  {span : Span}

theorem mem_chain {s : Scopes} {x : Scope} : x ∈ s.chain ↔ x ∈ s.inner ∨ x = s.global := by
  rw [chain, List.mem_append, List.mem_singleton]

theorem outer_defineGlobal (hs : ∀ x ∈ s.chain, x.Outer r V) (hd : d.Outer r V name)
    (h : s.defineGlobal name d span = .ok s') : ∀ x ∈ s'.chain, x.Outer r V := by
  simp only [defineGlobal, except_bind_eq_ok, except_pure_eq_ok] at h
  obtain ⟨g, hg, rfl⟩ := h
  intro x hx
  rcases mem_chain.mp hx with hx | rfl
  · exact hs x (mem_chain.mpr (.inl hx))
  · exact (hs _ (mem_chain.mpr (.inr rfl))).define hd hg

theorem outer_define (hs : ∀ x ∈ s.chain, x.Outer r V) (hd : d.Outer r V name)
    (h : s.define name d span = .ok s') : ∀ x ∈ s'.chain, x.Outer r V := by
  unfold define at h
  split at h
  · exact outer_defineGlobal hs hd h
  · rename_i first rest hinner
    simp only [except_bind_eq_ok, except_pure_eq_ok] at h
    obtain ⟨first', hfirst, rfl⟩ := h
    intro x hx
    rcases mem_chain.mp hx with hx | rfl
    · rcases List.mem_cons.mp hx with rfl | hx
      · exact (hs first (mem_chain.mpr (.inl (hinner ▸ List.mem_cons_self)))).define hd hfirst
      · exact hs x (mem_chain.mpr (.inl (hinner ▸ List.mem_cons_of_mem _ hx)))
    · exact hs _ (mem_chain.mpr (.inr rfl))

theorem mem_chain_truncate {n : Nat} {x : Scope} (h : x ∈ (s.truncate n).chain) : x ∈ s.chain := by
  rcases mem_chain.mp h with hx | rfl
  · exact mem_chain.mpr (.inl (List.mem_of_mem_drop hx))
  · exact mem_chain.mpr (.inr rfl)

/-- Leaving a scope takes it out of the chain. -/
theorem mem_chain_of_pop {scope : Scope} (h : s.pop = .ok (scope, s')) :
    scope ∈ s.chain ∧ ∀ x ∈ s'.chain, x ∈ s.chain := by
  rw [pop_eq] at h
  split at h
  · cases h
  · rename_i first rest hinner
    injection h with h
    injection h with hfirst hrest
    subst hfirst hrest
    refine ⟨mem_chain.mpr (.inl (hinner ▸ List.mem_cons_self)), fun x hx => ?_⟩
    rcases mem_chain.mp hx with hx | rfl
    · exact mem_chain.mpr (.inl (hinner ▸ List.mem_cons_of_mem _ hx))
    · exact mem_chain.mpr (.inr rfl)

theorem exists_mem_of_find? {e : Entry} (h : s.find? name = some e) :
    ∃ x ∈ s.chain, x.find? name = some e := List.exists_of_findSome?_eq_some h

end Scopes

/-- All names that are visible, here or in a module, may be visible outside of classes. -/
structure Compilation.Outer (V : Binding → Prop) (c : Compilation) : Prop where
  scopes : ∀ x ∈ c.scopes.chain, x.Outer c.registry V
  modules : ∀ path x, c.moduleScopes.find? path = some x → x.Outer c.registry V

/-- The scope of a module as it was left, or an empty one. -/
def Compilation.moduleScope (c : Compilation) (path : String) : Scope :=
  (c.moduleScopes.find? path).getD (.opened (.module path))

/-- The state in which the body of a step in a module runs. -/
def Compilation.entered (c : Compilation) (path : String) : Compilation :=
  { c with
    scopes := c.scopes.push ((c.moduleScopes.find? path).getD (.opened (.module path)))
    path := path }

namespace Compilation

variable {V W : Binding → Prop} {c c' : Compilation}

/-- What is visible may stay so when the registry grows. -/
theorem Outer.mono (h : Outer V c) (hV : ∀ b, V b → W b) (hscopes : c'.scopes = c.scopes)
    (hmodules : c'.moduleScopes = c.moduleScopes) (hr : c.registry.Grows c'.registry) :
    Outer W c' where
  scopes x hx name e he := .mono hr hV (h.scopes x (hscopes ▸ hx) name e he)
  modules path x hx name e he := .mono hr hV (h.modules path x (hmodules ▸ hx) name e he)

theorem Outer.of_context (h : Outer V c) (hc : c'.context = c.context) : Outer V c' := by
  have hscopes := congrArg Compilation.scopes hc
  have hmodules := congrArg Compilation.moduleScopes hc
  have hregistry := congrArg Compilation.registry hc
  dsimp only [context] at hscopes hmodules hregistry
  exact h.mono (fun _ => id) hscopes hmodules (hregistry ▸ .refl _)

theorem Outer.find? (h : Outer V c) {name : String} {e : Entry}
    (he : c.scopes.find? name = some e) : e.meaning.Outer c.registry V name := by
  obtain ⟨x, hx, hfind⟩ := Scopes.exists_mem_of_find? he
  exact h.scopes x hx name e hfind

theorem Outer.entered (h : Outer V c) (path : String) : Outer V (c.entered path) where
  scopes x hx := by
    rcases Scopes.mem_chain.mp hx with hx | rfl
    · rcases List.mem_cons.mp hx with rfl | hx
      · cases hfind : c.moduleScopes.find? path with
        | none => exact Scope.outer_opened _
        | some x => exact h.modules path x hfind
      · exact h.scopes x (Scopes.mem_chain.mpr (.inl hx))
    · exact h.scopes _ (Scopes.mem_chain.mpr (.inr rfl))
  modules := h.modules

end Compilation

/-! ## Steps -/

variable {α : Type} {V W : Binding → Prop}

/-- A step in a module: its body runs in the entered module, and the innermost scope that is left
is that of the module. -/
theorem inModule_spec {path : String} {body : CompileM α} {c c' : Compilation} {a : α}
    (h : Yields (inModule path body) c a c') :
    ∃ c₁ scope scopes, Yields body (c.entered path) a c₁ ∧
      (c₁.scopes.truncate (c.scopes.depth + 1)).pop = .ok (scope, scopes) ∧
      c' = { c₁ with
        scopes := scopes
        moduleScopes := c₁.moduleScopes.insert path scope
        path := c.path } :=
  yields_inModule h

/-- What is visible at the end of a step in a module is all that is visible after it. -/
theorem Compilation.Outer.left {c : Compilation} (hc : c.Outer V) {n : Nat} {scope : Scope}
    {scopes : Scopes} (path before : String)
    (hpop : (c.scopes.truncate n).pop = .ok (scope, scopes)) :
    Compilation.Outer V { c with
      scopes := scopes
      moduleScopes := c.moduleScopes.insert path scope
      path := before } := by
  obtain ⟨hscope, hscopes⟩ := Scopes.mem_chain_of_pop hpop
  refine ⟨fun x hx => hc.scopes x (Scopes.mem_chain_truncate (hscopes x hx)), ?_⟩
  intro p x hx
  by_cases hp : path = p
  · subst hp
    have hx : some scope = some x := (Table.find?_insert_self ..).symm.trans hx
    injection hx with hx
    exact hx ▸ hc.scopes _ (Scopes.mem_chain_truncate hscope)
  · exact hc.modules p x ((Table.find?_insert_of_ne _ hp _).symm.trans hx)

/-- Names stand for what they may outside of classes, and checks of bounds are put off, or not. -/
def Compilation.Outside (V : Binding → Prop) (b : Bool) (c : Compilation) : Prop :=
  c.Outer V ∧ c.deferring = b

theorem outside_define {name : String} {d : Meaning} {span : Span} {b : Bool}
    {c c' : Compilation} {u : Unit} (hc : c.Outside V b) (hd : d.Outer c.registry V name)
    (h : Yields (define name d span) c u c') : c'.Outside V b := by
  rw [yields_define] at h
  obtain ⟨s, hs, rfl⟩ := h
  exact ⟨⟨Scopes.outer_define hc.1.scopes hd hs, hc.1.modules⟩, hc.2⟩

theorem outside_defineTopLevel {name : String} {d : Meaning} {span : Span} {b : Bool}
    {c c' : Compilation} {u : Unit} (hc : c.Outside V b) (hd : d.Outer c.registry V name)
    (h : Yields (defineTopLevel name d span) c u c') : c'.Outside V b := by
  simp only [defineTopLevel, yields_bind, yields_define, yields_updateScopes] at h
  obtain ⟨_, _, ⟨s, hs, rfl⟩, s', hs', rfl⟩ := h
  exact ⟨⟨Scopes.outer_defineGlobal (Scopes.outer_define hc.1.scopes hd hs) hd hs', hc.1.modules⟩,
    hc.2⟩

/-! ## Inside of a class -/

/-- A template parameter becomes visible in the innermost scope, where its name was free. -/
theorem defineTemplate_spec {p : TemplateParam} {span : Span} {inner : List Scope}
    {c c' : Compilation} {u : Unit} {x : Scope} (hx : c.scopes.inner = x :: inner)
    (h : Yields (define p.name (.typeParam (.param p.name p.bound)) span) c u c') :
    ∃ y : Scope, c' = { c with scopes := { c.scopes with inner := y :: inner } } ∧
      x.find? p.name = none ∧ (∀ n, p.name ≠ n → y.find? n = x.find? n) ∧
      ∃ e, y.find? p.name = some e ∧ e.meaning = .typeParam (.param p.name p.bound) := by
  rw [yields_define] at h
  obtain ⟨s, hs, rfl⟩ := h
  unfold Scopes.define at hs
  rw [hx] at hs
  simp only [except_bind_eq_ok, except_pure_eq_ok] at hs
  obtain ⟨y, hy, rfl⟩ := hs
  obtain ⟨e, rfl, ⟨hfree, rfl⟩ | ⟨_, _, _, _, hfunctions, _⟩⟩ := Scope.define_effect hy
  · exact ⟨_, rfl, hfree, fun n hn => Table.find?_insert_of_ne _ hn _, _,
      Table.find?_insert_self .., rfl⟩
  · cases hfunctions

/-- The template parameters of a class become visible in the innermost scope, which hides nothing
else; they have different names. -/
theorem defineTemplates_spec {ps : List TemplateParam} {span : Span} {inner : List Scope} :
    ∀ {c c' : Compilation} {u : Unit} {x : Scope}, c.scopes.inner = x :: inner →
      Yields (ps.forM fun p => define p.name (.typeParam (.param p.name p.bound)) span) c u c' →
      ∃ x' : Scope, c' = { c with scopes := { c.scopes with inner := x' :: inner } } ∧
        (ps.map (·.name)).Nodup ∧ (∀ p ∈ ps, x.find? p.name = none) ∧
        (∀ n, (∀ p ∈ ps, p.name ≠ n) → x'.find? n = x.find? n) ∧
        ∀ p ∈ ps, ∃ e, x'.find? p.name = some e ∧
          e.meaning = .typeParam (.param p.name p.bound) := by
  induction ps with
  | nil =>
    intro c c' u x hx h
    rw [yields_forM_nil] at h
    refine ⟨x, ?_, List.nodup_nil, List.forall_mem_nil _, fun n _ => rfl, List.forall_mem_nil _⟩
    rw [h, ← hx]
  | cons p ps ih =>
    intro c c' u x hx h
    rw [yields_forM_cons] at h
    obtain ⟨_, c₁, hp, hps⟩ := h
    obtain ⟨y, rfl, hfree, hother, entry, hself, hmeaning⟩ := defineTemplate_spec hx hp
    obtain ⟨x', rfl, hnodup, hnew, hkept, hfound⟩ := ih rfl hps
    -- A second parameter of this name would not have found the name free.
    have hdistinct : ∀ q ∈ ps, p.name ≠ q.name := by
      intro q hq heq
      have hnone := hnew q hq
      rw [← heq, hself] at hnone
      cases hnone
    refine ⟨x', rfl, ?_, ?_, ?_, ?_⟩
    · refine List.nodup_cons.mpr ⟨?_, hnodup⟩
      intro hmem
      obtain ⟨q, hq, heq⟩ := List.mem_map.mp hmem
      exact hdistinct q hq heq.symm
    · refine List.forall_mem_cons.mpr ⟨hfree, fun q hq => ?_⟩
      rw [← hother q.name (hdistinct q hq)]
      exact hnew q hq
    · intro n hn
      obtain ⟨hp, hps⟩ := List.forall_mem_cons.mp hn
      rw [hkept n hps, hother n hp]
    · refine List.forall_mem_cons.mpr ⟨⟨entry, ?_, hmeaning⟩, hfound⟩
      rw [hkept p.name fun q hq => (hdistinct q hq).symm, hself]

/-- What a step in a class that leaves the context alone finds: the template parameters of the
class, which have different names, and what was visible before. -/
theorem inClass_spec {hash : TypeHash} {body : CompileM α}
    [Keeps Compilation.context body] {c c' : Compilation} {a : α}
    (h : Yields (Lowering.inClass hash body) c a c') :
    c'.context = c.context ∧ ∃ k c₀ c₁, c.registry.class? hash = some k ∧
      (k.templates.map (·.name)).Nodup ∧ Yields body c₀ a c₁ ∧ c₀.registry = c.registry ∧
      c₀.deferring = c.deferring ∧ c₀.deferred = c.deferred ∧ c'.deferred = c₁.deferred ∧
      ∀ n e, c₀.scopes.find? n = some e →
        (c.scopes.find? n = some e ∧ ∀ p ∈ k.templates, p.name ≠ n) ∨
        ∃ p ∈ k.templates, p.name = n ∧ e.meaning = .typeParam (.param p.name p.bound) := by
  unfold Lowering.inClass at h
  obtain ⟨c₁, frame, hbody, _, rfl⟩ := yields_inScope h
  simp only [yields_bind, Lowering.defineTemplates, yields_askRegistry,
    Registry.getClass_eq_ok] at hbody
  obtain ⟨_, c₀, ⟨k, _, ⟨hk, rfl⟩, htemplates⟩, hbody⟩ := hbody
  obtain ⟨x, rfl, hnodup, _, hkept, hfound⟩ := defineTemplates_spec rfl htemplates
  have hcontext := hbody.keeps (f := Compilation.context)
  have hscopes := congrArg Compilation.scopes hcontext
  dsimp only [Compilation.context] at hscopes
  refine ⟨?_, k, _, c₁, hk, hnodup, hbody, rfl, rfl, rfl, rfl, ?_⟩
  · -- Only the scope that was opened is left.
    have hclose : (c₁.scopes.truncate c.scopes.depth) = c.scopes := by
      rw [hscopes]
      unfold Scopes.truncate Scopes.depth
      simp [Scopes.enter, Scopes.push]
    have hrest := congrArg (fun k : Compilation => { k with scopes := c.scopes }) hcontext
    show { c₁.context with scopes := c₁.scopes.truncate c.scopes.depth } = c.context
    rw [hclose]
    exact hrest
  · intro n e he
    unfold Scopes.find? Scopes.chain at he
    rw [List.cons_append, List.findSome?_cons] at he
    -- A parameter hides what had its name outside of the class.
    by_cases hn : ∃ p ∈ k.templates, p.name = n
    · obtain ⟨p, hp, rfl⟩ := hn
      obtain ⟨e', he', hmeaning⟩ := hfound p hp
      rw [he'] at he
      injection he with he
      exact .inr ⟨p, hp, rfl, he ▸ hmeaning⟩
    · have hn : ∀ p ∈ k.templates, p.name ≠ n := fun p hp heq => hn ⟨p, hp, heq⟩
      rw [hkept n hn] at he
      exact .inl ⟨he, hn⟩

end ClassLang
