import ClassLang.Proofs.Registration.Resolution
import ClassLang.Proofs.Safety.Modules

/-!
# What a step of registration can see

When the same things are declared in another order, classes get other tags, tables are filled in
another order, and a name may have been defined elsewhere first. A view of a state leaves all this
out: it says what is known about each class, and what each name stands for at each place. What a
written type becomes depends on nothing but the view, and on the way nothing changes but that checks
may be put off. Even of a class not everything has to be in view; its bases play no part.
-/

namespace ClassLang

open CompileM Lowering

/-! ## Views -/

/-- What a name stands for in a scope, wherever it was defined. -/
def Scope.meaning? (s : Scope) (name : String) : Option Meaning := (s.find? name).map (·.meaning)

/-- What a state looks like; a name outside of classes is visible everywhere or in one module. -/
structure View where
  classes : TypeHash → Option Class
  pointerSize : Nat
  names : Option String × String → Option Meaning
  inner : List (String → Option Meaning)
  path : String
  deferring : Bool

namespace Compilation

/-- What names stand for outside of classes. -/
def names (c : Compilation) : Option String × String → Option Meaning
  | (none, name) => c.scopes.global.meaning? name
  | (some path, name) => (c.moduleScope path).meaning? name

/-- What a state looks like if `π` is what is seen of a class. -/
def view (π : Class → Class) (c : Compilation) : View where
  classes h := (c.registry.class? h).map π
  pointerSize := c.registry.pointerSize
  names := c.names
  inner := c.scopes.inner.map Scope.meaning?
  path := c.path
  deferring := c.deferring

end Compilation

/-- A class without its tag. -/
def Class.untagged (k : Class) : Class := { k with id := 0 }

/-- A class without its tag and its bases. -/
def Class.baseless (k : Class) : Class := { k with id := 0, bases := [] }

section View

variable {π : Class → Class} {c d : Compilation}

/-- A class that is registered in one of two states that look the same is in the other, and looks
the same there. -/
theorem exists_class_of_view (h : d.view π = c.view π) {x : TypeHash} {k : Class}
    (hk : c.registry.class? x = some k) : ∃ k', d.registry.class? x = some k' ∧ π k' = π k := by
  have hx := congrFun (congrArg View.classes h) x
  dsimp only [Compilation.view] at hx
  rw [hk, Option.map_some, Option.map_eq_some_iff] at hx
  exact hx

theorem find?_of_view (h : d.view π = c.view π) (name : String) :
    (d.scopes.find? name).map (·.meaning) = (c.scopes.find? name).map (·.meaning) := by
  have hfind : ∀ s : Scopes, (s.find? name).map (·.meaning) =
      (s.inner.map Scope.meaning? ++ [s.global.meaning?]).findSome? (· name) := by
    intro s
    have hchain : s.inner.map Scope.meaning? ++ [s.global.meaning?] =
        s.chain.map Scope.meaning? := by
      rw [Scopes.chain, List.map_append]
      rfl
    rw [Scopes.find?, List.map_findSome?, hchain, List.findSome?_map]
    rfl
  have hinner := congrArg View.inner h
  have hglobal : d.scopes.global.meaning? = c.scopes.global.meaning? :=
    funext fun name => congrFun (congrArg View.names h) (none, name)
  dsimp only [Compilation.view] at hinner
  rw [hfind, hfind, hinner, hglobal]

end View

/-! ## Resolving -/

/-- The step does the same in states that look the same, and all that it changes is that it may put
checks off. -/
class Resolves (π : Class → Class) {α : Type} (m : CompileM α) : Prop where
  same : ∀ {c d : Compilation} {a : α} {c' : Compilation}, d.view π = c.view π → Yields m c a c' →
    ∃ checks, c' = { c with deferred := c.deferred ++ checks } ∧
      Yields m d a { d with deferred := d.deferred ++ checks }

namespace Resolves

variable {π : Class → Class} {α β : Type}

instance pure (a : α) : Resolves π (pure a : CompileM α) where
  same {c d a c'} _ h := by
    obtain ⟨rfl, rfl⟩ := yields_pure.mp h
    exact ⟨[], by rw [List.append_nil], yields_pure.mpr ⟨rfl, by rw [List.append_nil]⟩⟩

instance fail (cause : Cause) (span : Span) : Resolves π (CompileM.fail cause span : CompileM α) where
  same _ h := (yields_fail.mp h).elim

instance bind (m : CompileM α) (f : α → CompileM β) [hm : Resolves π m] [hf : ∀ a, Resolves π (f a)] :
    Resolves π (m >>= f) where
  same {c d b c'} hview h := by
    obtain ⟨a, c₁, h₁, h₂⟩ := yields_bind.mp h
    obtain ⟨xs, rfl, hd₁⟩ := hm.same hview h₁
    have hview' : ({ d with deferred := d.deferred ++ xs } : Compilation).view π =
        ({ c with deferred := c.deferred ++ xs } : Compilation).view π := hview
    obtain ⟨ys, rfl, hd₂⟩ := (hf a).same hview' h₂
    refine ⟨xs ++ ys, by rw [List.append_assoc], yields_bind.mpr ⟨a, _, hd₁, ?_⟩⟩
    rw [← List.append_assoc]
    exact hd₂

instance ite (p : Prop) [Decidable p] (m n : CompileM α) [Resolves π m] [Resolves π n] :
    Resolves π (if p then m else n) := by
  split <;> infer_instance

instance mapM (f : α → CompileM β) (xs : List α) [hf : ∀ x, Resolves π (f x)] :
    Resolves π (xs.mapM f) := by
  induction xs with
  | nil =>
    rw [List.mapM_nil]
    infer_instance
  | cons x xs ih =>
    rw [List.mapM_cons]
    infer_instance

/-- A step that begins with a look at the state, of which it uses only what is seen. -/
theorem of_get {f : Compilation → CompileM α} [hsame : ∀ c, Resolves π (f c)]
    (hf : ∀ {c d : Compilation}, d.view π = c.view π → f d = f c) : Resolves π (get >>= f) where
  same {c d a c'} hview h := by
    obtain ⟨_, _, hget, hrest⟩ := yields_bind.mp h
    obtain ⟨rfl, rfl⟩ := yields_get.mp hget
    obtain ⟨checks, hc, hd⟩ := (hsame _).same hview hrest
    exact ⟨checks, hc, yields_bind.mpr ⟨d, d, yields_get.mpr ⟨rfl, rfl⟩, hf hview ▸ hd⟩⟩

/-- A step that begins by looking a class up, of which it uses only what is seen. -/
theorem of_getClass {hash : TypeHash} {f : Class → CompileM α}
    (hf : ∀ k k', π k' = π k → f k' = f k) [hsame : ∀ k, Resolves π (f k)] :
    Resolves π (askRegistry (·.getClass hash) >>= f) where
  same {c d a c'} hview h := by
    obtain ⟨k, c₁, hget, hrest⟩ := yields_bind.mp h
    obtain ⟨hk, hc₁⟩ := yields_askRegistry.mp hget
    obtain ⟨k', hk', hπ⟩ := exists_class_of_view hview (Registry.getClass_eq_ok.mp hk)
    obtain ⟨checks, hc, hd⟩ := (hsame k).same hview (hc₁ ▸ hrest)
    refine ⟨checks, hc, yields_bind.mpr ⟨k', d, ?_, hf k k' hπ ▸ hd⟩⟩
    exact yields_askRegistry.mpr ⟨Registry.getClass_eq_ok.mpr hk', rfl⟩

/-- Types are spelled only in messages. -/
instance fail_typeName (t : Ty) (g : String → Cause) (span : Span) :
    Resolves π (typeName t >>= fun s => CompileM.fail (g s) span : CompileM α) where
  same _ h := by
    obtain ⟨_, _, _, hfail⟩ := yields_bind.mp h
    exact (yields_fail.mp hfail).elim

instance meaning? (name : String) : Resolves π (meaning? name) :=
  of_get fun hview => congrArg Pure.pure (find?_of_view hview name)

/-- A bound is checked against what is known about classes, and that is the same. -/
instance checkBound (check : BoundCheck) : Resolves Class.baseless (checkBound check) where
  same {c d a c'} hview h := by
    have hdistance := Registry.upcastDistance?_congr_of (π := Class.baseless)
      (congrFun (congrArg View.classes hview)) (fun _ => rfl) (fun _ => rfl) check.arg check.bound
    simp only [Lowering.checkBound, yields_bind, yields_get, and_assoc, exists_and_left,
      exists_eq_left] at h ⊢
    split at h
    · exact (yields_fail.mp h).elim
    · rename_i hpass
      obtain ⟨rfl, rfl⟩ := yields_pure.mp h
      refine ⟨[], by rw [List.append_nil], ?_⟩
      rw [if_neg (hdistance.symm ▸ hpass), List.append_nil]
      exact yields_pure.mpr ⟨rfl, rfl⟩

instance putOff (check : BoundCheck) : Resolves π
    (modify fun s => { s with deferred := s.deferred ++ [check] } : CompileM PUnit) where
  same _ h := ⟨[check], yields_modify.mp h, yields_modify.mpr rfl⟩

instance checkOrDefer (check : BoundCheck) : Resolves Class.baseless (checkOrDefer check) :=
  of_get fun {c d} hview => by
    have hdefer : d.deferring = c.deferring := (congrArg View.deferring hview :)
    rw [hdefer]

end Resolves

/-! ## Types -/

mutual

instance resolves_resolveType : ∀ e : TypeExpr, Resolves Class.baseless (resolveType e)
  | .named name args span => by
    unfold resolveType
    split
    · infer_instance
    · refine @Resolves.bind _ _ _ _ _ _ fun m => ?_
      split
      · rename_i hash
        have hargs := fun k : Class => resolves_resolveArgs k.name k.templates args
        refine @Resolves.ite _ _ _ _ _ _ _ ?_
        refine .of_getClass fun k k' hk => ?_
        have hname : k'.name = k.name := (congrArg Class.name hk :)
        have htemplates : k'.templates = k.templates := (congrArg Class.templates hk :)
        rw [hname, htemplates]
      · infer_instance
      · infer_instance
      · infer_instance
  | .pointer inner _ => by
    have := resolves_resolveType inner
    unfold resolveType
    infer_instance
  | .array inner _ => by
    have := resolves_resolveType inner
    unfold resolveType
    infer_instance
  | .function params result _ => by
    have := resolves_resolveTypes params
    have := resolves_resolveType result
    unfold resolveType
    infer_instance

instance resolves_resolveTypes : ∀ es : List TypeExpr, Resolves Class.baseless (resolveTypes es)
  | [] => by
    unfold resolveTypes
    infer_instance
  | e :: es => by
    have := resolves_resolveType e
    have := resolves_resolveTypes es
    unfold resolveTypes
    infer_instance

instance resolves_resolveArgs (owner : String) : ∀ (ps : List TemplateParam) (es : List TypeExpr),
    Resolves Class.baseless (resolveArgs owner ps es)
  | [], es => by
    unfold resolveArgs
    infer_instance
  | _ :: _, [] => by
    unfold resolveArgs
    infer_instance
  | p :: ps, e :: es => by
    have := resolves_resolveType e
    have := resolves_resolveArgs owner ps es
    unfold resolveArgs
    refine @Resolves.bind _ _ _ _ _ _ fun arg => ?_
    refine .of_get fun {c d} hview => ?_
    have hpath : d.path = c.path := (congrArg View.path hview :)
    rw [hpath]

end

instance (e : TypeExpr) : Resolves Class.baseless (resolveClass e) := by
  unfold resolveClass
  infer_instance

instance (t : Ty) (span : Span) : Resolves Class.baseless (requireConcrete t span) := by
  unfold requireConcrete
  refine @Resolves.ite _ _ _ _ _ _ ?_ _
  split
  · refine .of_getClass fun k k' hk => ?_
    have hname : k'.name = k.name := (congrArg Class.name hk :)
    have habstract : k'.isAbstract = k.isAbstract := (congrArg Class.isAbstract hk :)
    rw [hname, habstract]
  · infer_instance

instance (t : Ty) (name : String) (span : Span) :
    Resolves Class.baseless (Registration.requireStorable t name span) := by
  unfold Registration.requireStorable
  split <;> infer_instance

instance (f : FieldDecl) : Resolves Class.baseless (Registration.resolveField f) := by
  unfold Registration.resolveField
  infer_instance

/-! ## Bounds of template parameters -/

/-- Whether a written type is a class without arguments depends on names alone. -/
theorem resolveType_classRef {π : Class → Class} {e : TypeExpr} {c d c' : Compilation}
    {hash : TypeHash} (hview : d.view π = c.view π)
    (h : Yields (resolveType e) c (.classRef hash) c') :
    c' = c ∧ Yields (resolveType e) d (.classRef hash) d := by
  cases e with
  | named name args span =>
    unfold resolveType at h ⊢
    split at h
    · split at h
      · cases (yields_pure.mp h).1
      · exact (yields_fail.mp h).elim
    · simp only [yields_bind, Lowering.meaning?, yields_get, yields_pure, and_assoc,
        exists_and_left, exists_eq_left] at h ⊢
      rw [find?_of_view hview name]
      split at h
      · split at h
        · rename_i hargs
          obtain ⟨hash, rfl⟩ := yields_pure.mp h
          rw [if_pos hargs]
          exact ⟨rfl, yields_pure.mpr ⟨hash, rfl⟩⟩
        · simp only [yields_bind] at h
          obtain ⟨k, c₁, _, h⟩ := h
          split at h
          · simp at h
          · simp only [yields_bind, yields_pure] at h
            obtain ⟨_, _, _, heq, _⟩ := h
            cases heq
      · split at h
        · rename_i hargs
          obtain ⟨hash, rfl⟩ := yields_pure.mp h
          rw [if_pos hargs]
          exact ⟨rfl, yields_pure.mpr ⟨hash, rfl⟩⟩
        · exact (yields_fail.mp h).elim
      · exact (yields_fail.mp h).elim
      · exact (yields_fail.mp h).elim
  -- No other form of type is a class.
  | pointer inner span =>
    simp only [resolveType, yields_bind, yields_pure] at h
    obtain ⟨_, _, _, heq, _⟩ := h
    cases heq
  | array inner span =>
    simp only [resolveType, yields_bind, yields_pure] at h
    obtain ⟨_, _, _, heq, _⟩ := h
    cases heq
  | function params result span =>
    simp only [resolveType, yields_bind, yields_pure] at h
    obtain ⟨_, _, _, _, _, _, heq, _⟩ := h
    cases heq

/-- So no template parameter depends on the headers of classes. -/
instance (π : Class → Class) (t : TemplateDecl) : Resolves π (Registration.templateParam t) where
  same {c d a c'} hview h := by
    unfold Registration.templateParam at h ⊢
    cases hbound : t.bound with
    | none =>
      rw [hbound] at h
      exact Resolves.same hview h
    | some e =>
      simp only [hbound, resolveClass, yields_bind] at h ⊢
      obtain ⟨type, c₁, ⟨u, c₂, hu, htype⟩, h⟩ := h
      split at htype
      · rename_i hclass
        obtain ⟨rfl, rfl⟩ := yields_pure.mp htype
        split at h
        · rename_i hash
          obtain ⟨rfl, rfl⟩ := yields_pure.mp h
          obtain ⟨rfl, hd⟩ := resolveType_classRef hview hu
          refine ⟨[], by rw [List.append_nil], .classRef hash, d, ⟨_, d, hd, ?_⟩, ?_⟩
          · rw [if_pos hclass]
            exact yields_pure.mpr ⟨rfl, rfl⟩
          · rw [List.append_nil]
            exact yields_pure.mpr ⟨rfl, rfl⟩
        · simp at h
      · simp at htype

/-! ## Names that are added -/

/-- The scope with one more name. -/
def Scope.plus (s : Scope) (name : String) (e : Entry) : Scope :=
  { s with entries := s.entries.insert name e }

theorem Scope.meaning?_plus {s : Scope} {name other : String} {e : Entry} :
    (s.plus name e).meaning? other = if other = name then some e.meaning else s.meaning? other := by
  unfold plus meaning? find?
  split
  · rename_i heq
    rw [heq, Table.find?_insert_self]
    rfl
  · rename_i hne
    rw [Table.find?_insert_of_ne _ (Ne.symm hne)]

theorem Scope.define_eq_ok {s s' : Scope} {name : String} {m : Meaning} {span : Span}
    (hm : ∀ ids, m ≠ .functions ids) :
    s.define name m span = .ok s' ↔ s.meaning? name = none ∧ s' = s.plus name ⟨m, span⟩ := by
  constructor
  · intro h
    obtain ⟨_, rfl, ⟨hnone, rfl⟩ | ⟨_, more, _, _, hmore, _⟩⟩ := define_effect h
    · exact ⟨Option.map_eq_none_iff.mpr hnone, rfl⟩
    · exact absurd hmore (hm more)
  · rintro ⟨hnone, rfl⟩
    unfold define
    rw [Option.map_eq_none_iff.mp hnone]
    rfl

theorem Scopes.define_eq {s : Scopes} {name : String} {m : Meaning} {span : Span} :
    s.define name m span = (s.current.define name m span).map s.replace := by
  obtain ⟨global, _ | ⟨first, rest⟩⟩ := s
  · show Scopes.defineGlobal _ _ _ _ = _
    unfold defineGlobal current
    dsimp only [List.head?_nil, Option.getD_none]
    cases global.define name m span <;> rfl
  · unfold define current
    dsimp only [List.head?_cons, Option.getD_some]
    cases first.define name m span <;> rfl

/-- A name that is no overload is defined where it has no meaning yet. -/
theorem yields_define_iff {name : String} {m : Meaning} {span : Span} {c c' : Compilation} {u : Unit}
    (hm : ∀ ids, m ≠ .functions ids) :
    Yields (define name m span) c u c' ↔ c.scopes.current.meaning? name = none ∧
      c' = { c with scopes := c.scopes.replace (c.scopes.current.plus name ⟨m, span⟩) } := by
  have hscopes : ∀ s, c.scopes.define name m span = .ok s ↔ c.scopes.current.meaning? name = none ∧
      s = c.scopes.replace (c.scopes.current.plus name ⟨m, span⟩) := by
    intro s
    rw [Scopes.define_eq]
    cases hdefine : c.scopes.current.define name m span with
    | error e =>
      refine ⟨nofun, fun ⟨hnone, _⟩ => ?_⟩
      rw [(Scope.define_eq_ok hm).mpr ⟨hnone, rfl⟩] at hdefine
      cases hdefine
    | ok scope =>
      obtain ⟨hnone, rfl⟩ := (Scope.define_eq_ok hm).mp hdefine
      simp [Except.map, hnone, eq_comm]
  simp only [yields_define, hscopes, and_assoc, exists_and_left, exists_eq_left]

theorem current_of_view {π : Class → Class} {c d : Compilation} (h : d.view π = c.view π) :
    d.scopes.current.meaning? = c.scopes.current.meaning? := by
  have hcurrent : ∀ c : Compilation, c.scopes.current.meaning? =
      (c.view π).inner.head?.getD fun name => (c.view π).names (none, name) := by
    intro c
    unfold Compilation.view Scopes.current
    cases c.scopes.inner <;> rfl
  rw [hcurrent, hcurrent, h]

/-- What is seen when the innermost of the inner scopes is another one. -/
theorem view_replace {π : Class → Class} {c d : Compilation} {s t : Scope} (hview : d.view π = c.view π)
    (hinner : c.scopes.inner ≠ []) (h : t.meaning? = s.meaning?) :
    ({ d with scopes := d.scopes.replace t } : Compilation).view π =
      ({ c with scopes := c.scopes.replace s } : Compilation).view π := by
  have hreplace : ∀ (c : Compilation) (s : Scope), c.scopes.inner ≠ [] →
      ({ c with scopes := c.scopes.replace s } : Compilation).view π =
        { c.view π with inner := s.meaning? :: (c.view π).inner.tail } := by
    intro c s hinner
    obtain ⟨first, rest, hrest⟩ := List.exists_cons_of_ne_nil hinner
    have hscopes : c.scopes.replace s = { c.scopes with inner := s :: rest } := by
      unfold Scopes.replace
      rw [hrest]
    rw [hscopes]
    unfold Compilation.view
    rw [hrest]
    rfl
  have hsame := congrArg View.inner hview
  have hinner' : d.scopes.inner ≠ [] := by
    rintro hnil
    dsimp only [Compilation.view] at hsame
    rw [hnil, List.map_nil, eq_comm, List.map_eq_nil_iff] at hsame
    exact hinner hsame
  rw [hreplace c s hinner, hreplace d t hinner', hview, h]

theorem Scopes.inner_replace {s : Scopes} {scope : Scope} (h : s.inner ≠ []) :
    (s.replace scope).inner ≠ [] := by
  obtain ⟨global, _ | ⟨first, rest⟩⟩ := s
  · exact absurd rfl h
  · exact List.cons_ne_nil _ _

/-- Template parameters are added to what can be seen. -/
theorem defineParams_of_view {π : Class → Class} {span : Span} {ps : List TemplateParam} :
    ∀ {c d c' : Compilation} {u : Unit}, d.view π = c.view π → c.scopes.inner ≠ [] →
      Yields (ps.forM fun p => define p.name (.typeParam (.param p.name p.bound)) span) c u c' →
      ∃ s t, c' = { c with scopes := c.scopes.replace s } ∧ Yields (ps.forM fun p =>
        define p.name (.typeParam (.param p.name p.bound)) span) d u
          { d with scopes := d.scopes.replace t } ∧
        t.meaning? = s.meaning? := by
  induction ps with
  | nil =>
    intro c d c' u hview _ h
    obtain rfl := yields_forM_nil.mp h
    refine ⟨c'.scopes.current, d.scopes.current, by rw [Scopes.replace_current], ?_,
      current_of_view hview⟩
    exact yields_forM_nil.mpr (by rw [Scopes.replace_current])
  | cons p ps ih =>
    intro c d c' u hview hinner h
    have hparam : ∀ ids, Meaning.typeParam (.param p.name p.bound) ≠ .functions ids := fun _ => nofun
    obtain ⟨_, c₁, hp, hps⟩ := yields_forM_cons.mp h
    obtain ⟨hfresh, rfl⟩ := (yields_define_iff hparam).mp hp
    have hcurrent := current_of_view hview
    have hplus : (d.scopes.current.plus p.name ⟨.typeParam (.param p.name p.bound), span⟩).meaning? =
        (c.scopes.current.plus p.name ⟨.typeParam (.param p.name p.bound), span⟩).meaning? := by
      funext other
      rw [Scope.meaning?_plus, Scope.meaning?_plus, hcurrent]
    obtain ⟨s, t, rfl, hds, hst⟩ := ih (view_replace hview hinner hplus) (Scopes.inner_replace hinner) hps
    have hd : Yields (define p.name (.typeParam (.param p.name p.bound)) span) d () _ :=
      (yields_define_iff hparam).mpr ⟨hcurrent ▸ hfresh, rfl⟩
    rw [Scopes.replace_replace] at hds
    exact ⟨s, t, by rw [Scopes.replace_replace], yields_forM_cons.mpr ⟨(), _, hd, hds⟩, hst⟩

/-- What is done inside of a class. -/
instance {α : Type} (hash : TypeHash) (body : CompileM α) [hbody : Resolves Class.baseless body] :
    Resolves Class.baseless (inClass hash body) where
  same {c d a c'} hview h := by
    have hinside : (inside .block d).view Class.baseless = (inside .block c).view Class.baseless :=
      congrArg (fun v : View => { v with inner := (Scope.opened .block).meaning? :: v.inner }) hview
    obtain ⟨_, _, hbodyc, _, _⟩ := yields_inScope h
    obtain ⟨_, c₁, htemplates, hrun⟩ := yields_bind.mp hbodyc
    obtain ⟨k, _, hget, hparams⟩ := yields_bind.mp htemplates
    obtain ⟨hk, rfl⟩ := yields_askRegistry.mp hget
    obtain ⟨k', hk', hπ⟩ := exists_class_of_view hinside (Registry.getClass_eq_ok.mp hk)
    have htemplates' : k'.templates = k.templates := (congrArg Class.templates hπ :)
    have hspan : k'.span = k.span := (congrArg Class.span hπ :)
    obtain ⟨s, t, rfl, hparams', hst⟩ := defineParams_of_view hinside (List.cons_ne_nil _ _) hparams
    obtain ⟨checks, rfl, hrun'⟩ := hbody.same (view_replace hinside (List.cons_ne_nil _ _) hst) hrun
    have hleft : ∀ (c : Compilation) (s : Scope), left c { inside .block c with
        scopes := (inside .block c).scopes.replace s, deferred := c.deferred ++ checks } =
        { c with deferred := c.deferred ++ checks } := by
      intro c s
      have hscopes : ((c.scopes.enter .block).replace s).truncate c.scopes.depth = c.scopes :=
        Scopes.truncate_replace_push c.scopes _ s
      show ({ c with
        scopes := ((c.scopes.enter .block).replace s).truncate c.scopes.depth
        deferred := c.deferred ++ checks } : Compilation) = _
      rw [hscopes]
    have hbodyd : Yields (defineTemplates hash >>= fun _ => body) (inside .block d) a _ :=
      yields_bind.mpr ⟨(), _, yields_bind.mpr ⟨k', inside .block d,
        yields_askRegistry.mpr ⟨Registry.getClass_eq_ok.mpr hk', rfl⟩, by rwa [htemplates', hspan]⟩,
          hrun'⟩
    obtain ⟨-, hc'⟩ := h.unique (run_inScope hbodyc rfl)
    exact ⟨checks, hc'.trans (hleft c s), (run_inScope hbodyd rfl).trans (Prod.ext rfl (hleft d t))⟩

end ClassLang
