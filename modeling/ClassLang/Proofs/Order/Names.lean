import ClassLang.Proofs.Order.Steps

/-!
# Names in another order

A declaration lays claim to things that nobody may have claimed before: the hash of a class, and its
name, in its module and everywhere. Only natives may be required again. Claims can be made in any
order: which of them clash does not depend on which one is made first. So the names of all classes
can be declared if all claims of the program can be made, and what is seen then does not depend on
the order.
-/

namespace ClassLang

open CompileM Registration

/-! ## Claims -/

/-- What a declaration lays claim to. -/
inductive Claim where
  | newClass (hash : TypeHash) (k : Class)
  /-- A meaning of a name, everywhere or in a module. -/
  | name (key : Option String × String) (m : Meaning)
  /-- A claim that cannot be made. -/
  | impossible

/-- Only natives can be claimed again. -/
def Meaning.isNative : Meaning → Bool
  | .native _ => true
  | _ => false

/-- What is seen after a claim is made, if it can be made. -/
def View.make (v : View) : Claim → Option View
  | .newClass hash k =>
    match v.classes hash with
    | none => some { v with classes := Function.update v.classes hash (some k) }
    | some _ => none
  | .name key m =>
    match v.names key with
    | none => some { v with names := Function.update v.names key (some m) }
    | some m' => if m' = m ∧ m.isNative then some v else none
  | .impossible => none

/-- What is seen after several claims are made. -/
def View.makeAll (v : Option View) (claims : List Claim) : Option View :=
  claims.foldl (fun v a => v.bind (·.make a)) v

namespace View

theorem bind_guard {α β : Type} {p : Prop} [Decidable p] {a : α} {f : α → Option β} :
    (if p then some a else none).bind f = if p then f a else none := by
  split <;> rfl

theorem make_newClass_comm (v : View) (hash hash' : TypeHash) (k k' : Class) :
    (v.make (.newClass hash k)).bind (·.make (.newClass hash' k')) =
      (v.make (.newClass hash' k')).bind (·.make (.newClass hash k)) := by
  by_cases h : hash = hash'
  · subst h
    cases hv : v.classes hash <;> simp [make, hv]
  · cases hv : v.classes hash <;> cases hv' : v.classes hash' <;>
      simp [make, hv, hv', Function.update_of_ne h, Function.update_of_ne (Ne.symm h),
        Function.update_comm h]

theorem make_name_free {v : View} {key : Option String × String} (h : v.names key = none) (m : Meaning) :
    v.make (.name key m) = some { v with names := Function.update v.names key (some m) } := by
  simp only [make, h]

theorem make_name_taken {v : View} {key : Option String × String} {m₀ : Meaning}
    (h : v.names key = some m₀)
    (m : Meaning) : v.make (.name key m) = if m₀ = m ∧ m.isNative then some v else none := by
  simp only [make, h]

theorem make_name_comm (v : View) (key key' : Option String × String) (m m' : Meaning) :
    (v.make (.name key m)).bind (·.make (.name key' m')) =
      (v.make (.name key' m')).bind (·.make (.name key m)) := by
  -- On one key both claims must say the same; on two keys neither sees the other.
  by_cases h : key = key'
  · subst h
    cases hv : v.names key with
    | none =>
      rw [make_name_free hv, make_name_free hv, Option.bind_some, Option.bind_some,
        make_name_taken (Function.update_self ..), make_name_taken (Function.update_self ..)]
      by_cases hm : m = m'
      · rw [hm]
      · rw [if_neg fun h => hm h.1, if_neg fun h => hm h.1.symm]
    | some m₀ =>
      simp only [make_name_taken hv, bind_guard]
      split_ifs <;> rfl
  · have hother : ({ v with names := Function.update v.names key (some m) } : View).names key' =
        v.names key' := Function.update_of_ne (Ne.symm h) ..
    have hother' : ({ v with names := Function.update v.names key' (some m') } : View).names key =
        v.names key := Function.update_of_ne h ..
    cases hv : v.names key with
    | none =>
      cases hv' : v.names key' with
      | none =>
        rw [make_name_free hv, make_name_free hv', Option.bind_some, Option.bind_some,
          make_name_free (hother.trans hv'), make_name_free (hother'.trans hv)]
        dsimp only
        rw [Function.update_comm h]
      | some m₀ =>
        rw [make_name_free hv, make_name_taken hv', Option.bind_some, bind_guard,
          make_name_taken (hother.trans hv'), make_name_free hv]
    | some m₀ =>
      cases hv' : v.names key' with
      | none =>
        rw [make_name_free hv', make_name_taken hv, Option.bind_some, bind_guard,
          make_name_taken (hother'.trans hv), make_name_free hv']
      | some m₁ =>
        simp only [make_name_taken hv, make_name_taken hv', bind_guard]
        split_ifs <;> rfl

/-- Claims to different sorts of things do not meet. -/
theorem make_newClass_name_comm (v : View) (hash : TypeHash) (k : Class) (key : Option String × String)
    (m : Meaning) : (v.make (.newClass hash k)).bind (·.make (.name key m)) =
      (v.make (.name key m)).bind (·.make (.newClass hash k)) := by
  cases hv : v.classes hash <;> cases hv' : v.names key <;> simp [make, hv, hv', bind_guard]

theorem make_impossible_comm (v : View) (a : Claim) :
    (v.make .impossible).bind (·.make a) = (v.make a).bind (·.make .impossible) := by
  cases v.make a <;> rfl

/-- Claims can be made in either order. -/
theorem make_comm (v : View) : ∀ a b : Claim, (v.make a).bind (·.make b) = (v.make b).bind (·.make a)
  | .newClass hash k, .newClass hash' k' => make_newClass_comm v hash hash' k k'
  | .newClass hash k, .name key m => make_newClass_name_comm v hash k key m
  | .name key m, .newClass hash k => (make_newClass_name_comm v hash k key m).symm
  | .name key m, .name key' m' => make_name_comm v key key' m m'
  | .impossible, b => make_impossible_comm v b
  | a, .impossible => (make_impossible_comm v a).symm

theorem makeAll_none (claims : List Claim) : makeAll none claims = none := by
  induction claims with
  | nil => rfl
  | cons a claims ih => exact ih

theorem makeAll_append (v : Option View) (xs ys : List Claim) :
    makeAll v (xs ++ ys) = makeAll (makeAll v xs) ys := List.foldl_append

/-- Claims can be made in any order. -/
theorem makeAll_perm {xs ys : List Claim} (h : xs.Perm ys) (v : Option View) :
    makeAll v xs = makeAll v ys := by
  refine h.foldl_eq' (fun a _ b _ v => ?_) v
  cases v with
  | none => rfl
  | some v => exact make_comm v a b

end View

/-! ## Steps that make claims -/

/-- If all claims can be made, the step makes them and has the given result, and otherwise it fails.
`P` says where such a step is taken, and `look` what is seen there. -/
structure Makes (P : Compilation → Prop) (look : Compilation → View) {α : Type} (m : CompileM α)
    (claims : List Claim) (a : α) : Prop where
  made : ∀ {c v}, P c → View.makeAll (some (look c)) claims = some v →
    ∃ c', Yields m c a c' ∧ P c' ∧ look c' = v
  only : ∀ {c b c'}, P c → Yields m c b c' → ∃ v, View.makeAll (some (look c)) claims = some v

namespace Makes

variable {P : Compilation → Prop} {look : Compilation → View} {α β : Type} {m : CompileM α}
  {f : α → CompileM β} {xs ys : List Claim} {a : α} {b : β}

/-- What a step did that makes claims. -/
theorem yields (h : Makes P look m xs a) {c c' : Compilation} {a' : α} (hP : P c)
    (hm : Yields m c a' c') :
    a' = a ∧ P c' ∧ View.makeAll (some (look c)) xs = some (look c') := by
  obtain ⟨v, hv⟩ := h.only hP hm
  obtain ⟨c₁, hm', hP', rfl⟩ := h.made hP hv
  obtain ⟨ha, rfl⟩ := hm.unique hm'
  exact ⟨ha, hP', hv⟩

theorem pure (a : α) : Makes P look (Pure.pure a) [] a where
  made hP hv := ⟨_, yields_pure.mpr ⟨rfl, rfl⟩, hP, Option.some.inj hv⟩
  only _ _ := ⟨_, rfl⟩

theorem bind (hm : Makes P look m xs a) (hf : Makes P look (f a) ys b) :
    Makes P look (m >>= f) (xs ++ ys) b where
  made {c v} hP hv := by
    rw [View.makeAll_append] at hv
    cases hmade : View.makeAll (some (look c)) xs with
    | none =>
      rw [hmade, View.makeAll_none] at hv
      cases hv
    | some v₁ =>
      obtain ⟨c₁, hc₁, hP₁, rfl⟩ := hm.made hP hmade
      obtain ⟨c', hc', hP', hlook⟩ := hf.made hP₁ (hmade ▸ hv)
      exact ⟨c', yields_bind.mpr ⟨a, c₁, hc₁, hc'⟩, hP', hlook⟩
  only {c b' c'} hP h := by
    obtain ⟨a', c₁, hc₁, hc'⟩ := yields_bind.mp h
    obtain ⟨rfl, hP₁, hmade⟩ := hm.yields hP hc₁
    rw [View.makeAll_append, hmade]
    exact hf.only hP₁ hc'

end Makes

/-! ## Declarations in a module -/

section Module

variable (path : String) (c₀ : Compilation)

/-- The state is that of a step in a module that was entered from `c₀`. -/
def Entered (c : Compilation) : Prop := c.scopes.depth = c₀.scopes.depth + 1 ∧ c.deferred = c₀.deferred

/-- What will be seen when the module is left. -/
def outlook (c : Compilation) : View := (exited path (.ok ()) c₀ c).view Class.untagged

variable {path c₀}

theorem names_outlook (c : Compilation) (key : Option String × String) : (outlook path c₀ c).names key =
    if key.1 = some path then c.scopes.current.meaning? key.2 else c.names key := by
  obtain ⟨place, name⟩ := key
  cases place with
  | none => rfl
  | some other =>
    show (((c.moduleScopes.insert path c.scopes.current).find? other).getD _).meaning? name = _
    by_cases h : other = path
    · rw [if_pos (congrArg some h), h, Table.find?_insert_self]
      rfl
    · rw [if_neg fun heq => h (Option.some.inj heq), Table.find?_insert_of_ne _ (Ne.symm h)]
      rfl

theorem names_current (c : Compilation) (name : String) :
    (outlook path c₀ c).names (some path, name) = c.scopes.current.meaning? name :=
  (names_outlook c _).trans (if_pos rfl)

/-- What will be seen after a name is given a meaning. -/
theorem outlook_update {c d : Compilation} {key : Option String × String} {m : Meaning}
    (hnames : ∀ other,
    (if other.1 = some path then d.scopes.current.meaning? other.2 else d.names other) =
      if other = key then some m
      else if other.1 = some path then c.scopes.current.meaning? other.2 else c.names other)
    (hregistry : d.registry = c.registry) (hinner : d.scopes.inner.tail = c.scopes.inner.tail)
    (hdeferring : d.deferring = c.deferring) : outlook path c₀ d = { outlook path c₀ c with
      names := Function.update (outlook path c₀ c).names key (some m) } := by
  have hupdate : (outlook path c₀ d).names = Function.update (outlook path c₀ c).names key (some m) := by
    funext other
    rw [names_outlook, hnames, Function.update_apply, names_outlook]
  rw [← hupdate]
  unfold outlook Compilation.view exited
  dsimp only
  rw [hregistry, hinner, hdeferring]

theorem Entered.inner {c : Compilation} (hc : Entered c₀ c) : ∃ first rest,
    c.scopes.inner = first :: rest := by
  cases hinner : c.scopes.inner with
  | nil =>
    have hdepth := hc.1
    rw [Scopes.depth, hinner, Scopes.depth, List.length_nil] at hdepth
    omega
  | cons first rest => exact ⟨first, rest, rfl⟩

/-- A name is added to the scope of the module. -/
theorem outlook_plus {c : Compilation} (hc : Entered c₀ c) (name : String) (e : Entry) :
    outlook path c₀ { c with scopes := c.scopes.replace (c.scopes.current.plus name e) } =
      { outlook path c₀ c with
      names := Function.update (outlook path c₀ c).names (some path, name) (some e.meaning) } := by
  obtain ⟨first, rest, hinner⟩ := hc.inner
  have hreplace : c.scopes.replace (c.scopes.current.plus name e) =
      { c.scopes with inner := c.scopes.current.plus name e :: rest } := by
    unfold Scopes.replace
    rw [hinner]
  rw [hreplace]
  refine outlook_update (fun ⟨place, other⟩ => ?_) rfl (by rw [hinner]; rfl) rfl
  dsimp only
  by_cases hplace : place = some path
  · rw [if_pos hplace, if_pos hplace, hplace]
    exact Scope.meaning?_plus.trans (by simp)
  · rw [if_neg hplace, if_neg hplace, if_neg fun h => hplace (congrArg Prod.fst h)]
    rfl

/-- A name is added to the global scope. -/
theorem outlook_global {c : Compilation} (hc : Entered c₀ c) (name : String) (e : Entry) :
    outlook path c₀ { c with scopes := { c.scopes with global := c.scopes.global.plus name e } } =
      { outlook path c₀ c with
        names := Function.update (outlook path c₀ c).names (none, name) (some e.meaning) } := by
  obtain ⟨first, rest, hinner⟩ := hc.inner
  have hcurrent : ({ c.scopes with global := c.scopes.global.plus name e } : Scopes).current =
      c.scopes.current := by
    unfold Scopes.current
    rw [hinner]
    rfl
  refine outlook_update (fun ⟨place, other⟩ => ?_) rfl rfl rfl
  dsimp only
  rw [hcurrent]
  cases place with
  | none => exact Scope.meaning?_plus.trans (by simp [Compilation.names])
  | some place =>
    simp only [Prod.mk.injEq, reduceCtorEq, false_and, if_false]
    rfl

/-- A step that gives a name a meaning if it has none, and that leaves it alone if the name stands
for the same native. -/
theorem makes_name {place : Option String} {name : String} {m : Meaning} {n : CompileM Unit}
    {g : Compilation → Compilation}
    (hn : ∀ {c c' u}, Entered c₀ c → (Yields n c u c' ↔
      ((outlook path c₀ c).names (place, name) = none ∧ c' = g c) ∨
      ((outlook path c₀ c).names (place, name) = some m ∧ m.isNative = true ∧ c' = c)))
    (hg : ∀ {c}, Entered c₀ c → Entered c₀ (g c) ∧ outlook path c₀ (g c) = { outlook path c₀ c with
      names := Function.update (outlook path c₀ c).names (place, name) (some m) }) :
    Makes (Entered c₀) (outlook path c₀) n [.name (place, name) m] () where
  made {c v} hc hv := by
    have hv : (outlook path c₀ c).make (.name (place, name) m) = some v := hv
    cases hfound : (outlook path c₀ c).names (place, name) with
    | none =>
      rw [View.make_name_free hfound] at hv
      obtain ⟨hc', hlook⟩ := hg hc
      exact ⟨g c, (hn hc).mpr (.inl ⟨hfound, rfl⟩), hc', hlook.trans (Option.some.inj hv)⟩
    | some m' =>
      rw [View.make_name_taken hfound] at hv
      split at hv
      · rename_i hsame
        exact ⟨c, (hn hc).mpr (.inr ⟨hsame.1 ▸ hfound, hsame.2, rfl⟩), hc, Option.some.inj hv⟩
      · cases hv
  only hc h := by
    rcases (hn hc).mp h with ⟨hfree, -⟩ | ⟨hsame, hnative, -⟩
    · exact ⟨_, View.make_name_free hfree m⟩
    · exact ⟨_, (View.make_name_taken hsame m).trans (if_pos ⟨rfl, hnative⟩)⟩

section Claims

variable {name : String} {hash : TypeHash} {span : Span}

theorem makes_define : Makes (Entered c₀) (outlook path c₀) (define name (.classOf hash) span)
    [.name (some path, name) (.classOf hash)] () := by
  have hm : ∀ ids, Meaning.classOf hash ≠ .functions ids := fun _ => nofun
  refine makes_name (g := fun c => { c with
    scopes := c.scopes.replace (c.scopes.current.plus name ⟨.classOf hash, span⟩) })
      (fun {c c' u} _ => ?_)
    fun hc => ⟨⟨(Scopes.depth_replace ..).trans hc.1, hc.2⟩, outlook_plus hc ..⟩
  rw [yields_define_iff hm, names_current]
  simp [Meaning.isNative]

/-- A name is made visible everywhere. -/
theorem makes_defineGlobal : Makes (Entered c₀) (outlook path c₀)
    (updateScopes (·.defineGlobal name (.classOf hash) span)) [.name (none, name) (.classOf hash)]
    () := by
  have hm : ∀ ids, Meaning.classOf hash ≠ .functions ids := fun _ => nofun
  refine makes_name (g := fun c => { c with
    scopes := { c.scopes with global := c.scopes.global.plus name ⟨.classOf hash, span⟩ } })
    (fun {c c' u} _ => ?_) fun hc => ⟨hc, outlook_global hc ..⟩
  simp only [yields_updateScopes, Scopes.defineGlobal, except_bind_eq_ok, except_pure_eq_ok,
    Scope.define_eq_ok hm, Meaning.isNative, names_outlook, Compilation.names, reduceCtorEq, and_assoc,
    exists_and_left, exists_eq_left, if_false, false_and, and_false, or_false]

/-- Natives may be required again. -/
theorem makes_requireNative {name : Ident} {n : Native} (hn : Native.ofName? name.name = some n) :
    Makes (Entered c₀) (outlook path c₀) (requireNative name)
      [.name (some path, name.name) (.native n)] () := by
  have hm : ∀ ids, Meaning.native n ≠ .functions ids := fun _ => nofun
  refine makes_name (g := fun c => { c with
    scopes := c.scopes.replace (c.scopes.current.plus name.name ⟨.native n, name.span⟩) })
      (fun {c c' u} _ => ?_)
    fun hc => ⟨⟨(Scopes.depth_replace ..).trans hc.1, hc.2⟩, outlook_plus hc ..⟩
  rw [names_current]
  unfold requireNative
  rw [hn]
  simp only [yields_bind, yields_get, and_assoc, exists_and_left, exists_eq_left]
  have hmeaning :
    (c.scopes.current.find? name.name).map (·.meaning) = c.scopes.current.meaning? name.name := rfl
  rw [hmeaning]
  by_cases hknown : c.scopes.current.meaning? name.name = some (.native n)
  · rw [if_neg (not_not.mpr hknown), yields_pure, hknown]
    simp [Meaning.isNative]
  · rw [if_pos hknown, yields_define_iff hm]
    simp [hknown]

end Claims

end Module

/-! ## Declarations -/

/-- The hash of a class that is declared in a module. -/
def ClassDecl.hash (path : String) (d : ClassDecl) : TypeHash :=
  (Class.declared d.name.name path d.span d.isAbstract).hash

/-- What an item of a module lays claim to. -/
def Item.claims (path : String) : Item → List Claim
  | .require name =>
    match Native.ofName? name.name with
    | none => [.impossible]
    | some n => [.name (some path, name.name) (.native n)]
  | .classDecl d =>
    [.newClass (d.hash path) (.declared d.name.name path d.span d.isAbstract),
      .name (some path, d.name.name) (.classOf (d.hash path)), .name (none, d.name.name)
        (.classOf (d.hash path))]
  | .function _ | .global _ => []

/-- The class that an item of a module declares. -/
def Item.pending? (path : String) : Item → Option PendingClass
  | .classDecl d => some ⟨d.hash path, d, path⟩
  | .require _ | .function _ | .global _ => none

namespace Registration

variable {path : String} {c₀ : Compilation}

theorem makes_declareClass {d : ClassDecl} : Makes (Entered c₀) (outlook path c₀) (declareClass path d)
    (Item.claims path (.classDecl d)) ⟨d.hash path, d, path⟩ := by
  let k := Class.declared d.name.name path d.span d.isAbstract
  -- What follows when the hash is free.
  have hrest : Makes (Entered c₀) (outlook path c₀) (do
      defineTopLevel d.name.name (.classOf k.hash) d.span
      return (⟨k.hash, d, path⟩ : PendingClass)) ([.name (some path, d.name.name) (.classOf k.hash)] ++
      [.name (none, d.name.name) (.classOf k.hash)] ++ []) ⟨k.hash, d, path⟩ :=
    (makes_define.bind makes_defineGlobal).bind (.pure _)
  have hadded : ∀ c : Compilation, outlook path c₀ { c with registry := c.registry.addClass k } =
      { outlook path c₀ c with
        classes := Function.update (outlook path c₀ c).classes k.hash (some k) } := by
    intro c
    have hclasses : (outlook path c₀ { c with registry := c.registry.addClass k }).classes =
        Function.update (outlook path c₀ c).classes k.hash (some k) := by
      funext x
      rw [Function.update_apply]
      show ((c.registry.addClass k).class? x).map Class.untagged = _
      rw [Registry.class?_addClass]
      split <;> rfl
    rw [← hclasses]
    rfl
  have hstep : ∀ {c c' : Compilation} {q : PendingClass}, Yields (declareClass path d) c q c' ↔
      c.registry.class? k.hash = none ∧ Yields (do
        defineTopLevel d.name.name (.classOf k.hash) d.span
        return (⟨k.hash, d, path⟩ : PendingClass)) { c with registry := c.registry.addClass k } q c' := by
    intro c c' q
    simp only [declareClass, yields_bind, yields_get, and_assoc, exists_and_left, exists_eq_left]
    split
    · rename_i existing hk
      have hk : c.registry.class? k.hash = some existing := hk
      simp [hk]
    · rename_i hk
      have hk : c.registry.class? k.hash = none := Option.eq_none_iff_forall_not_mem.mpr hk
      simp [hk, yields_modifyRegistry, k]
  -- The hash is claimed first.
  have hclaims : ∀ c, View.makeAll (some (outlook path c₀ c)) (Item.claims path (.classDecl d)) =
      View.makeAll ((outlook path c₀ c).make (.newClass k.hash k))
        ([.name (some path, d.name.name) (.classOf k.hash)] ++
          [.name (none, d.name.name) (.classOf k.hash)] ++ []) := fun _ => rfl
  have hmake : ∀ c : Compilation, c.registry.class? k.hash = none →
    (outlook path c₀ c).make (.newClass k.hash k) =
      some (outlook path c₀ { c with registry := c.registry.addClass k }) := by
    intro c hk
    have hfree : (outlook path c₀ c).classes k.hash = none := Option.map_eq_none_iff.mpr hk
    rw [hadded]
    simp only [View.make, hfree]
  refine ⟨fun {c v} hc hv => ?_, fun {c q c'} hc h => ?_⟩
  · rw [hclaims] at hv
    cases hk : c.registry.class? k.hash with
    | none =>
      rw [hmake c hk] at hv
      have hc : Entered c₀ { c with registry := c.registry.addClass k } := hc
      obtain ⟨c', hc', hrest⟩ := hrest.made hc hv
      exact ⟨c', hstep.mpr ⟨hk, hc'⟩, hrest⟩
    | some existing =>
      have htaken : (outlook path c₀ c).classes k.hash = some existing.untagged :=
        Option.map_eq_some_iff.mpr ⟨existing, hk, rfl⟩
      simp only [View.make, htaken, View.makeAll_none, reduceCtorEq] at hv
  · obtain ⟨hk, h⟩ := hstep.mp h
    rw [hclaims, hmake c hk]
    have hc : Entered c₀ { c with registry := c.registry.addClass k } := hc
    exact hrest.only hc h

theorem makes_declareItems {items : List Item} : Makes (Entered c₀) (outlook path c₀)
    (declareItems path items)
    (items.flatMap (Item.claims path)) (items.filterMap (Item.pending? path)) := by
  induction items with
  | nil => exact .pure _
  | cons item rest ih =>
    rw [List.flatMap_cons]
    cases item with
    | require name =>
      unfold declareItems
      cases hn : Native.ofName? name.name with
      | none =>
        have hclaims : Item.claims path (.require name) = [.impossible] := by
          simp only [Item.claims, hn]
        rw [hclaims]
        refine ⟨fun _ hv => ?_, fun _ h => ?_⟩
        · rw [View.makeAll_append] at hv
          exact nomatch (View.makeAll_none _).symm.trans hv
        · unfold requireNative at h
          rw [hn] at h
          simp at h
      | some n =>
        have hclaims : Item.claims path (.require name) = [.name (some path, name.name) (.native n)] := by
          simp only [Item.claims, hn]
        rw [hclaims]
        exact (makes_requireNative hn).bind ih
    | classDecl d =>
      -- A class makes its claims before those of the items behind it.
      have hrest : Makes (Entered c₀) (outlook path c₀)
          (do return (⟨d.hash path, d, path⟩ :: (← declareItems path rest)))
          (rest.flatMap (Item.claims path) ++ [])
          (⟨d.hash path, d, path⟩ :: rest.filterMap (Item.pending? path)) := ih.bind (.pure _)
      rw [List.append_nil] at hrest
      exact makes_declareClass.bind hrest
    | function | global => exact ih

/-- The step is taken between modules. -/
theorem makes_inModule {α : Type} {m : CompileM α} {claims : List Claim} {a : α}
    (h : ∀ c₀, Makes (Entered c₀) (outlook path c₀) m claims a) :
    Makes (fun c => c.deferred = []) (Compilation.view Class.untagged) (inModule path m) claims a where
  made {c v} hc hv := by
    have hlook : outlook path c (c.entered path) = c.view Class.untagged :=
      ((Filled.refl (c.entered path)).exited ()).hidden fun _ => rfl
    obtain ⟨c₁, hc₁, hentered, hlook'⟩ := (h c).made (c := c.entered path) ⟨rfl, rfl⟩ (hlook ▸ hv)
    exact ⟨_, run_inModule hc₁ hentered.1, hentered.2.trans hc, hlook'⟩
  only {c b c'} hc hm := by
    have hlook : outlook path c (c.entered path) = c.view Class.untagged :=
      ((Filled.refl (c.entered path)).exited ()).hidden fun _ => rfl
    obtain ⟨c₁, _, _, hrun, -, -⟩ := inModule_spec hm
    exact hlook ▸ (h c).only (c := c.entered path) ⟨rfl, rfl⟩ hrun

theorem makes_declareModules {ms : List Module} :
    Makes (fun c => c.deferred = []) (Compilation.view Class.untagged) (declareModules ms)
      (ms.flatMap fun m => m.items.flatMap (Item.claims m.path))
      (ms.flatMap fun m => m.items.filterMap (Item.pending? m.path)) := by
  induction ms with
  | nil => exact .pure _
  | cons m ms ih =>
    rw [List.flatMap_cons, List.flatMap_cons]
    have hrest := ih.bind
      (f := fun qs => (return m.items.filterMap (Item.pending? m.path) ++ qs : CompileM _)) (.pure _)
    rw [List.append_nil] at hrest
    exact (makes_inModule fun _ => makes_declareItems).bind hrest

end Registration

/-! ## Programs in another order -/

/-- A module with the same items, in any order. -/
def Module.Rearranges (m m' : Module) : Prop := m'.path = m.path ∧ m'.items.Perm m.items

/-- The same modules with the same items, in any order. -/
def Program.Rearranges (p p' : Program) : Prop :=
  ∃ ms, List.Forall₂ Module.Rearranges p.modules ms ∧ ms.Perm p'.modules

theorem Module.Rearranges.symm {m m' : Module} (h : m.Rearranges m') : m'.Rearranges m :=
  ⟨h.1.symm, h.2.symm⟩

namespace Program.Rearranges

variable {p p' : Program}

theorem symm (h : p.Rearranges p') : p'.Rearranges p := by
  obtain ⟨ms, hms, hperm⟩ := h
  exact List.perm_comp_forall₂ hperm.symm (hms.flip.imp fun _ _ => Module.Rearranges.symm)

/-- What the modules have, up to the order of their items, the programs have up to the order. -/
theorem flatMap_perm {β : Type} {f : Module → List β}
    (hf : ∀ m m', m.Rearranges m' → (f m).Perm (f m')) (h : p.Rearranges p') :
    (p.modules.flatMap f).Perm (p'.modules.flatMap f) := by
  obtain ⟨ms, hms, hperm⟩ := h
  have hitems : ∀ {xs ys : List Module}, List.Forall₂ Module.Rearranges xs ys →
      (xs.flatMap f).Perm (ys.flatMap f) := by
    intro xs ys h
    induction h with
    | nil => exact .refl _
    | cons hm _ ih =>
      rw [List.flatMap_cons, List.flatMap_cons]
      exact (hf _ _ hm).append ih
  exact (hitems hms).trans (hperm.flatMap_right f)

end Program.Rearranges

/-- The program with the modules, and the items of each module, in the opposite order. -/
def Program.reversed (p : Program) : Program :=
  ⟨(p.modules.map fun m => ⟨m.path, m.items.reverse⟩).reverse⟩

theorem Program.rearranges_reversed (p : Program) : p.Rearranges p.reversed := by
  refine ⟨p.modules.map fun m => ⟨m.path, m.items.reverse⟩, ?_, (List.reverse_perm _).symm⟩
  exact List.forall₂_map_right_iff.mpr (List.forall₂_same.mpr fun m _ => ⟨rfl, m.items.reverse_perm⟩)

namespace Registration

theorem declareModules_perm {p p' : Program} (hp : p.Rearranges p') {c c' : Compilation}
    {ps : List PendingClass} (hc : c.deferred = []) (h : Yields (declareModules p.modules) c ps c') :
    ∃ qs d', ps.Perm qs ∧ Yields (declareModules p'.modules) c qs d' ∧ c'.Alike d' := by
  obtain ⟨rfl, hc', hmade⟩ := makes_declareModules.yields hc h
  have hclaims := hp.flatMap_perm (f := fun m => m.items.flatMap (Item.claims m.path)) fun m m' hm => by
    rw [hm.1]
    exact hm.2.symm.flatMap_right _
  have hpending :=
    hp.flatMap_perm (f := fun m => m.items.filterMap (Item.pending? m.path)) fun m m' hm => by
    rw [hm.1]
    exact hm.2.symm.filterMap _
  rw [View.makeAll_perm hclaims] at hmade
  obtain ⟨d', hd, hd', hview⟩ := makes_declareModules.made hc hmade
  exact ⟨_, d', hpending, hd, hview, by rw [hc', hd']⟩

end Registration

end ClassLang
