import ClassLang.Proofs.Order.Headers
import ClassLang.Proofs.Registration.LayoutOrder
import ClassLang.Proofs.Registration.Names

/-!
# Where errors in hierarchies are located

Classes are linearized in order of declaration, and registration ends at the first one that has no
linearization. The error names the class at fault, which inherits from itself or has bases without a
common order, but it gets the place of the class that was to be linearized. The class at fault is an
ancestor of that one, and it has no linearization itself. So the error is located at the first
class, in order of declaration, that is the class it names or inherits from it, and it points at the
class that it names only if none of its heirs is declared before it.
-/

namespace ClassLang

open CompileM

/-! ## Classes at fault -/

/-- The class at fault. -/
def HierarchyError.owner : HierarchyError → TypeHash
  | inconsistent owner _ | circular owner => owner

namespace Linearization

variable {bases : Bases} {memo : Memo} {c d x : TypeHash} {mro : List TypeHash} {e : HierarchyError}

/-- A class that can be linearized is known to some memo. -/
theorem exists_memo (h : plainOrder bases d = .ok mro) :
    ∃ memo, Consistent bases memo ∧ memo.find? d = some mro := by
  have hempty := consistent_empty bases
  obtain ⟨hgrows, hknown⟩ := linearize_spec bases d .empty
  exact ⟨_, hgrows.consistent hempty, hknown mro ((linearize_eq_plainOrder hempty d).trans h)⟩

theorem Consistent.exists_of_reaches (h : Consistent bases memo) (hd : memo.find? d = some mro)
    (hreach : Reaches bases d x) : ∃ m, memo.find? x = some m := by
  obtain ⟨m, hm, -⟩ := h.ancestor hd ((h.mem_iff hd).mpr hreach)
  exact ⟨m, hm⟩

/-- A class whose bases have no common order has bases, and no memo knows it. -/
theorem not_knows_of_stuck {mros : List (List TypeHash)} {left : List TypeHash}
    (hmros : List.Forall₂ (fun b m => plainOrder bases b = .ok m) (directBases bases x) mros)
    (hstuck : merge x (mros ++ [directBases bases x]) = .error (.inconsistent x left)) :
    directBases bases x ≠ [] ∧
      ∀ {memo : Memo} {m : List TypeHash}, Consistent bases memo → memo.find? x ≠ some m := by
  have hsome : directBases bases x ≠ [] := by
    intro hnone
    rw [hnone] at hmros hstuck
    cases hmros
    cases hstuck
  refine ⟨hsome, fun {memo m} hmemo hx => ?_⟩
  obtain ⟨rest, mros', -, -, hknows, hext, -⟩ := hmemo.unfold hx
  have hsame : mros' = mros := by
    have hplain := mapM_eq_ok_iff.mpr (hknows.imp fun b m => plainOrder_of_knows hmemo)
    rw [mapM_eq_ok_iff.mpr hmros] at hplain
    injection hplain with hplain
    exact hplain.symm
  rw [hsame, extend, if_neg hsome, hstuck] at hext
  cases hext

/-- The class at fault has bases, and nothing that inherits from it can be linearized. -/
theorem owner_of_plainOrder (h : plainOrder bases c = .error e) : Reaches bases c e.owner ∧
    directBases bases e.owner ≠ [] ∧ ∀ d mro, plainOrder bases d = .ok mro →
      ¬Reaches bases d e.owner := by
  cases e with
  | circular x =>
    obtain ⟨hreach, hx⟩ := order_circular (unvisited_lt ..) h
    have hcycle := hx.resolve_left List.not_mem_nil
    refine ⟨hreach, ?_, fun d mro hd hdx => ?_⟩
    · obtain ⟨b, hb, -⟩ := Relation.TransGen.head'_iff.mp hcycle
      exact List.ne_nil_of_mem hb
    · obtain ⟨memo, hmemo, hknown⟩ := exists_memo hd
      obtain ⟨m, hm⟩ := hmemo.exists_of_reaches hknown hdx
      exact not_onCycle_of_knows hmemo hm hcycle
  | inconsistent x left =>
    obtain ⟨hreach, mros, hmros, hstuck⟩ := order_inconsistent (unvisited_lt ..) h
    obtain ⟨hsome, hunknown⟩ := not_knows_of_stuck hmros hstuck
    refine ⟨hreach, hsome, fun d mro hd hdx => ?_⟩
    obtain ⟨memo, hmemo, hknown⟩ := exists_memo hd
    obtain ⟨m, hm⟩ := hmemo.exists_of_reaches hknown hdx
    exact hunknown hmemo hm

end Linearization

/-! ## The registered hierarchy -/

/-- The class is the other one or inherits from it. -/
def Registry.Descends (r : Registry) : TypeHash → TypeHash → Prop :=
  Relation.ReflTransGen fun h b => ∃ k, r.class? h = some k ∧ b ∈ Registration.baseHashes k

/-- The class that a cause names, if it is about a hierarchy. -/
def Cause.hierarchyClass? : Cause → Option String
  | .inconsistentHierarchy owner _ | .circularInheritance owner => some owner
  | _ => none

theorem Cause.isStructural_of_hierarchyClass? {cause : Cause} {name : String}
    (h : cause.hierarchyClass? = some name) : cause.isStructural = true := by
  cases cause <;> first | rfl | cases h

namespace Registration

variable {r r' : Registry} {ps : List PendingClass} {bases : Linearization.Bases} {c c' : Compilation}
  {cause : Cause} {span : Span}

/-- Of some classes, the first one that is the given class or inherits from it. -/
def FirstBelow (r : Registry) (ps : List PendingClass) (named first : PendingClass) : Prop :=
  ∃ before after, ps = before ++ first :: after ∧ r.Descends first.hash named.hash ∧
    ∀ d ∈ before, ¬r.Descends d.hash named.hash

theorem FirstBelow.unique {named first first' : PendingClass} (h : FirstBelow r ps named first)
    (h' : FirstBelow r ps named first') : first = first' := by
  obtain ⟨before, after, hps, hfirst, hbefore⟩ := h
  obtain ⟨before', after', hps', hfirst', hbefore'⟩ := h'
  rcases List.append_eq_append_iff.mp (hps.symm.trans hps') with ⟨gap, rfl, hgap⟩ | ⟨gap, rfl, hgap⟩
  · cases gap with
    | nil => exact (List.cons.inj hgap).1
    | cons q gap =>
      obtain ⟨rfl, -⟩ := List.cons.inj hgap
      exact absurd hfirst (hbefore' _ (List.mem_append_right _ List.mem_cons_self))
  · cases gap with
    | nil => exact (List.cons.inj hgap).1.symm
    | cons q gap =>
      obtain ⟨rfl, -⟩ := List.cons.inj hgap
      exact absurd hfirst' (hbefore _ (List.mem_append_right _ List.mem_cons_self))

theorem FirstBelow.mem {named first : PendingClass} (h : FirstBelow r ps named first) : first ∈ ps := by
  obtain ⟨before, after, rfl, -, -⟩ := h
  exact List.mem_append_right _ List.mem_cons_self

theorem hierarchyClass?_hierarchyCause (r : Registry) (e : HierarchyError) :
    (hierarchyCause r e).hierarchyClass? = some (r.className e.owner) := by
  cases e <;> rfl

theorem descends_congr {touched : TypeHash → Prop} (h : r.Changes touched baseHashes r') :
    r'.Descends = r.Descends := by
  unfold Registry.Descends
  congr
  funext k b
  refine propext ⟨?_, ?_⟩
  · rintro ⟨d', hd', hb⟩
    obtain ⟨d, hd, heq⟩ := h.exists_class_before hd'
    exact ⟨d, hd, heq ▸ hb⟩
  · rintro ⟨d, hd, hb⟩
    obtain ⟨d', hd', heq⟩ := h.exists_class hd
    exact ⟨d', hd', heq ▸ hb⟩

/-- The table of direct bases says what is registered. -/
theorem reaches_eq_descends (hd : Declared r ps) (h : directBases r ps = .ok bases) :
    Linearization.Reaches bases = r.Descends := by
  have hbase : Linearization.HasBase bases = fun a b => ∃ k, r.class? a = some k ∧ b ∈ baseHashes k := by
    funext a b
    unfold Linearization.HasBase
    rw [directBases_value hd h]
    cases r.class? a <;> simp
  unfold Linearization.Reaches Registry.Descends
  rw [hbase]

/-- Only declared classes have bases. -/
theorem pending_of_directBases (hd : Declared r ps) (h : directBases r ps = .ok bases) {x : TypeHash}
    (hx : Linearization.directBases bases x ≠ []) : Pending ps x := by
  rw [directBases_value hd h] at hx
  cases hk : r.class? x with
  | none =>
    rw [hk] at hx
    exact absurd rfl hx
  | some k =>
    refine (hd.known x k hk).resolve_left fun hroot => hx ?_
    obtain ⟨root, hroot', -, hnone⟩ := hd.root
    rw [hroot, hroot', Option.map_some, Option.getD_some, baseHashes, hnone]
    rfl

/-! ## The class that was to be linearized -/

/-- Classes are linearized up to the first one that has no linearization, which is where the error
is located. -/
theorem fails_linearizeFrom {memo : Linearization.Memo} (hmemo : Linearization.Consistent bases memo)
    (h : Fails (linearizeFrom bases ps memo) c (.located cause span) c') : ∃ before first after err,
      ps = before ++ first :: after ∧
      (∀ d ∈ before, ∃ mro, Linearization.plainOrder bases d.hash = .ok mro) ∧
      Linearization.plainOrder bases first.hash = .error err ∧
      cause = hierarchyCause c'.registry err ∧ span = first.decl.span ∧
      c'.failedPath = c.failedPath.or (some first.path) ∧
      c.registry.Changes (Pending ps) (fun k => { k with mro := [] }) c'.registry := by
  induction ps generalizing memo c with
  | nil => exact (not_fails_pure h).elim
  | cons p ps ih =>
    -- The memo does not change the answer, so the error is that of the plain order.
    have hanswer := Linearization.linearize_eq_plainOrder hmemo p.hash
    have hnext := (Linearization.linearize_spec bases p.hash memo).1.consistent hmemo
    unfold linearizeFrom at h
    rcases hrun : Linearization.linearize bases p.hash memo with ⟨err | mro, memo₁⟩ <;>
      rw [hrun] at h hanswer hnext
    · rcases fails_bind.mp h with h | ⟨cause, c₁, hcause, h⟩
      · cases h
      obtain ⟨rfl, rfl⟩ := yields_fromRegistry.mp hcause
      obtain ⟨he, hregistry, hpath⟩ := fails_inModule_fail h
      injection he with hcause hspan
      rw [hregistry]
      exact ⟨[], p, ps, err, rfl, List.forall_mem_nil _, hanswer.symm, hcause, hspan, hpath,
        .refl ..⟩
    · rcases fails_bind.mp h with h | ⟨_, c₁, hset, h⟩
      · -- A class that is not registered has no position.
        rcases fails_bind.mp h with h | ⟨_, _, _, h⟩
        · obtain ⟨h, -⟩ := fails_askRegistry.mp h
          unfold Registry.getClass at h
          split at h <;> cases h
        · cases h
      obtain ⟨-, rfl⟩ := yields_modifyClass.mp hset
      obtain ⟨before, first, after, err, rfl, hbefore, herr, hcause, hspan, hpath, hchanges⟩ :=
        ih hnext h
      refine ⟨p :: before, first, after, err, rfl, ?_, herr, hcause, hspan, hpath, ?_⟩
      · exact List.forall_mem_cons.mpr ⟨⟨mro, hanswer.symm⟩, hbefore⟩
      have hfirst : c.registry.Changes (Pending (p :: (before ++ first :: after)))
          (fun k => { k with mro := [] })
            (c.registry.modifyClass p.hash fun k => { k with mro := mro }) :=
        .modifyClass ⟨p, List.mem_cons_self, rfl⟩ fun _ => rfl
      refine hfirst.trans (hchanges.widen ?_)
      rintro k ⟨q, hq, heq⟩
      exact ⟨q, List.mem_cons_of_mem _ hq, heq⟩

/-- The error names a declared class, and is located at the first class that is it or inherits from
it. -/
theorem fails_linearizeAll (hd : Declared c.registry ps)
    (h : Fails (linearizeAll ps) c (.located cause span) c') : ∃ named ∈ ps, ∃ first,
      cause.hierarchyClass? = some named.decl.name.name ∧ FirstBelow c'.registry ps named first ∧
      span = first.decl.span ∧ c'.failedPath = c.failedPath.or (some first.path) := by
  obtain ⟨bases, hbases⟩ : ∃ t, directBases c.registry ps = .ok t :=
    directBases_ok fun q hq => (hd.registered q hq).imp fun _ => And.left
  unfold linearizeAll at h
  rcases fails_bind.mp h with h | ⟨t, c₁, hask, hfrom⟩
  · rw [fails_askRegistry, hbases] at h
    cases h.1
  obtain ⟨ht, rfl⟩ := yields_askRegistry.mp hask
  obtain rfl : t = bases := Except.ok.inj (ht.symm.trans hbases)
  obtain ⟨before, first, after, err, hps, hbefore, herr, hcause, hspan, hpath, hchanges⟩ :=
    fails_linearizeFrom (Linearization.consistent_empty t) hfrom
  obtain ⟨hreach, hsome, hnone⟩ := Linearization.owner_of_plainOrder herr
  obtain ⟨named, hnamed, hhash⟩ := pending_of_directBases hd hbases hsome
  have hdescends : c'.registry.Descends = Linearization.Reaches t :=
    (descends_congr (hchanges.coarsen baseHashes fun _ => rfl)).trans (reaches_eq_descends hd hbases).symm
  refine ⟨named, hnamed, first, ?_, ⟨before, after, hps, ?_, fun d hmem => ?_⟩, hspan, hpath⟩
  · obtain ⟨k, hk, hname⟩ := (hd.changes (hchanges.coarsen lasting fun _ => rfl)).registered named hnamed
    rw [hcause, hierarchyClass?_hierarchyCause, ← hhash, Registry.className_eq hk, hname]
  · rw [hdescends, hhash]
    exact hreach
  · obtain ⟨mro, hmro⟩ := hbefore d hmem
    rw [hdescends, hhash]
    exact hnone _ mro hmro

/-! ## No failure before -/

/-- No step has failed yet. -/
def Untroubled (c : Compilation) : Prop := c.failedPath = none

instance : Contextual Untroubled where
  congr hsame hc := (congrArg Compilation.failedPath hsame).trans hc

instance : Modular Untroubled where
  enter _ hc := hc
  leave _ _ _ hc := hc

instance : IgnoresScopes Compilation.failedPath := ⟨fun _ _ => rfl⟩

theorem untroubled_of_keeps {α : Type} (m : CompileM α) [Keeps Compilation.failedPath m] :
    Preserves Untroubled m := ⟨fun hc h => (h.keeps (f := Compilation.failedPath)).trans hc⟩

instance (f : Registry → Registry) : Keeps Compilation.failedPath (modifyRegistry f) :=
    keeps_modify fun _ => rfl

instance (hash : TypeHash) (f : Class → Class) :
    Keeps Compilation.failedPath (modifyClass hash f) := by
  unfold modifyClass
  infer_instance

instance (name : Ident) : Preserves Untroubled (requireNative name) := by
  have : Keeps Compilation.failedPath (requireNative name) := by
    unfold requireNative
    split <;> infer_instance
  exact untroubled_of_keeps _

instance (path : String) (d : ClassDecl) : Preserves Untroubled (declareClass path d) := by
  have : Keeps Compilation.failedPath (declareClass path d) := by
    unfold declareClass
    refine .bind fun c => ?_
    dsimp only
    split <;> infer_instance
  exact untroubled_of_keeps _

instance (p : PendingClass) : Preserves Untroubled (resolveTemplates p) := by
  have := fun f => untroubled_of_keeps (modifyClass p.hash f)
  unfold resolveTemplates
  infer_instance

instance (p : PendingClass) : Preserves Untroubled (resolveBases p) := by
  have := fun f => untroubled_of_keeps (modifyClass p.hash f)
  unfold resolveBases
  refine @Preserves.inModule _ _ _ _ _ (@Preserves.bind _ _ _ _ _ _ fun written => ?_)
  dsimp only
  split <;> infer_instance

theorem untroubled_start {o : Options} (h : Compilation.start o = .ok c) : Untroubled c := by
  unfold Compilation.start at h
  simp only [except_bind_eq_ok, except_pure_eq_ok] at h
  obtain ⟨_, _, _, _, rfl⟩ := h
  rfl

theorem untroubled_resolveHeaders {u : Unit} (hc : Untroubled c) (h : Yields (resolveHeaders ps) c u c') :
    Untroubled c' := by
  obtain ⟨c₁, c₂, htemplates, hbases, rfl⟩ := yields_resolveHeaders h
  exact hbases.preserves (htemplates.preserves (I := Untroubled) hc)

end Registration

/-! ## Declarations -/

/-- The classes of a program in order of declaration. -/
def Program.declarations (p : Program) : List PendingClass :=
  p.modules.flatMap fun m => m.items.filterMap (Item.pending? m.path)

/-- Where a class is declared: a module and a position in it. -/
def PendingClass.place (q : PendingClass) : String × Span := (q.path, q.decl.span)

/-- A class of the name is declared in the module, at the position. -/
def Program.DeclaresAt (p : Program) (name path : String) (span : Span) : Prop :=
  ∃ m ∈ p.modules, ∃ d, .classDecl d ∈ m.items ∧ d.name.name = name ∧ m.path = path ∧ d.span = span

theorem Program.mem_declarations {p : Program} {q : PendingClass} : q ∈ p.declarations ↔
    ∃ m ∈ p.modules, ∃ d, .classDecl d ∈ m.items ∧ q = ⟨d.hash m.path, d, m.path⟩ := by
  unfold declarations
  simp only [List.mem_flatMap, List.mem_filterMap]
  refine exists_congr fun m => and_congr_right fun _ => ⟨?_, ?_⟩
  · rintro ⟨item, hitem, hq⟩
    cases item with
    | classDecl d =>
      injection hq with hq
      exact ⟨d, hitem, hq.symm⟩
    | require | function | global => cases hq
  · rintro ⟨d, hd, rfl⟩
    exact ⟨_, hd, rfl⟩

theorem Program.declaresAt_iff {p : Program} {name path : String} {span : Span} :
    p.DeclaresAt name path span ↔ ∃ q ∈ p.declarations, q.decl.name.name = name ∧
      q.place = (path, span) := by
  constructor
  · rintro ⟨m, hm, d, hd, hname, hpath, hspan⟩
    exact ⟨_, mem_declarations.mpr ⟨m, hm, d, hd, rfl⟩, hname, Prod.ext hpath hspan⟩
  · rintro ⟨q, hq, hname, hplace⟩
    obtain ⟨m, hm, d, hd, rfl⟩ := mem_declarations.mp hq
    obtain ⟨hpath, hspan⟩ := Prod.mk.inj hplace
    exact ⟨m, hm, d, hd, hname, hpath, hspan⟩

instance (p : Program) (name path : String) (span : Span) : Decidable (p.DeclaresAt name path span) :=
  decidable_of_iff _ Program.declaresAt_iff.symm

namespace Registration

variable {o : Options} {p : Program} {ps : List PendingClass} {c₀ c c' : Compilation} {cause : Cause}
  {span : Span} {name : String}

theorem start_deferred (h : Compilation.start o = .ok c) : c.deferred = [] := by
  unfold Compilation.start at h
  simp only [except_bind_eq_ok, except_pure_eq_ok] at h
  obtain ⟨_, _, _, _, rfl⟩ := h
  rfl

/-- An error about a hierarchy comes from the walk that linearizes the classes of the program. -/
theorem fails_linearizeAll_of_run (hstart : Compilation.start o = .ok c₀)
    (h : Fails (run p) c₀ (.located cause span) c) (hname : cause.hierarchyClass? = some name) :
    ∃ c₁ c₂, Yields (declareModules p.modules) c₀ p.declarations c₁ ∧
      Yields (resolveHeaders p.declarations) c₁ () c₂ ∧
      Fails (linearizeAll p.declarations) c₂ (.located cause span) c := by
  have hstructural : (CompileError.located cause span).isStructural = true :=
    Cause.isStructural_of_hierarchyClass? hname
  obtain ⟨ps, c₁, c₂, hdeclare, hheaders, hfails⟩ := fails_run_cases h hstructural
  obtain ⟨rfl, -, -⟩ := makes_declareModules.yields (start_deferred hstart) hdeclare
  refine ⟨c₁, c₂, hdeclare, hheaders, hfails.resolve_right ?_⟩
  rintro ⟨c₃, hlayout⟩
  have hd : Declared c₁.registry p.declarations :=
    declareModules_declared (Dispatch.declared_start hstart) hdeclare
  obtain ⟨_, _, _, _, _, he, _⟩ :=
    cycle_of_layOutAll (List.nodup_cons.mp hd.distinct).2 hlayout hstructural
  injection he with hcause
  rw [hcause] at hname
  cases hname

/-- Declared classes have different names. -/
theorem eq_of_declared_name (hd : Declared c.registry ps) (hnames : c.NamesClasses) {q q' : PendingClass}
    (hq : q ∈ ps) (hq' : q' ∈ ps) (heq : q.decl.name.name = q'.decl.name.name) : q = q' := by
  obtain ⟨k, hk, hname⟩ := hd.registered q hq
  obtain ⟨k', hk', hname'⟩ := hd.registered q' hq'
  have hhash := hnames.unique hk hk' (hname.trans (heq.trans hname'.symm))
  exact List.inj_on_of_nodup_map (List.nodup_cons.mp hd.distinct).2 hq hq' hhash

/-! ## The place of an error -/

/-- How registration fails, if the program is refused. -/
def failure? (o : Options) (p : Program) : Option Failure :=
  match Compilation.start o with
  | .error _ => none
  | .ok c =>
    match (run p).run.run c with
    | (.ok _, _) => none
    | (.error e, c) => some ⟨c.failedPath.getD "", e⟩

theorem exists_of_failure? {f : Failure} (h : failure? o p = some f) : ∃ c₀ c,
    Compilation.start o = .ok c₀ ∧
    Fails (run p) c₀ f.error c ∧ f.path = c.failedPath.getD "" := by
  unfold failure? at h
  split at h
  · cases h
  · split at h
    · cases h
    · rename_i hstart _ _ _ hrun
      injection h with h
      subst h
      exact ⟨_, _, hstart, hrun, rfl⟩

/-- A class that inherits from itself, and one that inherits from it and is declared before. -/
def heirFirst : Program :=
  ⟨[⟨"a", [heir "Heir" ⟨1, 1, 0⟩]⟩, ⟨"b", [heir "Ring" ⟨2, 1, 0⟩]⟩]⟩
where
  heir (name : String) (span : Span) : Item :=
    .classDecl ⟨⟨name, .unknown⟩, [], [.named "Ring" [] .unknown], [], [], false, span⟩

/-- An error about a hierarchy names one class of the program, and its place is that of the first
class, in order of declaration, that is this class or inherits from it. If classes are declared at
different places, the error is at a class of the name that it gives exactly if no class that is
declared before inherits from that one. -/
theorem hierarchy_error_located_iff (hstart : Compilation.start o = .ok c₀)
    (h : Fails (run p) c₀ (.located cause span) c) (hname : cause.hierarchyClass? = some name) :
    ∃ named ∈ p.declarations, named.decl.name.name = name ∧
      (∀ q ∈ p.declarations, q.decl.name.name = name → q = named) ∧
      (∃ first, FirstBelow c.registry p.declarations named first ∧ c.failedPath = some first.path ∧
        span = first.decl.span) ∧
      ((p.declarations.map (·.place)).Nodup → (p.DeclaresAt name (c.failedPath.getD "") span ↔
        FirstBelow c.registry p.declarations named named)) := by
  obtain ⟨c₁, c₂, hdeclare, hheaders, hfails⟩ := fails_linearizeAll_of_run hstart h hname
  have hd : Declared c₁.registry p.declarations :=
    declareModules_declared (Dispatch.declared_start hstart) hdeclare
  have hd₂ := hd.changes ((resolveHeaders_changes hheaders).coarsen lasting fun _ => rfl)
  have hpath₂ : c₂.failedPath = none :=
    untroubled_resolveHeaders (hdeclare.preserves (untroubled_start hstart)) hheaders
  obtain ⟨named, hnamed, first, hclass, hfirst, rfl, hpath⟩ := fails_linearizeAll hd₂ hfails
  rw [hpath₂, Option.none_or] at hpath
  obtain rfl : named.decl.name.name = name := Option.some.inj (hclass.symm.trans hname)
  have hunique : ∀ q ∈ p.declarations, q.decl.name.name = named.decl.name.name → q = named := fun q hq =>
    eq_of_declared_name hd (hdeclare.preserves (namesClasses_start hstart)) hq hnamed
  refine ⟨named, hnamed, rfl, hunique, ⟨first, hfirst, hpath, rfl⟩, fun hplaces => ?_⟩
  rw [hpath, Option.getD_some, Program.declaresAt_iff]
  constructor
  · rintro ⟨q, hq, hqname, hplace⟩
    obtain rfl := hunique q hq hqname
    obtain rfl : q = first := List.inj_on_of_nodup_map hplaces hq hfirst.mem hplace
    exact hfirst
  · intro hself
    obtain rfl := hfirst.unique hself
    exact ⟨first, hnamed, rfl, rfl⟩

set_option maxRecDepth 100000 in
theorem hierarchy_error_located_heirLast : ∃ c₀ c, Compilation.start {} = .ok c₀ ∧
    Fails (run heirFirst.reversed) c₀ (.located (.circularInheritance "Ring") ⟨2, 1, 0⟩) c ∧
    c.failedPath.getD "" = "b" ∧ ∃ named ∈ heirFirst.reversed.declarations, named.decl.name.name = "Ring" ∧
      FirstBelow c.registry heirFirst.reversed.declarations named named := by
  have hrun : failure? {} heirFirst.reversed =
      some ⟨"b", .located (.circularInheritance "Ring") ⟨2, 1, 0⟩⟩ := by
    decide +kernel
  obtain ⟨c₀, c, hstart, hfails, hpath⟩ := exists_of_failure? hrun
  obtain ⟨named, hnamed, hname, -, -, hiff⟩ := hierarchy_error_located_iff hstart hfails rfl
  have hplaces : (heirFirst.reversed.declarations.map (·.place)).Nodup := by decide +kernel
  have hdeclares : heirFirst.reversed.DeclaresAt "Ring" "b" ⟨2, 1, 0⟩ := by decide +kernel
  refine ⟨c₀, c, hstart, hfails, hpath.symm, named, hnamed, hname, (hiff hplaces).mp ?_⟩
  rw [← hpath]
  exact hdeclares

set_option maxRecDepth 100000 in
/-- The error about a class can be located at another class, in another module. -/
theorem hierarchy_error_can_be_misplaced : ¬∀ (o : Options) (p : Program) (path name : String)
    (cause : Cause) (span : Span), failure? o p = some ⟨path, .located cause span⟩ →
    cause.hierarchyClass? = some name → p.DeclaresAt name path span := by
  intro hall
  have hrun : failure? {} heirFirst = some ⟨"a", .located (.circularInheritance "Ring") ⟨1, 1, 0⟩⟩ := by
    decide +kernel
  have helsewhere : ¬heirFirst.DeclaresAt "Ring" "a" ⟨1, 1, 0⟩ := by decide +kernel
  exact helsewhere (hall {} heirFirst "a" "Ring" _ _ hrun rfl)

end Registration

end ClassLang
