import ClassLang.Proofs.Registration.Retained
import ClassLang.Proofs.Safety.Layout

/-!
# Registering functions and methods is safe

The signature of a function is resolved against a registry in which all visible names are found, and
it is compared with the functions that share its name, which are registered. A method is registered
for the class that its declaration introduced; that class is still in the scope of the module. The
signature is added under the next free number, and the body that is queued for it is there.
-/

namespace ClassLang

open CompileM Lowering Registration

namespace CompileM

variable {α : Type} {r : Registry} {c : Compilation} {V : Binding → Prop} {ps : List PendingClass}

/-! ## Signatures -/

theorem safe_resolveParam {p : Param} (hr : c.registry = r) (hn : Named r c) :
    Safe Defers (resolveParam p) c fun t _ => r.Knows t := by
  unfold resolveParam
  refine (safe_resolveType p.type hr hn).bind fun t c₁ h₁ ht => ?_
  refine (safe_requireStorable (h₁.registry.trans hr) ht).bind ?_
  rintro _ _ - rfl
  exact .pure ht

/-- Whether the result was written or left out, it is checked before it is returned. -/
theorem safe_checkResult {d : FunctionDecl} {ts : List Ty} {t : Ty} (hts : r.KnowsAll ts)
    (ht : r.Knows t) : Safe Defers (do
      if let .param n _ := t then fail (.typing (.parameterReturned n)) d.span
      return (ts, t)) c fun x _ => r.KnowsAll x.1 ∧ r.Knows x.2 := by
  cases t with
  | param n bound => exact .fail_bind
  | _ => exact .pure ⟨hts, ht⟩

theorem safe_resolveSignature {d : FunctionDecl} (hr : c.registry = r) (hn : Named r c) :
    Safe Defers (resolveSignature d) c fun x _ => r.KnowsAll x.1 ∧ r.Knows x.2 := by
  unfold resolveSignature
  have hparams : Safe Defers (d.params.mapM resolveParam) c fun ts _ => True ∧ ∀ t ∈ ts, r.Knows t :=
    Safe.mapM (I := fun _ => True) (fun p _ c₁ h₁ _ =>
      (safe_resolveParam (h₁.registry.trans hr) (Named.defers hn h₁)).mono
        fun _ _ _ h => ⟨trivial, h⟩) trivial
  refine hparams.bind fun ts c₁ h₁ hts => ?_
  split
  · exact (safe_resolveType _ (h₁.registry.trans hr) (Named.defers hn h₁)).bind
      fun _ _ _ ht => safe_checkResult hts.2 ht
  · exact (Safe.pure (Registry.knows_prim (r := r) _)).bind fun _ _ _ ht => safe_checkResult hts.2 ht

theorem safe_checkOverload {name : String} {params : List Ty} {span : Span} {ids : List Nat}
    (hids : ∀ id ∈ ids, id < c.registry.functions.size) :
    Safe Drafts (checkOverload name params span ids) c fun _ c' => c' = c := by
  induction ids with
  | nil =>
    unfold checkOverload
    exact .pure rfl
  | cons id rest ih =>
    obtain ⟨hid, hrest⟩ := List.forall_mem_cons.mp hids
    obtain ⟨s, hs, _⟩ := Registry.exists_getFunction hid
    unfold checkOverload
    refine .askRegistry_bind hs ?_
    split
    · exact .fail_bind
    · exact ih hrest

/-- The signature is added under the next number. -/
theorem safe_addSignature {d : FunctionDecl} {owner : Owner} {params : List Ty} {result : Ty}
    {isAbstract : Bool} : Safe Drafts (addSignature d owner params result isAbstract) c
      fun id c' => id = c.registry.functions.size ∧ c' = { c with
        registry := pushFunction c.registry (signatureOf d owner params result isAbstract id) } := by
  have hyields : Safe Drafts (addSignature d owner params result isAbstract) c fun _ _ => True :=
    safe_modifyGet (.of_same rfl rfl rfl rfl rfl fun _ h => h) trivial
  exact hyields.traced.mono fun _ _ _ h => yields_addSignature.mp h.1

theorem safe_queueBody {id : Nat} {body : PendingBody} (hbody : body.Compilable c.registry) :
    Safe Drafts (queueBody id body) c fun _ c' => c' = { c with bodies := c.bodies.insert id body } := by
  refine safe_modify ⟨⟨rfl, rfl⟩, rfl, Nat.le_refl _, fun h => h, fun _ h => h, ?_,
    fun hc => hc.of_same rfl rfl⟩ rfl
  intro hc k b hb
  by_cases hk : id = k
  · have hb : (c.bodies.insert id body).find? k = some b := hb
    rw [hk, Table.find?_insert_self] at hb
    injection hb with hb
    exact hb ▸ hbody
  · exact hc k b ((Table.find?_insert_of_ne _ hk _).symm.trans hb)

/-- A registry to which a function of known types is added stays arranged. -/
theorem Arranged.pushFunction (hc : Arranged V ps c) {c' : Compilation} {s : Signature}
    (houter : c'.Outer V) (hr : c'.registry = Registration.pushFunction c.registry s)
    (hs : s.Known c.registry) (hid : s.id = c.registry.functions.size) : Arranged V ps c' where
  outer := houter
  closed := hr ▸ hc.closed.pushFunction hs hid
  pending p hp := hr ▸ hc.pending p hp
  hierarchy := by
    have hsame : SameHeaders c.registry c'.registry := hr ▸ fun _ => rfl
    exact hc.hierarchy.congr hsame

/-! ## Functions and methods -/

theorem find?_of_current {name : String} {e : Entry} (he : c.scopes.current.find? name = some e) :
    c.scopes.find? name = some e := by
  unfold Scopes.find?
  rw [Scopes.chain_eq, List.findSome?_cons, he]

theorem safe_registerFunction {path : String} {d : FunctionDecl} (hc : Arranged V ps c) :
    Safe Drafts (registerFunction path d) c fun _ c' => Arranged V ps c' := by
  have hstep : Safe Drafts (registerFunction path d) c fun _ c' => ∃ s : Signature,
      s.Known c.registry ∧ s.id = c.registry.functions.size ∧
        c'.registry = pushFunction c.registry s := by
    unfold registerFunction
    dsimp only
    split
    · exact .fail_bind
    split
    · exact .fail_bind
    rename_i hbody
    have hbody : d.body.isSome = true := by
      cases hd : d.body with
      | none => exact absurd (by rw [hd]; rfl) hbody
      | some _ => rfl
    refine (safe_resolveSignature rfl hc.outer.named).drafts.bind ?_
    rintro ⟨params, result⟩ c₁ h₁ ⟨hdefers, hparams, hresult⟩
    have hr₁ : c₁.registry = c.registry := hdefers.registry
    refine .get_bind ?_
    -- Whether there are overloads or not, the signature is added at the end.
    have hadd : Safe Drafts (do
        let id ← addSignature d (.module path) params result false
        queueBody id ⟨d, none, path⟩
        defineTopLevel d.name.name (.functions [id]) d.span) c₁ fun _ c' => ∃ s : Signature,
        s.Known c.registry ∧ s.id = c.registry.functions.size ∧
          c'.registry = pushFunction c.registry s := by
      refine safe_addSignature.bind ?_
      rintro _ _ - ⟨rfl, rfl⟩
      refine (safe_queueBody ⟨hbody, fun _ h => by cases h⟩).bind ?_
      rintro _ _ - rfl
      refine safe_defineTopLevel.traced.mono fun _ c' _ h => ?_
      refine ⟨signatureOf d (.module path) params result false c.registry.functions.size,
        ⟨hparams, hresult, fun _ h => by cases h⟩, rfl, ?_⟩
      rw [h.1.keeps (f := Compilation.registry), hr₁]
    split
    · rename_i ids span hfind
      have hids := (Named.defers hc.outer.named hdefers) _ _ (find?_of_current hfind)
      refine (safe_checkOverload (hr₁ ▸ hids.2)).bind ?_
      rintro _ _ - rfl
      exact hadd
    · exact hadd
  refine (hstep.outer hc.outer).mono ?_
  rintro _ _ _ ⟨houter, s, hs, hid, hr⟩
  exact hc.pushFunction houter hr hs hid

theorem safe_registerMethod {path : String} {owner : TypeHash} {d : FunctionDecl}
    (hc : Arranged V ps c) (howner : c.registry.Has owner) :
    Safe Drafts (registerMethod path owner d) c fun _ c' => Arranged V ps c' := by
  have hstep : Safe Drafts (registerMethod path owner d) c fun _ c' => ∃ s : Signature,
      s.Known c.registry ∧ s.id = c.registry.functions.size ∧
        c'.registry = pushFunction c.registry s := by
    unfold registerMethod
    dsimp only
    split
    · exact .fail_bind
    split
    · exact .fail_bind
    refine (safe_inClass (r := c.registry) (P := fun x => c.registry.KnowsAll x.1 ∧
      c.registry.Knows x.2) rfl hc.outer.named hc.closed howner fun c₁ hr hn =>
      safe_resolveSignature hr hn).drafts.bind ?_
    rintro ⟨params, result⟩ c₁ h₁ ⟨hdefers, hparams, hresult⟩
    have hr₁ : c₁.registry = c.registry := hdefers.registry
    refine safe_addSignature.bind ?_
    rintro _ _ - ⟨rfl, rfl⟩
    -- The types were resolved in the class, whose scope is closed again.
    have hsigned : ∃ s : Signature, s.Known c.registry ∧ s.id = c.registry.functions.size ∧
        pushFunction c₁.registry (signatureOf d (.classOf owner) params result d.isAbstract
          c₁.registry.functions.size) = pushFunction c.registry s := by
      refine ⟨signatureOf d (.classOf owner) params result d.isAbstract c.registry.functions.size,
        ⟨hparams, hresult, fun h heq => ?_⟩, rfl, by rw [hr₁]⟩
      injection heq with heq
      exact heq ▸ howner
    split
    · rename_i hbody
      refine (safe_queueBody ⟨hbody, fun h heq => ?_⟩).bind ?_
      · injection heq with heq
        exact heq ▸ h₁.classes _ howner
      · rintro _ _ - rfl
        exact .pure hsigned
    · exact .pure hsigned
  refine (hstep.outer hc.outer).mono ?_
  rintro _ _ _ ⟨houter, s, hs, hid, hr⟩
  exact hc.pushFunction houter hr hs hid

/-! ## Modules -/

/-- The classes among some items are in the innermost scope. -/
def Introduced (items : List Item) (c : Compilation) : Prop :=
  ∀ d, .classDecl d ∈ items →
    ∃ e h, c.scopes.current.find? d.name.name = some e ∧ e.meaning = .classOf h

theorem Introduced.mono {items : List Item} {c' : Compilation} (h : Introduced items c)
    (hc : Retained Scope.ClassesIn c c') : Introduced items c' := by
  intro d hd
  obtain ⟨e, k, he, hk⟩ := h d hd
  exact ⟨e, k, hc.current _ e k he hk, hk⟩

theorem safe_declaredClass {d : ClassDecl} (hc : c.Outer V)
    (hd : ∃ e h, c.scopes.current.find? d.name.name = some e ∧ e.meaning = .classOf h) :
    Safe Drafts (declaredClass d) c fun hash c' => c' = c ∧ c.registry.Has hash := by
  obtain ⟨⟨m, span⟩, h, he, rfl⟩ := hd
  have hregistered := hc.named _ _ (find?_of_current he)
  unfold declaredClass
  refine .get_bind ?_
  rw [he]
  exact .pure ⟨rfl, hregistered⟩

theorem safe_registerItem {path : String} {item : Item} {rest : List Item} (hc : Arranged V ps c)
    (hd : Introduced (item :: rest) c) :
    Safe Drafts (registerItem path item) c fun _ c' => Arranged V ps c' := by
  cases item with
  | function d =>
    unfold registerItem
    exact (safe_registerFunction hc).bind fun _ _ _ h => .pure h
  | classDecl d =>
    unfold registerItem
    refine (safe_declaredClass hc.outer (hd d List.mem_cons_self)).bind ?_
    rintro hash c₁ - ⟨rfl, hhash⟩
    refine (Safe.mapM (I := Arranged V ps) (P := fun _ => True) (fun m _ c₂ h₂ hc₂ => ?_)
      hc).bind fun _ _ _ h => .pure h.1
    exact (safe_registerMethod hc₂ (h₂.classes _ hhash)).mono fun _ _ _ h => ⟨h, trivial⟩
  | _ =>
    unfold registerItem
    exact .pure hc

theorem safe_registerItems {path : String} : ∀ {items : List Item} {c : Compilation},
    Arranged V ps c → Introduced items c →
      Safe Drafts (registerItems path items) c fun _ c' => Arranged V ps c'
  | [], c, hc, _ => by
    unfold registerItems
    exact .pure hc
  | item :: rest, c, hc, hd => by
    unfold registerItems
    refine (safe_registerItem hc hd).traced.bind fun x c₁ _ ⟨hstep, hc₁⟩ => ?_
    have hrest : Introduced rest c₁ := Introduced.mono (fun d hmem =>
      hd d (List.mem_cons_of_mem _ hmem)) (Retains.after hstep)
    exact (safe_registerItems hc₁ hrest).bind fun _ _ _ h => .pure h

/-- What is arranged in a module is arranged when the module is left. -/
theorem Arranged.safe_inModule {path : String} {body : CompileM α}
    [∀ b, Preserves (Compilation.Outside V b) body] (hc : Arranged V ps c)
    (hbody : Arranged V ps (c.entered path) →
      Safe Drafts body (c.entered path) fun _ c' => Arranged V ps c') :
    Safe Drafts (inModule path body) c fun _ c' => Arranged V ps c' := by
  have hentered : Arranged V ps (c.entered path) :=
    ⟨⟨hc.outer.entered path, hc.closed, hc.pending⟩, hc.hierarchy⟩
  have hstep : Safe Drafts (inModule path body) c fun _ c' => c'.registry.Closed ∧
      (∀ p ∈ ps, c'.registry.Has p.hash) ∧ Hierarchy c'.registry :=
    CompileM.safe_inModule (hbody hentered) fun _ _ _ h => ⟨h.closed, h.pending, h.hierarchy⟩
  exact (hstep.outer hc.outer).mono fun _ _ _ ⟨houter, hclosed, hpending, hhier⟩ =>
    ⟨⟨houter, hclosed, hpending⟩, hhier⟩

theorem introduced_entered {m : Module} {ms : List Module} (hm : m ∈ ms) (hd : c.Declares ms) :
    Introduced m.items (c.entered m.path) := by
  intro d hmem
  obtain ⟨e, h, he, hmeaning⟩ := hd m hm d hmem
  exact ⟨e, h, he, hmeaning⟩

theorem safe_registerModules : ∀ {ms : List Module} {c : Compilation}, Arranged V ps c →
    c.Declares ms → Safe Drafts (registerModules ms) c fun _ c' => Arranged V ps c'
  | [], c, hc, _ => by
    unfold registerModules
    exact .pure hc
  | m :: ms, c, hc, hd => by
    unfold registerModules
    refine (hc.safe_inModule fun hentered => safe_registerItems hentered
      (introduced_entered List.mem_cons_self hd)).traced.bind fun x c₁ _ ⟨hstep, hc₁⟩ => ?_
    have hrest : c₁.Declares ms := Compilation.Declares.mono (fun k hk =>
      hd k (List.mem_cons_of_mem _ hk)) (Retains.after hstep)
    exact (safe_registerModules hc₁ hrest).bind fun _ _ _ h => .pure h

end CompileM

end ClassLang
