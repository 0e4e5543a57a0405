import ClassLang.Proofs.Diagnostics.Statements
import ClassLang.Proofs.Registration.Traversal

/-!
# Programs agree

Registration and the compilation of bodies agree from states of one outline, and the states that two
compilations start in have one outline when their options differ in nothing but whether results are
written straight into their destination.
-/

-- The instances of long steps are large terms.
set_option synthInstance.maxSize 1000

namespace ClassLang

open CompileM Lowering

namespace CompileM

variable {α : Type} [Blur α]

/-! ## Modules -/

theorem agree_set {c d : Compilation} (h : c.outline = d.outline) : Agree (set c) (set d) :=
  ⟨fun _ _ _ => ⟨rfl, h⟩⟩

/-- What is seen of a state once a module is entered. -/
theorem outline_enter {c d : Compilation} (path : String) (h : c.outline = d.outline) :
    Compilation.outline { c with
      scopes := c.scopes.push ((c.moduleScopes.find? path).getD (.opened (.module path)))
      path := path } =
    Compilation.outline { d with
      scopes := d.scopes.push ((d.moduleScopes.find? path).getD (.opened (.module path)))
      path := path } := by
  have hentered : ∀ c : Compilation, Compilation.outline { c with
      scopes := c.scopes.push ((c.moduleScopes.find? path).getD (.opened (.module path)))
      path := path } = { c.outline with
        scopes := c.outline.scopes.push
          ((c.outline.moduleScopes.find? path).getD (.opened (.module path)))
        path := path } := by
    intro c
    have hscope : blur ((c.moduleScopes.find? path).getD (.opened (.module path))) =
        (c.outline.moduleScopes.find? path).getD (.opened (.module path)) := by
      rw [show c.outline.moduleScopes.find? path = (c.moduleScopes.find? path).map blur from
        Table.find?_mapValues blur c.moduleScopes path]
      cases c.moduleScopes.find? path <;> rfl
    rw [← hscope]
    rfl
  rw [hentered, hentered, h]

instance (path : String) : Agree (noteFailure path) (noteFailure path) :=
  agree_modify (fun s => { s with failedPath := s.failedPath.or (some path) }) (fun _ => rfl)
    fun _ => rfl

instance agree_inModule {m n : CompileM α} (path : String) [Agree m n] :
    Agree (inModule path m) (inModule path n) := by
  unfold inModule
  refine .bind fun c d h => ?_
  have hdepth : c.scopes.depth = d.scopes.depth := Scopes.depth_of_alike h.scopes.eq
  have := agree_set (outline_enter path h.eq)
  have hleave : ∀ scope scope' scopes scopes', Alike scope scope' → Alike scopes scopes' →
      Agree (modify fun s => { s with
        scopes := scopes
        moduleScopes := s.moduleScopes.insert path scope
        path := c.path } : CompileM PUnit) (modify fun s => { s with
        scopes := scopes'
        moduleScopes := s.moduleScopes.insert path scope'
        path := d.path }) := by
    intro scope scope' scopes scopes' hscope hscopes
    have hleft : ∀ (scope : Scope) (scopes : Scopes) (path' : String) (s : Compilation),
        Compilation.outline { s with
          scopes := scopes
          moduleScopes := s.moduleScopes.insert path scope
          path := path' } = { s.outline with
            scopes := blur scopes
            moduleScopes := s.outline.moduleScopes.insert path (blur scope)
            path := path' } := fun scope scopes path' s =>
      congrArg (fun t => ({ s.outline with scopes := blur scopes, moduleScopes := t, path := path' } :
        Compilation)) (Table.mapValues_insert blur s.moduleScopes path scope)
    refine agree_modify (fun t => { t with
      scopes := blur scopes
      moduleScopes := t.moduleScopes.insert path (blur scope)
      path := c.path }) (hleft scope scopes c.path) fun s => ?_
    rw [hleft, hscope.eq, hscopes.eq, h.path]
  have hclose : ∀ r r' : Except CompileError α, Alike r r' → Agree (do
        modifyScopes (·.truncate (d.scopes.depth + 1))
        let (scope, scopes) ← conclude (← get).scopes.pop
        modify fun s => { s with
          scopes := scopes
          moduleScopes := s.moduleScopes.insert path scope
          path := c.path }
        conclude r) (do
        modifyScopes (·.truncate (d.scopes.depth + 1))
        let (scope, scopes) ← conclude (← get).scopes.pop
        modify fun s => { s with
          scopes := scopes
          moduleScopes := s.moduleScopes.insert path scope
          path := d.path }
        conclude r') := by
    intro r r' hr
    refine .bind fun _ _ _ => .bind fun s t hst => ?_
    have : Alike s.scopes.pop t.scopes.pop :=
      ⟨by rw [← Scopes.pop_blur, hst.scopes.eq, Scopes.pop_blur]⟩
    refine .bind fun (scope, scopes) (scope', scopes') hpop => ?_
    have heq := hpop.eq
    injection heq with hscope hscopes
    have := hleave _ _ _ _ ⟨hscope⟩ ⟨hscopes⟩
    infer_instance
  dsimp only
  rw [hdepth]
  refine .bind fun _ _ _ => .bind fun r r' hr => ?_
  have := hclose r r' hr
  rcases r with e | a <;> rcases r' with e' | b
  · infer_instance
  · cases hr.eq
  · cases hr.eq
  · infer_instance

instance (f : Registry → Registry) : Agree (modifyRegistry f) (modifyRegistry f) :=
  agree_modify (fun c => { c with registry := f c.registry }) (fun _ => rfl) fun _ => rfl

instance (hash : TypeHash) (f : Class → Class) :
    Agree (modifyClass hash f) (modifyClass hash f) := by
  unfold modifyClass
  infer_instance

instance [Exact α] (f : Registry → α × Registry) : Agree (updateRegistry f) (updateRegistry f) :=
  agree_modifyGet (fun c => ((f c.registry).1, { c with registry := (f c.registry).2 }))
    (fun _ => Prod.ext (Exact.eq _) rfl) fun _ => Prod.ext (Exact.eq _) rfl

instance (name : String) (d d' : Meaning) (span : Span) [h : Alike d d'] :
    Agree (defineTopLevel name d span) (defineTopLevel name d' span) := by
  have hglobal : Agree (updateScopes (·.defineGlobal name d span))
      (updateScopes (·.defineGlobal name d' span)) := by
    have hblur : ∀ (s : Scopes) (d : Meaning), blur (s.defineGlobal name d span) =
        (blur s).defineGlobal name (blur d) span := by
      intro s d
      unfold Scopes.defineGlobal
      show _ = ((blur s.global).define name (blur d) span >>= _)
      rw [Scope.define_blur]
      cases s.global.define name d span <;> rfl
    exact agree_updateScopes fun s s' hs => by rw [hblur, hs, h.eq, hblur]
  unfold defineTopLevel
  infer_instance

end CompileM

instance (hash : TypeHash) : Agree (defineTemplates hash) (defineTemplates hash) := by
  unfold defineTemplates
  infer_instance

instance {α : Type} [Blur α] (hash : TypeHash) (m n : CompileM α) [Agree m n] :
    Agree (inClass hash m) (inClass hash n) := by
  unfold inClass
  infer_instance

/-- What the innermost scope says of a name. -/
theorem current_of_alike {c d : Compilation} (h : Alike c d) (name : String) :
    Alike (c.scopes.current.find? name) (d.scopes.current.find? name) := by
  have hfind : ∀ s : Scope, blur (s.find? name) = (blur s).find? name := fun s =>
    (Table.find?_mapValues blur s.entries name).symm
  refine ⟨?_⟩
  rw [hfind, hfind, ← Scopes.current_blur, h.scopes.eq, Scopes.current_blur]

/-- Entries that look alike are the same, or stand for variables. -/
theorem Alike.entry_cases {e e' : Option Entry} (h : Alike e e') :
    e = e' ∨ ∃ b b' span, e = some ⟨.variable b, span⟩ ∧ e' = some ⟨.variable b', span⟩ := by
  have heq := h.eq
  rcases e with _ | ⟨d, span⟩ <;> rcases e' with _ | ⟨d', span'⟩
  · exact .inl rfl
  · cases heq
  · cases heq
  · injection heq with heq
    injection heq with hd hspan
    subst hspan
    have hmeaning : Alike d d' := ⟨hd⟩
    exact hmeaning.meaning_cases (P := fun d d' => some (Entry.mk d span) = some (Entry.mk d' span) ∨
      ∃ b b' definedAt, some (Entry.mk d span) = some ⟨.variable b, definedAt⟩ ∧
        some (Entry.mk d' span) = some ⟨.variable b', definedAt⟩)
      (fun d => .inl rfl) fun t a b isConst definedAt => .inr ⟨_, _, _, rfl, rfl⟩

namespace Registration

/-! ## Headers -/

instance (id : Nat) (body : PendingBody) : Agree (queueBody id body) (queueBody id body) :=
  agree_modify (fun c => { c with bodies := c.bodies.insert id body }) (fun _ => rfl) fun _ => rfl

instance (name : Ident) : Agree (requireNative name) (requireNative name) := by
  unfold requireNative
  split
  · infer_instance
  · refine .bind fun c d h => ?_
    obtain heq | ⟨b, b', span, hb, hb'⟩ := (current_of_alike h name.name).entry_cases
    · dsimp only
      rw [heq]
      infer_instance
    · dsimp only
      rw [hb, hb']
      simp only [Option.map_some, ne_eq, Option.some.injEq, reduceCtorEq, not_false_eq_true, if_true]
      infer_instance

instance (path : String) (d : ClassDecl) : Agree (declareClass path d) (declareClass path d) := by
  unfold declareClass
  refine .bind fun c d h => ?_
  rw [h.registry]
  dsimp only
  split <;> infer_instance

instance agree_declareItems (path : String) :
    ∀ items : List Item, Agree (declareItems path items) (declareItems path items)
  | [] => by
    unfold declareItems
    infer_instance
  | item :: rest => by
    have := agree_declareItems path rest
    cases item <;> unfold declareItems <;> infer_instance

instance agree_declareModules : ∀ ms : List Module, Agree (declareModules ms) (declareModules ms)
  | [] => by
    unfold declareModules
    infer_instance
  | m :: ms => by
    have := agree_declareModules ms
    unfold declareModules
    infer_instance

instance (t : TemplateDecl) : Agree (templateParam t) (templateParam t) := by
  unfold templateParam
  split
  · infer_instance
  · refine @agree_bind_exact _ _ _ _ _ _ _ _ _ _ fun type => ?_
    split <;> infer_instance

instance (p : PendingClass) : Agree (resolveTemplates p) (resolveTemplates p) := by
  unfold resolveTemplates
  infer_instance

instance (p : PendingClass) : Agree (resolveBases p) (resolveBases p) := by
  unfold resolveBases
  refine @agree_inModule _ _ _ _ _ (@agree_bind_exact _ _ _ _ _ _ _ _ _ _ fun written => ?_)
  dsimp only
  split <;> infer_instance

instance (classes : List PendingClass) : Agree (resolveHeaders classes) (resolveHeaders classes) := by
  have hdefer : ∀ b, Agree (modify fun s => { s with deferring := b } : CompileM PUnit)
      (modify fun s => { s with deferring := b }) :=
    fun b => agree_modify (fun s => { s with deferring := b }) (fun _ => rfl) fun _ => rfl
  unfold resolveHeaders
  infer_instance

instance agree_linearizeFrom (bases : Linearization.Bases) :
    ∀ (ps : List PendingClass) (memo : Linearization.Memo),
      Agree (linearizeFrom bases ps memo) (linearizeFrom bases ps memo)
  | [], memo => by
    unfold linearizeFrom
    infer_instance
  | p :: rest, memo => by
    have := agree_linearizeFrom bases rest
    unfold linearizeFrom
    split <;> infer_instance

instance (classes : List PendingClass) : Agree (linearizeAll classes) (linearizeAll classes) := by
  unfold linearizeAll
  infer_instance

instance : Agree checkDeferred checkDeferred := by
  have hclear : Agree (modify fun s => { s with deferred := [] } : CompileM PUnit)
      (modify fun s => { s with deferred := [] }) :=
    agree_modify (fun s => { s with deferred := [] }) (fun _ => rfl) fun _ => rfl
  unfold checkDeferred
  refine .bind fun c d h => ?_
  have hdeferred : c.deferred = d.deferred := by
    have heq : c.outline = d.outline := h.eq
    show c.outline.deferred = d.outline.deferred
    rw [heq]
  dsimp only
  rw [hdeferred]
  infer_instance

/-! ## Members -/

instance (p : PendingClass) : Agree (inheritArgs p) (inheritArgs p) := by
  unfold inheritArgs
  infer_instance

instance (t : Ty) (name : String) (span : Span) :
    Agree (requireStorable t name span) (requireStorable t name span) := by
  unfold requireStorable
  split <;> infer_instance

instance (f : FieldDecl) : Agree (resolveField f) (resolveField f) := by
  unfold resolveField
  infer_instance

instance (p : PendingClass) : Agree (layoutPlan p) (layoutPlan p) := by
  unfold layoutPlan
  infer_instance

instance (plan : LayoutPlan) : Agree (layOutClass plan) (layOutClass plan) := by
  unfold layOutClass
  infer_instance

instance agree_layOutWithin (plans : Table TypeHash LayoutPlan) :
    ∀ (n : Nat) (visiting done : List TypeHash) (hash : TypeHash),
      Agree (layOutWithin plans n visiting done hash) (layOutWithin plans n visiting done hash)
  | 0, _, _, _ => by
    unfold layOutWithin
    infer_instance
  | n + 1, visiting, done, hash => by
    have := agree_layOutWithin plans n
    unfold layOutWithin
    dsimp only
    split
    · infer_instance
    · split
      · infer_instance
      · split <;> infer_instance

instance (classes : List PendingClass) : Agree (layOutAll classes) (layOutAll classes) := by
  unfold layOutAll
  infer_instance

instance (p : Param) : Agree (resolveParam p) (resolveParam p) := by
  unfold resolveParam
  infer_instance

instance (d : FunctionDecl) : Agree (resolveSignature d) (resolveSignature d) := by
  unfold resolveSignature
  refine @agree_bind_exact _ _ _ _ _ _ _ _ _ _ fun params => ?_
  dsimp only
  split
  · refine @agree_bind_exact _ _ _ _ _ _ _ _ _ _ fun result => ?_
    split <;> infer_instance
  · refine @agree_bind_exact _ _ _ _ _ _ _ _ _ _ fun result => ?_
    split <;> infer_instance

instance (d : FunctionDecl) (owner : Owner) (params : List Ty) (result : Ty) (isAbstract : Bool) :
    Agree (addSignature d owner params result isAbstract)
      (addSignature d owner params result isAbstract) := by
  unfold addSignature
  infer_instance

instance agree_checkOverload (name : String) (params : List Ty) (span : Span) :
    ∀ ids : List Nat, Agree (checkOverload name params span ids) (checkOverload name params span ids)
  | [] => by
    unfold checkOverload
    infer_instance
  | id :: rest => by
    have := agree_checkOverload name params span rest
    unfold checkOverload
    infer_instance

instance (path : String) (d : FunctionDecl) :
    Agree (registerFunction path d) (registerFunction path d) := by
  have hadd : ∀ params result, Agree (do
      if let some ⟨.functions ids, _⟩ := (← get).scopes.current.find? d.name.name then
        checkOverload d.name.name params d.span ids
      let id ← addSignature d (.module path) params result false
      queueBody id ⟨d, none, path⟩
      defineTopLevel d.name.name (.functions [id]) d.span : CompileM Unit) (do
      if let some ⟨.functions ids, _⟩ := (← get).scopes.current.find? d.name.name then
        checkOverload d.name.name params d.span ids
      let id ← addSignature d (.module path) params result false
      queueBody id ⟨d, none, path⟩
      defineTopLevel d.name.name (.functions [id]) d.span) := by
    intro params result
    refine .bind fun s t h => ?_
    obtain heq | ⟨b, b', span, hb, hb'⟩ := (current_of_alike h d.name.name).entry_cases
    · dsimp only
      rw [heq]
      split <;> infer_instance
    · dsimp only
      rw [hb, hb']
      infer_instance
  unfold registerFunction
  dsimp only
  infer_instance

instance (path : String) (owner : TypeHash) (d : FunctionDecl) :
    Agree (registerMethod path owner d) (registerMethod path owner d) := by
  unfold registerMethod
  dsimp only
  infer_instance

instance (d : ClassDecl) : Agree (declaredClass d) (declaredClass d) := by
  unfold declaredClass
  refine .bind fun s t h => ?_
  obtain heq | ⟨b, b', span, hb, hb'⟩ := (current_of_alike h d.name.name).entry_cases
  · rw [heq]
    split <;> infer_instance
  · rw [hb, hb']
    infer_instance

instance (path : String) (item : Item) : Agree (registerItem path item) (registerItem path item) := by
  cases item <;> unfold registerItem <;> infer_instance

instance agree_registerItems (path : String) :
    ∀ items : List Item, Agree (registerItems path items) (registerItems path items)
  | [] => by
    unfold registerItems
    infer_instance
  | item :: rest => by
    have := agree_registerItems path rest
    unfold registerItems
    infer_instance

instance agree_registerModules : ∀ ms : List Module, Agree (registerModules ms) (registerModules ms)
  | [] => by
    unfold registerModules
    infer_instance
  | m :: ms => by
    have := agree_registerModules ms
    unfold registerModules
    infer_instance

instance (p : PendingClass) (own : List OwnMethod) :
    Agree (buildMethodTable p own) (buildMethodTable p own) := by
  unfold buildMethodTable
  infer_instance

instance (methods : List (TypeHash × OwnMethod)) (classes : List PendingClass) :
    Agree (buildMethodTables methods classes) (buildMethodTables methods classes) := by
  unfold buildMethodTables
  infer_instance

instance : Agree assignLinkNames assignLinkNames := by
  unfold assignLinkNames
  infer_instance

/-! ## Globals -/

instance (n : Nat) : Agree (updateFrame (·.allocGlobal n)) (updateFrame (·.allocGlobal n)) :=
  agree_modifyGet (fun c => (.frame 0, { c with frame := (c.frame.allocGlobal n).2 }))
    (fun _ => rfl) fun _ => rfl

instance (path : String) (d : VarDecl) : Agree (registerGlobal path d) (registerGlobal path d) := by
  have hpush : ∀ g g' : PendingGlobal, blur g = blur g' →
      Agree (modify fun s => { s with globals := s.globals ++ [g] } : CompileM PUnit)
        (modify fun s => { s with globals := s.globals ++ [g'] }) := by
    intro g g' h
    have hleft : ∀ (g : PendingGlobal) (s : Compilation),
        Compilation.outline { s with globals := s.globals ++ [g] } =
          { s.outline with globals := s.outline.globals ++ [blur g] } := fun g s =>
      congrArg (fun gs => ({ s.outline with globals := gs } : Compilation)) List.map_append
    refine agree_modify (fun s => { s with globals := s.globals ++ [blur g] }) (hleft g) fun s => ?_
    rw [hleft, h]
  have := fun t a b init path => hpush ⟨a, t, init, path⟩ ⟨b, t, init, path⟩ rfl
  unfold registerGlobal
  dsimp only
  infer_instance

instance agree_registerGlobals (path : String) :
    ∀ items : List Item, Agree (registerGlobals path items) (registerGlobals path items)
  | [] => by
    unfold registerGlobals
    infer_instance
  | item :: rest => by
    have := agree_registerGlobals path rest
    cases item <;> unfold registerGlobals <;> infer_instance

instance agree_registerAllGlobals : ∀ ms : List Module,
    Agree (registerAllGlobals ms) (registerAllGlobals ms)
  | [] => by
    unfold registerAllGlobals
    infer_instance
  | m :: ms => by
    have := agree_registerAllGlobals ms
    unfold registerAllGlobals
    infer_instance

instance (p : Program) : Agree (run p) (run p) := by
  unfold run
  infer_instance

end Registration

namespace Bodies

/-! ## Bodies -/

instance : Agree (modifyFrame (·.beginFunction)) (modifyFrame (·.beginFunction)) :=
  agree_modify (fun c => { c with frame := { c.frame with top := 0, blocks := [], code := #[] } })
    (fun _ => rfl) fun _ => rfl

instance : Agree (updateFrame (·.takeCode)) (updateFrame (·.takeCode)) :=
  agree_modifyGet (fun c => (#[], c)) (fun _ => rfl) fun _ => rfl

instance (name : String) (t : Ty) (a b : Address) (isConst : Bool) (span : Span) :
    Agree (updateScopes (·.defineVariable name t a isConst span))
      (updateScopes (·.defineVariable name t b isConst span)) :=
  (inferInstance : Agree (define name (.variable ⟨t, a, isConst, span⟩) span)
    (define name (.variable ⟨t, b, isConst, span⟩) span))

instance agree_defineParams : ∀ (names : List String) (ts : List Ty) (ps : List Param),
    Agree (defineParams names ts ps) (defineParams names ts ps)
  | name :: names, t :: ts, p :: ps => by
    have := agree_defineParams names ts ps
    unfold defineParams
    infer_instance
  | [], _, _ => by
    unfold defineParams
    infer_instance
  | _ :: _, [], _ => by
    unfold defineParams
    infer_instance
  | _ :: _, _ :: _, [] => by
    unfold defineParams
    infer_instance

instance (owner : TypeHash) (span : Span) :
    Agree (defineReceiver owner span) (defineReceiver owner span) := by
  unfold defineReceiver
  infer_instance

instance (s : Signature) (body : PendingBody) (block : List Stmt) :
    Agree (bodyCode s body block) (bodyCode s body block) := by
  unfold bodyCode
  dsimp only
  split <;> infer_instance

instance (s : Signature) (block : List Stmt) (span : Span) :
    Agree (finishBody s block span) (finishBody s block span) := by
  unfold finishBody
  infer_instance

instance (f f' : Section) : Agree
    (modify fun st => { st with listing := st.listing.addFunction f } : CompileM PUnit)
    (modify fun st => { st with listing := st.listing.addFunction f' }) :=
  agree_modify id (fun _ => rfl) fun _ => rfl

instance (id : Nat) (body : PendingBody) : Agree (compileBody id body) (compileBody id body) := by
  unfold compileBody
  refine @agree_bind_exact _ _ _ _ _ _ _ _ _ _ fun s => ?_
  split <;> infer_instance

instance agree_compileBodies : ∀ ids : List Nat, Agree (compileBodies ids) (compileBodies ids)
  | [] => by
    unfold compileBodies
    infer_instance
  | id :: rest => by
    have := agree_compileBodies rest
    unfold compileBodies
    refine .bind fun c d h => ?_
    rw [h.bodies]
    split <;> infer_instance

/-! ## The entry section -/

theorem agree_initGlobal {g g' : PendingGlobal} (h : Alike g g') :
    Agree (initGlobal g) (initGlobal g') := by
  obtain ⟨a, t, init, path⟩ := g
  obtain ⟨a', t', init', path'⟩ := g'
  have heq := h.eq
  injection heq with _ ht hinit hpath
  subst ht hinit hpath
  unfold initGlobal
  dsimp only
  cases init <;> infer_instance

instance : Agree entryPoint entryPoint := by
  unfold entryPoint
  refine .bind fun c d h => ?_
  dsimp only
  rw [h.entryPoint]
  refine .bind fun s t hst => ?_
  have hentry : Alike (s.scopes.find? d.options.entryPoint) (t.scopes.find? d.options.entryPoint) :=
    ⟨by rw [← Scopes.find?_blur, hst.scopes.eq, Scopes.find?_blur]⟩
  obtain heq | ⟨b, b', span, hb, hb'⟩ := hentry.entry_cases
  · rw [heq]
    split
    · infer_instance
    · refine @agree_bind_exact _ _ _ _ _ _ _ _ _ _ fun overloads => ?_
      split <;> infer_instance
    · infer_instance
  · rw [hb, hb']
    infer_instance

instance : Agree compileEntry compileEntry := by
  have hentry : ∀ code code' : Array Instr, Agree
      (modify fun st => { st with listing := { st.listing with entry := code } } : CompileM PUnit)
      (modify fun st => { st with listing := { st.listing with entry := code' } }) :=
    fun _ _ => agree_modify id (fun _ => rfl) fun _ => rfl
  have hargv : ∀ a b, Agree (emit (.argv a)) (emit (.argv b)) := fun _ _ => agree_unnoticed
  unfold compileEntry
  refine .bind fun _ _ _ => .bind fun c d h => ?_
  have := agree_forM (fun _ _ => agree_initGlobal) h.globals
  infer_instance

instance : Agree run run := by
  unfold run
  refine .bind fun c d h => ?_
  rw [h.registry]
  infer_instance

end Bodies

instance (p : Program) : Agree (compileProgram p) (compileProgram p) := by
  unfold compileProgram
  infer_instance

/-! ## Whole compilations -/

/-- The state that a program is compiled to. -/
def compilation (o : Options) (p : Program) : Except Failure Compilation :=
  match Compilation.start o with
  | .error e => .error ⟨"", e⟩
  | .ok c =>
    match (compileProgram p).run.run c with
    | (.ok (), c) => .ok c
    | (.error e, c) => .error ⟨c.failedPath.getD "", e⟩

/-- What is said about a program, and what is shared by all code that it could be compiled to. -/
structure Diagnosis where
  warnings : List Warning
  registry : Registry
  literals : Array UInt8
  globalLength : Nat

/-- What is said about the program that was compiled. -/
def Compilation.diagnosis (c : Compilation) : Diagnosis :=
  ⟨c.warnings.toList, c.registry, c.literals.bytes, c.frame.globalLength⟩

section Outline

variable {c d : Compilation} (h : c.outline = d.outline)

include h

theorem diagnosis_of_outline : c.diagnosis = d.diagnosis := by
  show c.outline.diagnosis = d.outline.diagnosis
  rw [h]

theorem failedPath_of_outline : c.failedPath = d.failedPath := by
  show c.outline.failedPath = d.outline.failedPath
  rw [h]

end Outline

theorem compile_eq_compilation (o : Options) (p : Program) :
    compile o p = (compilation o p).map Compilation.finish := by
  unfold compile compilation
  cases Compilation.start o with
  | error e => rfl
  | ok c =>
    dsimp only
    rcases (compileProgram p).run.run c with ⟨_ | _, _⟩ <;> rfl

theorem start_optimize (o : Options) (b : Bool) :
    Compilation.start { o with optimize := b } =
      (Compilation.start o).map fun c => { c with options := { o with optimize := b } } := by
  unfold Compilation.start
  have hvalid : Options.validate { o with optimize := b } = o.validate := rfl
  rw [hvalid]
  cases o.validate with
  | error e => rfl
  | ok _ => cases Compilation.initialScopes <;> rfl

/-- Whether results are written straight into their destination changes no diagnosis: with and
without a program fails in the same way, or is compiled with the same warnings, the same registry,
the same literals and as many bytes of globals. -/
theorem optimize_changes_no_diagnosis (o : Options) (p : Program) :
    (∀ b, compile { o with optimize := b } p =
      (compilation { o with optimize := b } p).map Compilation.finish) ∧
    (compilation { o with optimize := true } p).map Compilation.diagnosis =
      (compilation { o with optimize := false } p).map Compilation.diagnosis := by
  refine ⟨fun b => compile_eq_compilation _ p, ?_⟩
  unfold compilation
  rw [start_optimize o true, start_optimize o false]
  cases Compilation.start o with
  | error e => rfl
  | ok c =>
    have hagree : Agree (compileProgram p) (compileProgram p) := inferInstance
    obtain ⟨houtcome, hstate⟩ := hagree.out { c with options := { o with optimize := true } }
      { c with options := { o with optimize := false } } rfl
    dsimp only [Except.map]
    rcases hc : (compileProgram p).run.run { c with options := { o with optimize := true } } with
      ⟨e | _, c₁⟩ <;>
    rcases hd : (compileProgram p).run.run { c with options := { o with optimize := false } } with
      ⟨e' | _, d₁⟩ <;> rw [hc, hd] at houtcome hstate
    · injection houtcome with he
      subst he
      have hpath : c₁.failedPath = d₁.failedPath := failedPath_of_outline hstate
      dsimp only
      rw [hpath]
    · cases houtcome
    · cases houtcome
    · exact congrArg Except.ok (diagnosis_of_outline hstate)

end ClassLang
