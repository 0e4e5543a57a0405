import ClassLang.Proofs.Lowering.Scopes
import ClassLang.Proofs.Safety.Expressions

/-!
# Statements are safe

A statement changes the state as an expression does, and it may add names to the innermost scope.
What it adds are variables with storage of their own, so expressions can be compiled after it.
Inside of a scope of its own a statement is to what surrounds it no more than an expression: the
names are gone when the scope is left, and so is the storage.
-/

namespace ClassLang

open CompileM Lowering

/-- A definition can only fail at a position. -/
theorem Scopes.isLocated_of_define {s : Scopes} {name : String} {d : Meaning} {span : Span}
    {e : CompileError} (h : s.define name d span = .error e) : e.isLocated = true := by
  have hscope : ∀ {scope : Scope}, scope.define name d span = .error e → e.isLocated = true := by
    intro scope h
    unfold Scope.define at h
    split at h
    · cases h
    · cases h
    · injection h with h
      exact h ▸ rfl
  have hglobal : ∀ {scope : Scope} {f : Scope → Scopes},
      (do return f (← scope.define name d span)) = Except.error e → e.isLocated = true := by
    intro scope f h
    rcases except_bind_eq_error.mp h with h | ⟨_, _, h⟩
    · exact hscope h
    · cases h
  obtain ⟨global, _ | ⟨first, rest⟩⟩ := s
  · exact hglobal h
  · exact hglobal h

namespace CompileM

variable {α : Type} {r : Registry} {c : Compilation}

/-! ## How a statement changes the state -/

/-- The change is that of an expression, but for names in the innermost scope. -/
structure Proceeds (c c' : Compilation) : Prop where
  scopes : ∃ scope, scope.kind = c.scopes.current.kind ∧ c'.scopes = c.scopes.replace scope
  context : c'.context = { c.context with scopes := c'.scopes }
  extent : c.extent.Le c'.extent
  literals : c.literals.Inside → c'.literals.Inside
  blocks : c'.frame.depth = c.frame.depth
  registers : c'.frame.freeRegisters = c.frame.freeRegisters

theorem Extends.proceeds {c' : Compilation} (h : Extends c c') : Proceeds c c' where
  scopes := ⟨_, rfl, by rw [h.scopes, Scopes.replace_current]⟩
  context := by
    rw [h.context, h.scopes]
    rfl
  extent := h.extent
  literals := h.literals
  blocks := h.blocks
  registers := h.registers

theorem Proceeds.kinds {c' : Compilation} (h : Proceeds c c') :
    c'.scopes.kinds = c.scopes.kinds := by
  obtain ⟨scope, hkind, hscopes⟩ := h.scopes
  rw [hscopes, Scopes.kinds_replace hkind]

instance : Steady Proceeds where
  refl c := (Steady.refl c : Extends c c).proceeds
  trans {c c₁ c₂} h₁ h₂ := by
    obtain ⟨scope₁, hkind₁, hscopes₁⟩ := h₁.scopes
    obtain ⟨scope₂, hkind₂, hscopes₂⟩ := h₂.scopes
    refine
      { scopes := ⟨scope₂, ?_, by rw [hscopes₂, hscopes₁, Scopes.replace_replace]⟩
        context := by rw [h₂.context, h₁.context]
        extent := ?_
        literals := fun h => h₂.literals (h₁.literals h)
        blocks := h₂.blocks.trans h₁.blocks
        registers := h₂.registers.trans h₁.registers }
    · rw [hkind₂, hscopes₁, Scopes.current_replace, hkind₁]
    · exact ⟨Nat.le_trans h₁.extent.top h₂.extent.top,
        Nat.le_trans h₁.extent.globalLength h₂.extent.globalLength,
        Nat.le_trans h₁.extent.literalLength h₂.extent.literalLength⟩
  depth h := by
    obtain ⟨scope, _, hscopes⟩ := h.scopes
    exact ⟨h.blocks, by rw [hscopes, Scopes.depth_replace]⟩

/-- A step as of an expression leaves the state ready for statements. -/
theorem Safe.stays {m : CompileM α} {Q : α → Compilation → Prop} (hc : Ready r c)
    (h : Safe Extends m c Q) : Safe Proceeds m c fun a c' => Ready r c' ∧ Q a c' :=
  (h.mono fun _ _ hx hQ => ⟨hc.after hx, hQ⟩).widen fun _ => Extends.proceeds

/-! ## Scopes -/

/-- A step in a new scope with a block of its own. -/
theorem safe_inScope {R R₀ : Compilation → Compilation → Prop} {kind : ScopeKind}
    {body : CompileM α} {Q₀ Q : α → Compilation → Prop}
    (hbody : Safe R₀ body
      { c with scopes := c.scopes.enter kind, frame := c.frame.pushBlock.2 } Q₀)
    (hdepth : ∀ c₁, R₀ { c with scopes := c.scopes.enter kind, frame := c.frame.pushBlock.2 } c₁ →
      SameDepth { c with scopes := c.scopes.enter kind, frame := c.frame.pushBlock.2 } c₁)
    (hleft : ∀ a c₁,
      R₀ { c with scopes := c.scopes.enter kind, frame := c.frame.pushBlock.2 } c₁ →
      Q₀ a c₁ → R c (left c c₁) ∧ Q a (left c c₁)) :
    Safe R (inScope kind body) c Q := by
  refine .bracket (fun _ c₁ => left c c₁) hbody hdepth (emissions_inScope kind body c) ?_ hleft ?_
  · intro o c₁ hrun hsame
    exact run_inScope hrun hsame.blocks
  · intro e c₁ hsame
    refine ⟨depth_closed hsame.blocks, ?_⟩
    have hlength : c₁.scopes.inner.length + 1 = c.scopes.inner.length + 1 + 1 := hsame.scopes
    show (c₁.scopes.inner.drop (c₁.scopes.inner.length - (c.scopes.inner.length + 1 - 1))).length
      + 1 = c.scopes.inner.length + 1
    rw [List.length_drop]
    omega

/-- When a scope is left, nothing of what statements did to it stays. -/
theorem extends_left {kind : ScopeKind} {c₁ : Compilation} (h : Proceeds (inside kind c) c₁) :
    Extends c (left c c₁) := by
  have hscopes : c₁.scopes.truncate c.scopes.depth = c.scopes := by
    obtain ⟨scope, _, hscopes⟩ := h.scopes
    rw [hscopes]
    exact Scopes.truncate_replace_push c.scopes _ scope
  exact
    { context := by
        have hcontext := congrArg (fun k : Compilation => { k with scopes := c.scopes }) h.context
        show { c₁.context with scopes := c₁.scopes.truncate c.scopes.depth } = c.context
        rw [hscopes]
        exact hcontext
      extent := ⟨Nat.le_refl _, h.extent.globalLength, h.extent.literalLength⟩
      literals := h.literals
      blocks := depth_closed h.blocks
      registers := h.registers }

/-- Statements in a scope of their own. -/
theorem safe_block {kind : ScopeKind} {body : CompileM Unit} (hc : Ready r c)
    (hkind : ∀ s : Scopes, (s.enter kind).function? = s.function?)
    (hbody : ∀ c₁, Ready r c₁ → Safe Proceeds body c₁ fun _ c' => Ready r c') :
    Safe Extends (inScope kind body) c fun _ _ => True := by
  have hentered : Ready r
      { c with scopes := c.scopes.enter kind, frame := c.frame.pushBlock.2 } :=
    { registry := hc.registry
      sound := hc.sound
      registers := hc.registers
      literals := hc.literals
      names := hc.names
      receiver := fun hmethod => by
        refine hc.receiver ?_
        rwa [Scopes.receiverClass?, ← hkind, ← Scopes.receiverClass?]
      result := fun f hf => hc.result f (hkind _ ▸ hf) }
  exact safe_inScope (hbody _ hentered) (fun _ h => Steady.depth h) fun _ _ h _ =>
    ⟨extends_left h, trivial⟩

/-- Making a name visible that is not an overload. -/
theorem safe_define {R : Compilation → Compilation → Prop} [Steady R] {name : String} {d : Meaning}
    {span : Span} {Q : Unit → Compilation → Prop}
    (h : ∀ scopes, c.scopes.define name d span = .ok scopes →
      R c { c with scopes := scopes } ∧ Q () { c with scopes := scopes }) :
    Safe R (define name d span) c Q := by
  unfold define updateScopes
  refine .get_bind ?_
  refine (Safe.conclude (Q := fun scopes c' => c' = c ∧ c.scopes.define name d span = .ok scopes)
    (fun scopes hs => ⟨rfl, hs⟩) fun e he => Scopes.isLocated_of_define he).bind ?_
  rintro scopes c₁ - ⟨rfl, hs⟩
  exact safe_modify (h scopes hs).1 (h scopes hs).2

/-- A name becomes visible for something that can be used. -/
theorem furnished_define {c' : Compilation} {scopes : Scopes} {name : String} {d : Meaning}
    {span : Span} (hc : Furnished r c) (hd : d.Usable r c.extent)
    (hnew : ∀ more, d ≠ .functions more) (hdefine : c.scopes.define name d span = .ok scopes)
    (hc' : c' = { c with scopes := scopes }) : Furnished r c' := by
  subst hc'
  refine ⟨hc.registry, hc.sound, hc.registers, hc.literals, fun other e he => ?_, fun f hf => ?_⟩
  · have he : scopes.find? other = some e := he
    rw [Scopes.find?_define hdefine hnew] at he
    split at he
    · injection he with he
      exact he ▸ hd
    · exact hc.names other e he
  · exact hc.result f (Scopes.function?_congr (Scopes.kinds_define hdefine) ▸ hf)

theorem proceeds_define {scopes : Scopes} {name : String} {d : Meaning} {span : Span}
    (hdefine : c.scopes.define name d span = .ok scopes) : Proceeds c { c with scopes := scopes } := by
  obtain ⟨scope, hscope, hscopes⟩ := Scopes.define_effect hdefine
  exact
    { scopes := ⟨scope, Scope.kind_define hscope, hscopes⟩
      context := rfl
      extent := .refl _
      literals := id
      blocks := rfl
      registers := rfl }

theorem usable_variable {b : Binding} (hb : Held r c.extent ⟨b.type, b.address⟩) :
    (Meaning.variable b).Usable r c.extent := by
  refine ⟨trivial, fun b' hb' => ?_⟩
  injection hb' with hb'
  exact hb' ▸ hb

/-- A variable with storage in the frame can be made visible. -/
theorem safe_defineVariable {name : String} {b : Binding} {k : Nat} {span : Span}
    (hc : Ready r c) (hb : Held r c.extent ⟨b.type, b.address⟩) (hk : b.address = .frame k) :
    Safe Proceeds (define name (.variable b) span) c fun _ c' => Ready r c' := by
  refine safe_define fun scopes hdefine => ⟨proceeds_define hdefine, ?_⟩
  have hnew : ∀ more, Meaning.variable b ≠ .functions more := fun _ h => by cases h
  refine (furnished_define hc.furnished (usable_variable hb) hnew hdefine rfl).ready
    fun hmethod b' span' he => ?_
  have he : scopes.find? "this" = some ⟨.variable b', span'⟩ := he
  rw [Scopes.find?_define hdefine hnew] at he
  split at he
  · injection he with he
    injection he with he
    injection he with he
    exact ⟨k, he ▸ hk⟩
  · refine hc.receiver ?_ b' span' he
    rwa [Scopes.receiverClass?, ← Scopes.function?_congr (Scopes.kinds_define hdefine),
      ← Scopes.receiverClass?]

/-! ## Simple statements -/

theorem safe_effect {e : Expr} (hc : Ready r c) :
    Safe Extends (effect e) c fun _ _ => True := by
  unfold effect
  refine safe_withTemps (P := fun _ => True) fun c₁ hw _ hregs => ?_
  have hc₁ : Ready r c₁ := hc.within hw (hregs ▸ hc.registers)
  exact (safe_expr e hc₁ held_none).bind fun _ _ _ _ => .pure trivial

theorem safe_jumpUnless {e : Expr} {target : Label} (hc : Ready r c) :
    Safe Extends (jumpUnless e target) c fun _ _ => True := by
  unfold jumpUnless
  refine safe_withTemps (P := fun _ => True) fun c₁ hw _ hregs => ?_
  have hc₁ : Ready r c₁ := hc.within hw (hregs ▸ hc.registers)
  refine ((readable e).condition hc₁).bind
    fun a c₂ _ ha => ?_
  refine (safe_emit ?_ ?_ (by trivial)).weaken
  · exact List.forall_mem_singleton.mpr ha
  · exact List.forall_mem_nil _

theorem safe_delete {target : Expr} {span : Span} (hc : Ready r c) :
    Safe Extends (delete target span) c fun _ _ => True := by
  unfold delete
  refine safe_withTemps (P := fun _ => True) fun c₁ hw _ hregs => ?_
  have hc₁ : Ready r c₁ := hc.within hw (hregs ▸ hc.registers)
  exact (safe_value target hc₁).bind fun v c₂ h₂ hv => safe_deleteObject (hc₁.after h₂) hv

theorem safe_leave {span : Span} : Safe Extends (leave span) c fun _ _ => True := by
  unfold leave
  refine .get_bind ?_
  split
  · exact safe_emitGoto.weaken
  · exact .fail

theorem safe_again {span : Span} : Safe Extends (again span) c fun _ _ => True := by
  unfold again
  refine .get_bind ?_
  split
  · exact safe_emitGoto.weaken
  · exact .fail

theorem safe_fallInto {span : Span} : Safe Extends (fallInto span) c fun _ _ => True := by
  unfold fallInto
  refine .get_bind ?_
  split
  · exact safe_emitGoto.weaken
  · exact .fail
  · exact .fail

/-! ## Declarations -/

theorem safe_requireConcrete {R : Compilation → Compilation → Prop} [Steady R] {t : Ty}
    {span : Span} (hr : c.registry = r) (ht : r.Knows t) :
    Safe R (requireConcrete t span) c fun _ c' =>
      c' = c ∧ (t.isParam = false → r.Concrete t) := by
  unfold requireConcrete
  by_cases hclass : t.isClass = true
  · obtain ⟨h, hh⟩ := Option.isSome_iff_exists.mp (isClassLike_of_isClass hclass)
    obtain ⟨k, hk, hfind⟩ := (ht.has hh).getClass
    rw [if_pos hclass, hh]
    refine .askRegistry_bind (hr ▸ hk) ?_
    split
    · exact .fail
    · rename_i hconcrete
      refine .pure ⟨rfl, fun _ h' k' hh' hk' => ?_⟩
      rw [hh] at hh'
      cases hh'
      rw [hfind] at hk'
      cases hk'
      exact Bool.eq_false_iff.mpr hconcrete
  · rw [if_neg hclass]
    refine .pure ⟨rfl, fun hparam h k hh => ?_⟩
    cases t with
    | classRef _ | applied _ _ => exact absurd rfl hclass
    | param _ _ => cases hparam
    | _ => cases hh

/-- Whatever its type is, a declaration must not be of a type that cannot be held. -/
theorem safe_heldType {d : VarDecl} {m : CompileM Ty} {f : Ty → CompileM Ty} (hc : c.registry = r)
    (hm : Safe Extends m c fun t _ => r.Knows t)
    (hf : ∀ t, f t = match t with
      | .prim .void => fail (.typing (.voidVariable d.name.name)) d.span
      | .intrinsic .. => fail (.typing (.intrinsicVariable d.name.name)) d.span
      | .param n _ => fail (.typing (.parameterByValue n)) d.span
      | _ => do
        requireConcrete t d.span
        return t) :
    Safe Extends (m >>= f) c fun t _ => r.Knows t ∧ r.Concrete t := by
  refine hm.bind fun t c₁ h₁ ht => ?_
  rw [hf]
  split
  · exact .fail
  · exact .fail
  · exact .fail
  · rename_i hparam
    refine (safe_requireConcrete (h₁.registry.trans hc) ht).bind ?_
    rintro _ c₂ - ⟨rfl, hconcrete⟩
    refine .pure ⟨ht, hconcrete ?_⟩
    cases t with
    | param n bound => exact absurd rfl (hparam n bound)
    | _ => rfl

/-- There can be values of the type of a declaration. -/
theorem safe_declaredType {d : VarDecl} (hc : Ready r c) :
    Safe Extends (declaredType d) c fun t _ => r.Knows t ∧ r.Concrete t := by
  unfold declaredType
  dsimp only
  split
  · exact safe_heldType hc.registry (safe_resolveType_ready hc _) fun _ => rfl
  · exact safe_heldType hc.registry (safe_probeType _ hc) fun _ => rfl
  · exact .fail_bind

theorem safe_storeInitial {d : VarDecl} {dest : Slot} (hc : Ready r c)
    (hdest : Held r c.extent dest) (hconcrete : r.Concrete dest.type) :
    Safe Extends (storeInitial d dest) c fun _ _ => True := by
  unfold storeInitial
  split
  · refine safe_withTemps (P := fun _ => True) fun c₁ hw hx hregs => ?_
    exact safe_into _ (hc.within hw (hregs ▸ hc.registers)) (hx ▸ hdest)
  · split
    · exact .fail
    · exact safe_clear hc hdest hconcrete

theorem safe_declare {d : VarDecl} (hc : Ready r c) :
    Safe Proceeds (declare d) c fun _ c' => Ready r c' := by
  unfold declare
  refine (safe_declaredType hc).stays hc |>.bind fun t c₁ h₁ ⟨hc₁, ht, hconcrete⟩ => ?_
  refine (safe_allocFor (t := t)).stays hc₁ |>.bind fun a c₂ h₂ ⟨hc₂, ha, htop⟩ => ?_
  have hslot : Held r c₂.extent ⟨t, a⟩ := by
    refine ⟨?_, ht⟩
    have htop : c₂.frame.top = c₁.frame.top + r.length t := hc₁.registry ▸ htop
    rw [ha]
    exact Nat.le_of_eq htop.symm
  refine (safe_storeInitial hc₂ hslot hconcrete).stays hc₂ |>.bind fun _ c₃ h₃ ⟨hc₃, _⟩ => ?_
  exact safe_defineVariable hc₃ (hslot.mono h₃.extent) ha

/-! ## Returning -/

theorem safe_returnValue {e : Expr} {result : Ty} (hc : Ready r c)
    (hresult : Held r c.extent ⟨result, returnAddress⟩) :
    Safe Extends (returnValue e result) c fun _ _ => True := by
  unfold returnValue
  refine (safe_value e hc).bind fun v c₁ h₁ hv => ?_
  have hc₁ := hc.after h₁
  refine .get_bind ?_
  rw [hc₁.registry]
  dsimp only
  split
  · exact .fail
  · rename_i k hk
    have hconvert : ∀ c₂, Extends c₁ c₂ →
        Safe Extends (convertInto v ⟨result, returnAddress⟩ k) c₂ fun _ _ => True := by
      intro c₂ h₂
      exact safe_convertInto (hc₁.after h₂).registry hk (hv.mono h₂.extent).storage
        (hresult.mono (Steady.trans h₁ h₂).extent).storage
    split
    · exact safe_warn.bind fun _ c₂ h₂ _ => hconvert c₂ h₂
    · split
      · exact safe_warn.bind fun _ c₂ h₂ _ => hconvert c₂ h₂
      · exact hconvert c₁ (Steady.refl c₁)

theorem safe_ret {e : Option Expr} {span : Span} (hc : Ready r c) :
    Safe Extends (ret e span) c fun _ _ => True := by
  have hlast : ∀ c₁, Safe Extends (emit .ret) c₁ fun _ _ => True := fun c₁ =>
    (safe_emit (i := .ret) (List.forall_mem_nil _) (List.forall_mem_nil _) (by trivial)).weaken
  unfold ret
  refine .get_bind ?_
  split
  · exact .fail
  · rename_i f hf
    have hresult := hc.result f hf
    split
    · split
      · exact .fail_bind
      · refine (safe_withTemps (P := fun _ => True) fun c₁ hw hx hregs => ?_).bind
          fun _ c₁ _ _ => hlast c₁
        exact safe_returnValue (hc.within hw (hregs ▸ hc.registers)) (hx ▸ hresult)
    · split
      · exact .typeName_bind .fail_bind
      · exact hlast c

/-! ## Control flow -/

theorem safe_caseTests {subject : Slot} {cs : List Case} {targets : List Label} (hc : Ready r c)
    (hsubject : Held r c.extent subject) :
    Safe Extends (caseTests subject cs targets) c fun _ _ => True := by
  induction cs generalizing c targets with
  | nil =>
    rw [caseTests]
    · exact .pure trivial
    · simp
  | cons k cs ih =>
    cases targets with
    | nil =>
      rw [caseTests]
      · exact .pure trivial
      · simp
    | cons target targets =>
      rw [caseTests]
      refine (safe_tests k.values hc hsubject).bind fun _ c₁ h₁ _ => ?_
      exact ih (hc.after h₁) (hsubject.mono h₁.extent)

theorem safe_caseLabels {cs : List Case} :
    Safe Extends (caseLabels cs) c fun _ _ => True := by
  induction cs generalizing c with
  | nil => exact .pure trivial
  | cons k cs ih =>
    rw [caseLabels]
    exact safe_freshLabel.bind fun _ _ _ _ => ih.bind fun _ _ _ _ => .pure trivial

/-- A step after which expressions can be compiled as before it. -/
def KeepsReady (r : Registry) (m : CompileM α) : Prop :=
  ∀ ⦃c⦄, Ready r c → Safe Proceeds m c fun _ c' => Ready r c'

namespace KeepsReady

variable {β : Type}

/-- A step as of an expression. -/
theorem of_extends {m : CompileM α} {Q : Compilation → α → Compilation → Prop}
    (h : ∀ ⦃c⦄, Ready r c → Safe Extends m c (Q c)) : KeepsReady r m :=
  fun _ hc => ((h hc).stays hc).mono fun _ _ _ h => h.1

theorem bind {m : CompileM α} {f : α → CompileM β} (hm : KeepsReady r m)
    (hf : ∀ a, KeepsReady r (f a)) : KeepsReady r (m >>= f) :=
  fun _ hc => (hm hc).bind fun a _ _ hc₁ => hf a hc₁

theorem freshLabel {kind : LabelKind} : KeepsReady r (freshLabel kind) :=
  of_extends fun _ _ => safe_freshLabel

theorem emitLabel {l : Label} : KeepsReady r (emitLabel l) := of_extends fun _ _ => safe_emitLabel

theorem emitGoto {l : Label} : KeepsReady r (emitGoto l) := of_extends fun _ _ => safe_emitGoto

theorem jumpUnless {e : Expr} {target : Label} : KeepsReady r (jumpUnless e target) :=
  of_extends fun _ hc => safe_jumpUnless hc

theorem optionally {step : β → CompileM Unit} {part : Option β}
    (h : ∀ x ∈ part, KeepsReady r (step x)) : KeepsReady r (optionally step part) := by
  cases part with
  | some x => exact h x rfl
  | none => exact fun _ hc => .pure hc

/-- To what surrounds it, a scope of its own is no more than an expression. -/
theorem safe_inScope {kind : ScopeKind} {body : CompileM Unit} (h : KeepsReady r body)
    (hkind : ∀ s : Scopes, (s.enter kind).function? = s.function?) (hc : Ready r c) :
    Safe Extends (CompileM.inScope kind body) c fun _ _ => True :=
  safe_block hc hkind fun _ hc₁ => h hc₁

theorem inScope {kind : ScopeKind} {body : CompileM Unit} (h : KeepsReady r body)
    (hkind : ∀ s : Scopes, (s.enter kind).function? = s.function?) :
    KeepsReady r (CompileM.inScope kind body) :=
  of_extends fun _ hc => h.safe_inScope hkind hc

theorem block {body : List Stmt} {span : Span} (hbody : KeepsReady r (stmts body)) :
    KeepsReady r (stmt (.block body span)) := by
  unfold stmt
  exact hbody.inScope fun _ => rfl

theorem branch {e : Expr} {yes : List Stmt} {no : Option Stmt} {span : Span}
    (hyes : KeepsReady r (stmts yes)) (hno : ∀ s ∈ no, KeepsReady r (stmt s)) :
    KeepsReady r (stmt (.branch e yes no span)) := by
  unfold stmt
  refine .bind .freshLabel fun otherwise => ?_
  refine .bind .jumpUnless fun _ => ?_
  refine .bind (hyes.inScope fun _ => rfl) fun _ => ?_
  cases no with
  | none => exact .emitLabel
  | some s =>
    refine .bind .freshLabel fun done => ?_
    refine .bind .emitGoto fun _ => ?_
    refine .bind .emitLabel fun _ => ?_
    exact .bind (hno s rfl) fun _ => .emitLabel

theorem whileLoop {e : Expr} {body : List Stmt} {span : Span}
    (hbody : KeepsReady r (stmts body)) : KeepsReady r (stmt (.whileLoop e body span)) := by
  unfold stmt
  refine .bind .freshLabel fun top => ?_
  refine .bind .freshLabel fun done => ?_
  refine .bind .emitLabel fun _ => ?_
  refine .bind .jumpUnless fun _ => ?_
  refine .bind (hbody.inScope fun _ => rfl) fun _ => ?_
  exact .bind .emitGoto fun _ => .emitLabel

theorem forLoop {init : Option Stmt} {e step : Option Expr} {body : List Stmt} {span : Span}
    (hinit : ∀ s ∈ init, KeepsReady r (stmt s)) (hbody : KeepsReady r (stmts body)) :
    KeepsReady r (stmt (.forLoop init e step body span)) := by
  rw [stmt_forLoop]
  refine inScope ?_ fun _ => rfl
  refine .bind (.optionally hinit) fun _ => ?_
  refine .bind .freshLabel fun top => ?_
  refine .bind .freshLabel fun done => ?_
  refine .bind .freshLabel fun next => ?_
  refine .bind .emitLabel fun _ => ?_
  refine .bind (.optionally fun _ _ => .jumpUnless) fun _ => ?_
  refine .bind (hbody.inScope fun _ => rfl) fun _ => ?_
  refine .bind .emitLabel fun _ => ?_
  refine .bind (.optionally fun _ _ => of_extends fun _ hc => safe_effect hc) fun _ => ?_
  exact .bind .emitGoto fun _ => .emitLabel

theorem safe_caseBodies {done : Label} {cs : List Case} {ls : List Label}
    (hcs : ∀ k ∈ cs, KeepsReady r (stmts k.body)) (hc : Ready r c) :
    Safe Extends (caseBodies done cs ls) c fun _ _ => True := by
  induction cs generalizing c ls with
  | nil =>
    rw [caseBodies]
    · exact .pure trivial
    · simp
  | cons k cs ih =>
    obtain ⟨vs, body, span⟩ := k
    obtain ⟨hbody, hcs⟩ := List.forall_mem_cons.mp hcs
    cases ls with
    | nil =>
      rw [caseBodies]
      · exact .pure trivial
      · simp
    | cons l ls =>
      unfold caseBodies
      refine safe_emitLabel.bind fun _ c₁ h₁ _ => ?_
      refine (hbody.safe_inScope (fun _ => rfl) (hc.after h₁)).bind fun _ c₂ h₂ _ => ?_
      refine safe_emitGoto.bind fun _ c₃ h₃ _ => ?_
      exact ih hcs (hc.after (Steady.trans (Steady.trans h₁ h₂) h₃))

/-- The subject is compared with all values, so its storage must outlast their code. -/
theorem switch {subject : Expr} {cs : List Case} {default : Option (List Stmt)} {span : Span}
    (hcs : ∀ k ∈ cs, KeepsReady r (stmts k.body))
    (hdefault : ∀ body ∈ default, KeepsReady r (stmts body)) :
    KeepsReady r (stmt (.switch subject cs default span)) := by
  unfold stmt
  refine inScope (of_extends (Q := fun _ _ _ => True) fun c hc => ?_) fun _ => rfl
  refine (safe_value subject hc).bind fun s c₁ h₁ hs => ?_
  refine safe_freshLabel.bind fun done c₂ h₂ _ => ?_
  refine safe_caseLabels.bind fun bodies c₃ h₃ _ => ?_
  have hx₃ := Steady.trans (Steady.trans h₁ h₂) h₃
  have hs₃ := hs.mono (Steady.trans h₂ h₃).extent
  cases default with
  | none =>
    refine (safe_caseTests (hc.after hx₃) hs₃).bind fun _ c₄ h₄ _ => ?_
    refine safe_emitGoto.bind fun _ c₅ h₅ _ => ?_
    have hx₅ := Steady.trans (Steady.trans hx₃ h₄) h₅
    exact (safe_caseBodies hcs (hc.after hx₅)).bind fun _ _ _ _ => safe_emitLabel.weaken
  | some body =>
    refine safe_freshLabel.bind fun otherwise c₄ h₄ _ => ?_
    have hx₄ := Steady.trans hx₃ h₄
    refine (safe_caseTests (hc.after hx₄) (hs₃.mono h₄.extent)).bind fun _ c₅ h₅ _ => ?_
    refine safe_emitGoto.bind fun _ c₆ h₆ _ => ?_
    have hx₆ := Steady.trans (Steady.trans hx₄ h₅) h₆
    refine (safe_caseBodies hcs (hc.after hx₆)).bind fun _ c₇ h₇ _ => ?_
    refine safe_emitLabel.bind fun _ c₈ h₈ _ => ?_
    have hc₈ := hc.after (Steady.trans (Steady.trans hx₆ h₇) h₈)
    exact ((hdefault body rfl).safe_inScope (fun _ => rfl) hc₈).bind
      fun _ _ _ _ => safe_emitLabel.weaken

end KeepsReady

mutual

/-- After a statement more names may be in scope, and all of them can be used. -/
theorem safe_stmt : ∀ s : Stmt, KeepsReady r (stmt s)
  | .expr .. => by
    unfold stmt
    exact .of_extends fun _ hc => safe_effect hc
  | .declare _ => by
    unfold stmt
    exact fun _ hc => safe_declare hc
  | .block body _ => .block (safe_stmts body)
  | .branch _ yes none _ => .branch (safe_stmts yes) nofun
  | .branch _ yes (some no) _ => .branch (safe_stmts yes) fun | _, rfl => safe_stmt no
  | .whileLoop _ body _ => .whileLoop (safe_stmts body)
  | .forLoop none _ _ body _ => .forLoop nofun (safe_stmts body)
  | .forLoop (some init) _ _ body _ =>
    .forLoop (fun | _, rfl => safe_stmt init) (safe_stmts body)
  | .switch _ cs none _ => .switch (safe_cases cs) nofun
  | .switch _ cs (some body) _ => .switch (safe_cases cs) fun | _, rfl => safe_stmts body
  | .ret .. => by
    unfold stmt
    exact .of_extends fun _ hc => safe_ret hc
  | .leave _ => by
    unfold stmt
    exact .of_extends fun _ _ => safe_leave
  | .again _ => by
    unfold stmt
    exact .of_extends fun _ _ => safe_again
  | .fallthrough _ => by
    unfold stmt
    exact .of_extends fun _ _ => safe_fallInto
  | .delete .. => by
    unfold stmt
    exact .of_extends fun _ hc => safe_delete hc

theorem safe_stmts : ∀ ss : List Stmt, KeepsReady r (stmts ss)
  | [] => by
    unfold stmts
    exact fun _ hc => .pure hc
  | s :: ss => by
    unfold stmts
    exact (safe_stmt s).bind fun _ => safe_stmts ss

theorem safe_cases : ∀ cs : List Case, ∀ k ∈ cs, KeepsReady r (stmts k.body)
  | [] => List.forall_mem_nil _
  | .mk _ body _ :: cs => List.forall_mem_cons.mpr ⟨safe_stmts body, safe_cases cs⟩

end

end CompileM

end ClassLang
