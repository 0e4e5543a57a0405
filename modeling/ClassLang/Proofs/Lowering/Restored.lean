import ClassLang.Proofs.Lowering.Brackets
import ClassLang.Proofs.Lowering.Context
import ClassLang.Proofs.Lowering.Scopes
import ClassLang.Proofs.Lowering.Statements
import ClassLang.Proofs.Registration.Effects

/-!
# What steps give back

A step of lowering closes the blocks and the scopes that it opens, gives back the registers that it
takes, and stops muting what it muted, on every way out of it. The frame grows and code is appended;
only a probe takes code away, namely its own.

Registers are given back by steps that succeed. A step with a register needs one more at most, so it
fails if it got the last one, and only then is a register lost.
-/

-- The instances of long steps are large terms.
set_option synthInstance.maxSize 1000

namespace ClassLang

open CompileM

/-- What one state says about an earlier one, if the steps between them gave back what they took. -/
structure Tidied (c c' : Compilation) : Prop where
  options : c'.options = c.options
  /-- No scope but the innermost one changed. -/
  scopes : ∃ scope, c'.scopes = c.scopes.replace scope
  blocks : c'.frame.blocks = c.frame.blocks
  registers : c.frame.freeRegisters.length ≠ 1 → c'.frame.freeRegisters = c.frame.freeRegisters
  muted : c'.muted = c.muted
  top : c.frame.top ≤ c'.frame.top
  code : ∃ more, c'.frame.code = c.frame.code ++ more
  warnings : c.muted ≠ 0 → c'.warnings = c.warnings

namespace Tidied

variable {c c₁ c₂ : Compilation}

theorem refl (c : Compilation) : Tidied c c where
  options := rfl
  scopes := ⟨c.scopes.current, c.scopes.replace_current.symm⟩
  blocks := rfl
  registers _ := rfl
  muted := rfl
  top := Nat.le_refl _
  code := ⟨#[], (Array.append_empty ..).symm⟩
  warnings _ := rfl

theorem trans (h₁ : Tidied c c₁) (h₂ : Tidied c₁ c₂) : Tidied c c₂ where
  options := h₂.options.trans h₁.options
  scopes := by
    obtain ⟨scope₁, hscope₁⟩ := h₁.scopes
    obtain ⟨scope₂, hscope₂⟩ := h₂.scopes
    exact ⟨scope₂, by rw [hscope₂, hscope₁, Scopes.replace_replace]⟩
  blocks := h₂.blocks.trans h₁.blocks
  registers hc := by
    have hfree := h₁.registers hc
    exact (h₂.registers (hfree ▸ hc)).trans hfree
  muted := h₂.muted.trans h₁.muted
  top := Nat.le_trans h₁.top h₂.top
  code := by
    obtain ⟨more₁, hmore₁⟩ := h₁.code
    obtain ⟨more₂, hmore₂⟩ := h₂.code
    exact ⟨more₁ ++ more₂, by rw [hmore₂, hmore₁, Array.append_assoc]⟩
  warnings hc := (h₂.warnings (h₁.muted ▸ hc)).trans (h₁.warnings hc)

theorem depth (h : Tidied c c₁) : c₁.frame.depth = c.frame.depth :=
  congrArg List.length h.blocks

/-- The parts of the state that steps take from and give back to are the same. -/
theorem of_same (hoptions : c₁.options = c.options) (hscopes : c₁.scopes = c.scopes)
    (hmuted : c₁.muted = c.muted)
    (hwarnings : c₁.warnings = c.warnings) (hframe : c₁.frame = c.frame) : Tidied c c₁ where
  options := hoptions
  scopes := ⟨c.scopes.current, by rw [hscopes, Scopes.replace_current]⟩
  blocks := by rw [hframe]
  registers _ := by rw [hframe]
  muted := hmuted
  top := Nat.le_of_eq (by rw [hframe])
  code := ⟨#[], by rw [hframe, Array.append_empty]⟩
  warnings _ := hwarnings

/-- Only the frame differs, and it keeps its blocks and registers. -/
theorem of_frame {frame : Frame} (hblocks : frame.blocks = c.frame.blocks)
    (hregisters : frame.freeRegisters = c.frame.freeRegisters) (htop : c.frame.top ≤ frame.top)
    (hcode : ∃ more, frame.code = c.frame.code ++ more) : Tidied c { c with frame := frame } where
  options := rfl
  scopes := ⟨c.scopes.current, c.scopes.replace_current.symm⟩
  blocks := hblocks
  registers _ := hregisters
  muted := rfl
  top := htop
  code := hcode
  warnings _ := rfl

end Tidied

/-- A step that leaves the context alone leaves the scopes alone. -/
theorem CompileM.scopes_of_run {α : Type} {m : CompileM α} [hm : Keeps Compilation.context m]
    {c c' : Compilation} {o : Except CompileError α} (h : m.run.run c = (o, c')) :
    c'.scopes = c.scopes := by
  have hc' : c' = (m.run.run c).2 := by rw [h]
  rw [hc']
  exact congrArg (·.scopes) (hm.eq c)

namespace Lowering

/-! ## Every step of lowering -/

/-- The step gives back what it takes, whether it succeeds or fails. -/
def Tidies (α : Type) (m : CompileM α) : Prop := ∀ c, Tidied c (m.run.run c).2

variable {α : Type} {c c₁ : Compilation} {body : CompileM α}

theorem tidies_emit (i : Instr) (region : Nat) : Tidies Unit (emit i region) := fun _ =>
  .of_frame rfl rfl (Nat.le_refl _) ⟨#[i], Array.push_eq_append⟩

/-- A block that was opened is closed again, and its storage is given back. -/
theorem closes (h : Tidied (opened c) c₁) : Tidied c (CompileM.closed c c₁) where
  options := h.options
  scopes := h.scopes
  blocks := congrArg List.tail h.blocks
  registers := h.registers
  muted := h.muted
  top := Nat.le_refl _
  code := h.code
  warnings := h.warnings

theorem Tidies.withTemps (hbody : Tidies α body) : Tidies α (withTemps body) := by
  intro c
  rw [run_withTemps rfl (hbody (opened c)).depth]
  exact closes (hbody (opened c))

/-- What a probe leaves: the storage, the code and the warnings from before. -/
theorem probe_restores (hbody : Tidies α body) (c : Compilation) :
    Tidied c ((probe body).run.run c).2 ∧
      ((probe body).run.run c).2.frame.top = c.frame.top ∧
      ((probe body).run.run c).2.frame.code = c.frame.code ∧
      ((probe body).run.run c).2.warnings = c.warnings := by
  have h := hbody (mutedIn c)
  rw [run_probe rfl h.depth]
  have hcode : (forgotten c (body.run.run (mutedIn c)).2).frame.code = c.frame.code := by
    obtain ⟨more, hmore⟩ := h.code
    show (body.run.run (mutedIn c)).2.frame.code.take c.frame.code.size = c.frame.code
    rw [hmore]
    exact Array.extract_append_left.trans Array.extract_size
  refine ⟨?_, rfl, hcode, h.warnings (Nat.succ_ne_zero _)⟩
  exact
    { options := h.options
      scopes := h.scopes
      blocks := congrArg List.tail h.blocks
      registers := h.registers
      muted := by
        show (body.run.run (mutedIn c)).2.muted - 1 = c.muted
        rw [h.muted]
        rfl
      top := Nat.le_refl _
      code := ⟨#[], hcode.trans (Array.append_empty ..).symm⟩
      warnings := fun _ => h.warnings (Nat.succ_ne_zero _) }

theorem run_probeType (e : Expr) (c : Compilation) :
    ((probeType e).run.run c).2 = ((probe (expr e none)).run.run c).2 := by
  unfold probeType
  rw [run_bind]
  rcases (probe (expr e none)).run.run c with ⟨_ | _, _⟩ <;> rfl

/-- A register that is taken is given back unless it was the last one. -/
theorem Tidies.withRegister {body : Register → CompileM α} (hsure : ∀ reg, Sure 1 (body reg))
    (hbody : ∀ reg, Tidies α (body reg)) : Tidies α (withRegister body) := by
  intro c
  cases hregs : c.frame.freeRegisters with
  | nil =>
    rw [run_withRegister_nil hregs]
    exact .refl c
  | cons reg rest =>
    rw [run_withRegister hregs]
    have h := hbody reg { c with frame := { c.frame with freeRegisters := rest } }
    have hkept : rest ≠ [] → ∃ a c', Yields (body reg)
        { c with frame := { c.frame with freeRegisters := rest } } a c' ∧
          c'.frame.freeRegisters = rest :=
      fun hrest => (hsure reg).yields _ (List.length_pos_iff.mpr hrest)
    have hrest : c.frame.freeRegisters.length ≠ 1 → rest ≠ [] := by
      rintro hlength rfl
      exact hlength (by rw [hregs]; rfl)
    rcases hrun : (body reg).run.run { c with frame := { c.frame with freeRegisters := rest } } with
      ⟨e | a, c₁⟩
    · rw [hrun] at h
      exact
        { options := h.options
          scopes := h.scopes
          blocks := h.blocks
          registers := by
            intro hlength
            obtain ⟨a, c', hyields, _⟩ := hkept (hrest hlength)
            rw [hyields] at hrun
            cases hrun
          muted := h.muted
          top := h.top
          code := h.code
          warnings := h.warnings }
    · rw [hrun] at h
      exact
        { options := h.options
          scopes := h.scopes
          blocks := h.blocks
          registers := by
            intro hlength
            obtain ⟨a', c', hyields, hfree⟩ := hkept (hrest hlength)
            obtain ⟨_, rfl⟩ := hyields.unique hrun
            exact (congrArg (reg :: ·) hfree).trans hregs.symm
          muted := h.muted
          top := h.top
          code := h.code
          warnings := h.warnings }

instance : Basic Tidies where
  reads m hm c := by
    rw [show (m.run.run c).2 = c from hm.same c]
    exact .refl c
  bind {_ _ m g} hm hg c := by
    have h := hm c
    rw [run_bind]
    rcases hrun : m.run.run c with ⟨e | a, c₁⟩ <;> rw [hrun] at h
    · exact h
    · exact h.trans (hg a c₁)
  emit i region _ _ := tidies_emit i region
  link i region _ := tidies_emit i region
  alloc n c := .of_frame rfl rfl (Nat.le_add_right ..)
    ⟨#[], (Array.append_empty ..).symm⟩
  intern l c := .of_same rfl rfl rfl rfl rfl
  warn caution span c := by
    show Tidied c (if c.muted = 0 then _ else c)
    split
    · rename_i hmuted
      exact { Tidied.refl c with warnings := fun h => absurd hmuted h }
    · exact .refl c
  defer _ c := .of_same rfl rfl rfl rfl rfl
  withRegister hsure hbody := .withRegister hsure hbody
  withTemps hbody := hbody.withTemps
  probe hbody c := (probe_restores hbody c).1

instance : Jumps Tidies where
  freshLabel _ _ := .of_frame rfl rfl (Nat.le_refl _)
    ⟨#[], (Array.append_empty ..).symm⟩
  jump i _ := tidies_emit i 0

/-- Finding out a type leaves no trace in the storage, in the code and in the warnings. -/
theorem probeType_restores {e : Expr} {c c' : Compilation} {o : Except CompileError Ty}
    (hrun : (probeType e).run.run c = (o, c')) :
    c'.frame.top = c.frame.top ∧ c'.frame.code = c.frame.code ∧ c'.warnings = c.warnings := by
  have hc' := run_probeType e c
  rw [hrun] at hc'
  rw [show c' = _ from hc']
  exact (probe_restores (inferInstance : Has Tidies (expr e none)).out c).2

/-! ## Every statement -/

/-- A scope that was entered is left again, whatever was defined in it. -/
theorem leaves {kind : ScopeKind} (h : Tidied (inside kind c) c₁) :
    Tidied c (CompileM.left c c₁) ∧ (CompileM.left c c₁).scopes = c.scopes := by
  have hscopes : (CompileM.left c c₁).scopes = c.scopes := by
    obtain ⟨scope, hscope⟩ := h.scopes
    show c₁.scopes.truncate c.scopes.depth = c.scopes
    rw [hscope]
    exact c.scopes.truncate_replace_push (.opened kind) scope
  refine ⟨?_, hscopes⟩
  exact
    { options := h.options
      scopes := ⟨c.scopes.current, hscopes.trans c.scopes.replace_current.symm⟩
      blocks := congrArg List.tail h.blocks
      registers := h.registers
      muted := h.muted
      top := Nat.le_refl _
      code := h.code
      warnings := h.warnings }

/-- What a step in a scope leaves: the scopes and the storage from before. -/
theorem inScope_restores {kind : ScopeKind} (hbody : Tidies α body) (c : Compilation) :
    Tidied c ((inScope kind body).run.run c).2 ∧
      ((inScope kind body).run.run c).2.scopes = c.scopes ∧
      ((inScope kind body).run.run c).2.frame.top = c.frame.top := by
  have h := hbody (inside kind c)
  rw [run_inScope rfl h.depth]
  exact ⟨(leaves h).1, (leaves h).2, rfl⟩

/-- A name that cannot be defined changes nothing. -/
theorem run_define (name : String) (d : Meaning) (span : Span) (c : Compilation) :
    (define name d span).run.run c =
      match c.scopes.define name d span with
      | .ok s => (.ok (), { c with scopes := s })
      | .error e => (.error e, c) := by
  unfold define updateScopes
  rw [run_of_yields (yields_get.mpr ⟨rfl, rfl⟩)]
  dsimp only
  cases c.scopes.define name d span <;> rfl

/-- A name is defined in the innermost scope or not at all. -/
theorem tidies_define (name : String) (d : Meaning) (span : Span) :
    Tidies Unit (define name d span) := by
  intro c
  rw [run_define]
  cases hdefine : c.scopes.define name d span with
  | error e => exact .refl c
  | ok s =>
    obtain ⟨scope, _, rfl⟩ := Scopes.define_effect hdefine
    exact { Tidied.refl c with scopes := ⟨scope, rfl⟩ }

instance : Scoped Tidies where
  inScope hbody c := (inScope_restores hbody c).1
  binding name b span := tidies_define name (.variable b) span

/-! ## Steps that keep the scopes and the storage -/

/-- The step leaves the scopes as they were, and if it succeeds also the top of the frame. -/
def Levels (α : Type) (m : CompileM α) : Prop :=
  ∀ c o c', m.run.run c = (o, c') →
    c'.scopes = c.scopes ∧ (o.isOk = true → c'.frame.top = c.frame.top)

theorem levels_of_same {m : CompileM α} (hscopes : ∀ c, (m.run.run c).2.scopes = c.scopes)
    (htop : ∀ c, (m.run.run c).2.frame.top = c.frame.top) : Levels α m := by
  intro c o c' h
  have hc' : c' = (m.run.run c).2 := by rw [h]
  subst hc'
  exact ⟨hscopes c, fun _ => htop c⟩

instance : Reading Levels where
  reads m hm :=
    have hsame : ∀ c, (m.run.run c).2 = c := hm.same
    levels_of_same (fun c => by rw [hsame]) fun c => by rw [hsame]
  bind {_ _ m g} hm hg := by
    intro c o c' h
    rw [run_bind] at h
    rcases hrun : m.run.run c with ⟨e | a, c₁⟩ <;> rw [hrun] at h
    · cases h
      exact ⟨(hm _ _ _ hrun).1, fun h => by cases h⟩
    · obtain ⟨hscopes, htop⟩ := hm _ _ _ hrun
      obtain ⟨hscopes', htop'⟩ := hg a _ _ _ h
      exact ⟨hscopes'.trans hscopes, fun ho => (htop' ho).trans (htop rfl)⟩
  defer _ := levels_of_same (fun _ => rfl) fun _ => rfl

instance (i : Instr) (region : Nat) : Has Levels (emit i region) :=
  ⟨levels_of_same (fun _ => rfl) fun _ => rfl⟩

instance (l : Label) : Has Levels (emitLabel l) := ⟨levels_of_same (fun _ => rfl) fun _ => rfl⟩

instance (l : Label) : Has Levels (emitGoto l) := ⟨levels_of_same (fun _ => rfl) fun _ => rfl⟩

instance (k : LabelKind) : Has Levels (freshLabel k) :=
  ⟨levels_of_same (fun _ => rfl) fun _ => rfl⟩

instance (body : CompileM α) [hbody : Has Tidies body] [Keeps Compilation.context body] :
    Has Levels (withTemps body) := by
  refine ⟨levels_of_same (fun c => scopes_of_run rfl) fun c => ?_⟩
  rw [run_withTemps rfl (hbody.out (opened c)).depth]
  rfl

instance (body : CompileM α) [hbody : Has Tidies body] [Keeps Compilation.context body] :
    Has Levels (probe body) :=
  ⟨levels_of_same (fun _ => scopes_of_run rfl) fun c => (probe_restores hbody.out c).2.1⟩

instance (kind : ScopeKind) (body : CompileM α) [hbody : Has Tidies body] :
    Has Levels (inScope kind body) :=
  ⟨levels_of_same (fun c => (inScope_restores hbody.out c).2.1)
    fun c => (inScope_restores hbody.out c).2.2⟩

instance (body : Register → CompileM α) [hbody : ∀ reg, Has Levels (body reg)] :
    Has Levels (withRegister body) := by
  refine ⟨fun c o c' h => ?_⟩
  cases hregs : c.frame.freeRegisters with
  | nil =>
    rw [run_withRegister_nil hregs] at h
    cases h
    exact ⟨rfl, fun h => by cases h⟩
  | cons reg rest =>
    rw [run_withRegister hregs] at h
    rcases hrun : (body reg).run.run { c with frame := { c.frame with freeRegisters := rest } } with
      ⟨e | a, c₁⟩ <;> rw [hrun] at h <;> cases h
    · exact ⟨((hbody reg).out _ _ _ hrun).1, fun h => by cases h⟩
    · obtain ⟨hscopes, htop⟩ := (hbody reg).out _ _ _ hrun
      exact ⟨hscopes, fun _ => htop rfl⟩

instance (e : Expr) : Has Levels (probeType e) := by
  unfold probeType
  infer_instance

instance (d : VarDecl) : Has Levels (declaredType d) := has_declaredType d fun _ => inferInstance

instance (object : Slot) : Has Levels (tagObject object) := by
  unfold tagObject
  infer_instance

instance (dest : Slot) : Has Levels (clear dest) := by
  unfold clear
  infer_instance

instance (d : VarDecl) (dest : Slot) : Has Levels (storeInitial d dest) := by
  unfold storeInitial
  split <;> infer_instance

/-! ## Statements that declare nothing -/

instance (e : Expr) : Has Levels (effect e) := by
  unfold effect
  infer_instance

instance (e : Expr) (target : Label) : Has Levels (jumpUnless e target) := by
  unfold jumpUnless
  infer_instance

instance (target : Expr) (span : Span) : Has Levels (delete target span) := by
  unfold delete
  infer_instance

instance (span : Span) : Has Levels (leave span) := by
  unfold leave
  refine .bind fun c => ?_
  split <;> infer_instance

instance (span : Span) : Has Levels (again span) := by
  unfold again
  refine .bind fun c => ?_
  split <;> infer_instance

instance (span : Span) : Has Levels (fallInto span) := by
  unfold fallInto
  refine .bind fun c => ?_
  split <;> infer_instance

instance (e : Option Expr) (span : Span) : Has Levels (ret e span) := by
  unfold ret
  refine .bind fun c => ?_
  split
  · infer_instance
  · split
    · dsimp only
      infer_instance
    · dsimp only
      infer_instance

end Lowering

/-- What stands behind the `else` of a statement is a block, or a branch of which the same is
true. -/
inductive Stmt.ElseIsBlock : Stmt → Prop
  | other {s : Stmt} : (∀ c yes no span, s ≠ .branch c yes no span) → ElseIsBlock s
  | alone {c : Expr} {yes : List Stmt} {span : Span} : ElseIsBlock (.branch c yes none span)
  | block {c : Expr} {yes no : List Stmt} {span noSpan : Span} :
    ElseIsBlock (.branch c yes (some (.block no noSpan)) span)
  | branch {c c₁ : Expr} {yes yes₁ : List Stmt} {no₁ : Option Stmt} {span span₁ : Span} :
    ElseIsBlock (.branch c₁ yes₁ no₁ span₁) →
      ElseIsBlock (.branch c yes (some (.branch c₁ yes₁ no₁ span₁)) span)

namespace Lowering

theorem levels_stmt {s : Stmt} (helse : s.ElseIsBlock) (hs : ∀ d, s ≠ .declare d) :
    Has Levels (stmt s) := by
  induction helse with
  | alone =>
    unfold stmt
    infer_instance
  | @block _ _ no _ noSpan =>
    have : Has Levels (stmt (.block no noSpan)) := by
      unfold stmt
      infer_instance
    unfold stmt
    infer_instance
  | branch _ ih =>
    have := ih fun _ h => by cases h
    unfold stmt
    infer_instance
  | @other s hbranch =>
    cases s with
    | branch => exact absurd rfl (hbranch _ _ _ _)
    | declare => exact absurd rfl (hs _)
    | forLoop init c step body span =>
      have := has_forLoop (P := Tidies) init c step body
      rw [stmt_forLoop]
      infer_instance
    | «switch» subject cs default span =>
      cases default <;> unfold stmt <;> infer_instance
    | _ =>
      unfold stmt
      infer_instance

/-! ## Declarations -/

/-- What a declaration leaves: one more variable in the innermost scope, and its storage. -/
structure AddsVariable (d : VarDecl) (t : Ty) (c c' : Compilation) : Prop where
  fresh : c.scopes.current.find? d.name.name = none
  scopes : c'.scopes = c.scopes.replace { c.scopes.current with
    entries := c.scopes.current.entries.insert d.name.name
      ⟨.variable ⟨t, .frame c.frame.top, d.isConst, d.span⟩, d.span⟩ }
  top : c'.frame.top = c.frame.top + c.registry.length t

theorem declare_effect {d : VarDecl} {c c' : Compilation} (h : Yields (declare d) c () c') :
    ∃ t, AddsVariable d t c c' := by
  simp only [declare, allocFor, alloc, yields_bind, yields_lengthOf, yields_updateFrame,
    yields_define] at h
  obtain ⟨t, _, htype, _, _, ⟨_, c₁, ⟨rfl, rfl⟩, rfl, rfl⟩, _, c₃, hstore, s, hdefine, rfl⟩ := h
  have hlevel := (inferInstance : Has Levels (declaredType d)).out _ _ _ htype
  have hlevel' := (inferInstance : Has Levels (storeInitial d _)).out _ _ _ hstore
  have hregistry : c₁.registry = c.registry := htype.keeps
  have hscopes : c₃.scopes = c.scopes := hlevel'.1.trans hlevel.1
  have htop : c₁.frame.top = c.frame.top := hlevel.2 rfl
  rw [hscopes] at hdefine
  obtain ⟨scope, hscope, rfl⟩ := Scopes.define_effect hdefine
  obtain ⟨e, rfl, ⟨hfresh, rfl⟩ | ⟨_, _, _, _, hmore, _⟩⟩ := Scope.define_effect hscope
  · refine ⟨t, hfresh, ?_, ?_⟩
    · rw [← htop]
      rfl
    · rw [← htop, ← hregistry]
      exact hlevel'.2 rfl
  · cases hmore

theorem declare_error {d : VarDecl} {c c' : Compilation} {e : CompileError}
    (h : Fails (declare d) c e c') : c'.scopes = c.scopes := by
  unfold declare at h
  obtain h | ⟨t, c₁, htype, h⟩ := fails_bind.mp h
  · exact scopes_of_run h
  obtain h | ⟨a, c₂, halloc, h⟩ := fails_bind.mp h
  · exact (scopes_of_run h).trans (scopes_of_run htype)
  obtain h | ⟨_, c₃, hstore, h⟩ := fails_bind.mp h
  · exact (scopes_of_run h).trans ((scopes_of_run halloc).trans (scopes_of_run htype))
  rw [Fails, run_define] at h
  have hkept : c'.scopes = c₃.scopes := by
    split at h <;> cases h
    rfl
  exact hkept.trans ((scopes_of_run hstore).trans ((scopes_of_run halloc).trans (scopes_of_run htype)))

/-- What a statement leaves of the scopes and of the top of the frame. -/
theorem stmt_leaves {s : Stmt} (helse : s.ElseIsBlock) {c c' : Compilation}
    {o : Except CompileError Unit} (hrun : (stmt s).run.run c = (o, c')) :
    (o.isOk = false → c'.scopes = c.scopes) ∧
      (o.isOk = true → (∀ d, s ≠ .declare d) →
        c'.scopes = c.scopes ∧ c'.frame.top = c.frame.top) ∧
      (o.isOk = true → ∀ d, s = .declare d → ∃ t, AddsVariable d t c c') := by
  by_cases hs : ∃ d, s = .declare d
  · obtain ⟨d, rfl⟩ := hs
    have hdeclare : stmt (.declare d) = declare d := by unfold stmt; rfl
    rw [hdeclare] at hrun
    refine ⟨fun hfails => ?_, fun _ hother => absurd rfl (hother d), fun hok d' hd => ?_⟩
    · cases o with
      | ok u => cases hfails
      | error e => exact declare_error hrun
    · cases hd
      cases o with
      | ok u => exact declare_effect hrun
      | error e => cases hok
  · have hother : ∀ d, s ≠ .declare d := fun d hd => hs ⟨d, hd⟩
    obtain ⟨hscopes, htop⟩ := (levels_stmt helse hother).out c o c' hrun
    exact ⟨fun _ => hscopes, fun hok _ => ⟨hscopes, htop hok⟩,
      fun _ d hd => absurd hd (hother d)⟩

end Lowering

/-! ## States between steps -/

/-- The options are valid, and no register is in use. -/
structure Compilation.Idle (c : Compilation) : Prop where
  valid : c.options.validate = .ok ()
  free : c.frame.freeRegisters.length = c.options.registerCount

theorem idle_start {o : Options} {c : Compilation} (h : Compilation.start o = .ok c) : c.Idle := by
  unfold Compilation.start at h
  simp only [except_bind_eq_ok, except_pure_eq_ok] at h
  obtain ⟨_, hvalid, _, _, rfl⟩ := h
  refine ⟨hvalid, ?_⟩
  show ((List.range o.registerCount).map Register.mk).length = o.registerCount
  rw [List.length_map, List.length_range]

/-- Valid options ask for three registers at least. -/
theorem Options.registers_of_valid {o : Options} (h : o.validate = .ok ()) :
    3 ≤ o.registerCount := by
  by_cases hfew : o.registerCount < 3
  · have hfault : o.fault? ≠ none := by
      unfold fault?
      split <;> exact Option.some_ne_none _
    unfold validate at h
    split at h
    · cases h
    · contradiction
  · exact Nat.not_lt.mp hfew

/-- The blocks, the registers and the muting of one state are those of an earlier one. -/
structure Balanced (c c' : Compilation) : Prop where
  blocks : c'.frame.blocks = c.frame.blocks
  registers : c'.frame.freeRegisters = c.frame.freeRegisters
  muted : c'.muted = c.muted

/-- No register is lost unless exactly one is free. -/
theorem Tidied.balanced {c c' : Compilation} (h : Tidied c c')
    (hc : c.frame.freeRegisters.length ≠ 1) : Balanced c c' :=
  ⟨h.blocks, h.registers hc, h.muted⟩

/-- Between steps more than one register is free. -/
theorem Compilation.Idle.spare {c : Compilation} (h : c.Idle) :
    c.frame.freeRegisters.length ≠ 1 := by
  have hregisters := Options.registers_of_valid h.valid
  have hfree := h.free
  omega

namespace Lowering

variable {α : Type} {c c' : Compilation} {o : Except CompileError α}

theorem tidied_run {m : CompileM α} [hm : Has Tidies m] (hrun : m.run.run c = (o, c')) :
    Tidied c c' := by
  have h := hm.out c
  rwa [hrun] at h

end Lowering

end ClassLang
