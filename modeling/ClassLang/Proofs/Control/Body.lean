import ClassLang.Compile
import ClassLang.Proofs.Control.Statement

/-!
# The code of a function

A function starts with an empty frame. Its receiver and parameters get storage and names without
any code; then comes the instruction that says where the arguments end, and then the chunks of
the body. A function without a result gets a return at its end unless there is one already.
-/

namespace ClassLang

open CompileM Lowering Chunk

/-! ## Steps without code -/

/-- The step adds no code and makes no labels that it does not place, and what opened the scopes
stays. -/
def Quiet {α : Type} (m : CompileM α) : Prop :=
  ∀ ⦃c c' a⦄, Yields m c a c' → Compiles c c' [] [] [] [] []

namespace Quiet

variable {α β : Type}

theorem bind {m : CompileM α} {g : α → CompileM β} (hm : Quiet m) (hg : ∀ a, Quiet (g a)) :
    Quiet (m >>= g) := by
  intro c c' b h
  rw [yields_bind] at h
  obtain ⟨a, c₁, h₁, h₂⟩ := h
  exact (hm h₁).trans (hg a h₂)

theorem of_keeps (m : CompileM α) [Keeps id m] : Quiet m := by
  intro c c' a h
  have heq : c' = c := h.keeps (f := id)
  exact heq ▸ .nil c

theorem alloc (n : Nat) : Quiet (alloc n) := by
  intro c c' a h
  rw [yields_alloc] at h
  obtain ⟨_, rfl⟩ := h
  exact { Compiles.nil c with toExtends := (adds_alloc c n).toExtends }

theorem define (name : String) (d : Meaning) (span : Span) : Quiet (define name d span) := by
  intro c c' a h
  rw [yields_define] at h
  obtain ⟨scopes, hdefine, rfl⟩ := h
  exact { Compiles.nil c with kinds := Scopes.kinds_define hdefine }

theorem forM {g : α → CompileM PUnit} (hg : ∀ a, Quiet (g a)) (xs : List α) :
    Quiet (xs.forM g) := by
  induction xs with
  | nil => exact of_keeps (pure _)
  | cons x xs ih => exact (hg x).bind fun _ => ih

theorem allocFor (t : Ty) : Quiet (allocFor t) := (of_keeps _).bind fun n => alloc n

end Quiet

namespace Bodies

theorem quiet_defineReceiver (owner : TypeHash) (span : Span) :
    Quiet (defineReceiver owner span) := by
  have htemplates : Quiet (defineTemplates owner) :=
    (Quiet.of_keeps _).bind fun _ => Quiet.forM (fun _ => .define ..) _
  exact htemplates.bind fun _ => (Quiet.of_keeps _).bind fun n => (Quiet.alloc n).bind fun _ =>
    Quiet.define ..

theorem quiet_defineParams : ∀ (names : List String) (ts : List Ty) (ps : List Param),
    Quiet (defineParams names ts ps)
  | name :: names, t :: ts, p :: ps => by
    have hrest := quiet_defineParams names ts ps
    unfold defineParams
    exact (Quiet.allocFor t).bind fun _ => (Quiet.define ..).bind fun _ => hrest
  | [], _, _ => Quiet.of_keeps (pure _)
  | _ :: _, [], _ => Quiet.of_keeps (pure _)
  | _ :: _, _ :: _, [] => Quiet.of_keeps (pure _)

/-! ## Bodies -/

/-- How the code of a function ends: it returns at its end, or its body always returns. -/
def Ended (s : Signature) (block : List Stmt) (code : List Instr) : Prop :=
  if s.result.isVoid then code.getLast? = some .ret else Stmt.blockReturns block = true

/-- What compiling a function gives. The chunks `cs` of its body were compiled from `c₀` to `c₁`,
and the code of the function is that of the chunks with `n` bytes of arguments in front and `tail`
behind. -/
structure Compiled (c c' : Compilation) (id : Nat) (s : Signature) (block : List Stmt)
    (c₀ c₁ : Compilation) (cs : List Chunk) (n : Nat) (tail : List Instr) : Prop where
  chunks : Compiles c₀ c₁ cs [] [] [] (Stmt.resultsAll block)
  follows : Implements ⟨none, none, none⟩ cs fun o bound => Stmt.execAll o bound block
  result : ∃ f, c₀.scopes.function? = some f ∧ f.result = s.result
  ended : Ended s block (.args n :: (codeOf cs ++ tail))
  tail_eq : tail = [] ∨ tail = [.ret] ∧ s.result.isVoid = true
  listing : c'.listing =
    c.listing.addFunction ⟨id, s.mangled, (.args n :: (codeOf cs ++ tail)).toArray⟩
  made : ∀ k, c.frame.made k ≤ c₀.frame.made k ∧ c'.frame.made k = c₁.frame.made k

theorem yields_finishBody {s : Signature} {block : List Stmt} {span : Span} {c c' : Compilation}
    {u : Unit} (h : Yields (finishBody s block span) c u c') :
    ∃ tail, c' = c.add tail ∧ Ended s block (c.frame.code.toList ++ tail) ∧
      (tail = [] ∨ tail = [.ret] ∧ s.result.isVoid = true) := by
  have hnil : c = c.add [] := by
    unfold Compilation.add
    rw [Frame.append_nil]
  unfold finishBody at h
  unfold Ended
  cases hvoid : s.result.isVoid with
  | true =>
    -- A void body gets a return unless its code ends with one.
    simp only [hvoid, if_true, yields_bind, yields_get] at h
    obtain ⟨_, _, ⟨rfl, rfl⟩, h⟩ := h
    split at h
    · rw [yields_emit] at h
      exact ⟨[.ret], h, by simp, .inr ⟨rfl, rfl⟩⟩
    · rename_i hlast
      rw [yields_pure] at h
      refine ⟨[], h.2.trans hnil, ?_, .inl rfl⟩
      rw [if_pos rfl, List.append_nil, Array.getLast?_toList]
      exact Decidable.of_not_not hlast
  | false =>
    -- Any other body must return on its own.
    simp only [hvoid, Bool.false_eq_true, if_false] at h
    split at h
    · rw [yields_fail] at h
      exact h.elim
    · rename_i hreturns
      rw [yields_pure] at h
      refine ⟨[], h.2.trans hnil, ?_, .inl rfl⟩
      rw [if_neg Bool.false_ne_true]
      simpa using hreturns

/-- The scope of a function says what it returns, and hides the statements around. -/
theorem bodyScope_function (scopes : Scopes) (s : Signature) (owner : Option TypeHash) :
    ∃ f, (scopes.enter (bodyScope s owner)).function? = some f ∧ f.result = s.result := by
  cases owner with
  | none => exact ⟨_, rfl, rfl⟩
  | some hash => exact ⟨_, rfl, rfl⟩

theorem bodyScope_around (scopes : Scopes) (s : Signature) (owner : Option TypeHash) :
    (scopes.enter (bodyScope s owner)).around = ⟨none, none, none⟩ := by
  cases owner <;> rfl

/-- The parameters of a function are defined without code. -/
theorem yields_params {s : Signature} {body : PendingBody} {block : List Stmt}
    {c c' : Compilation} {u : Unit}
    (h : Yields (do
      if let some owner := body.owner then defineReceiver owner body.decl.span
      defineParams s.paramNames s.params body.decl.params
      emit (.args (← get).frame.top)
      Lowering.stmts block) c u c') :
    ∃ c₁, Compiles c c₁ [] [] [] [] [] ∧
      Yields (Lowering.stmts block) (c₁.add [.args c₁.frame.top]) u c' := by
  have hparams : ∀ {c : Compilation}, Yields (do
      defineParams s.paramNames s.params body.decl.params
      emit (.args (← get).frame.top)
      Lowering.stmts block) c u c' →
      ∃ c₁, Compiles c c₁ [] [] [] [] [] ∧
        Yields (Lowering.stmts block) (c₁.add [.args c₁.frame.top]) u c' := by
    intro c h
    simp only [yields_bind, yields_get, yields_emit] at h
    obtain ⟨_, c₁, hdefine, _, _, ⟨rfl, rfl⟩, _, _, rfl, hstmts⟩ := h
    exact ⟨_, quiet_defineParams _ _ _ hdefine, hstmts⟩
  split at h
  · rw [yields_bind] at h
    obtain ⟨_, c₁, hreceiver, h⟩ := h
    obtain ⟨c₂, hquiet, hstmts⟩ := hparams h
    exact ⟨c₂, (quiet_defineReceiver _ _ hreceiver).trans hquiet, hstmts⟩
  · exact hparams h

theorem yields_bodyCode {s : Signature} {body : PendingBody} {block : List Stmt}
    {c c' : Compilation} {u : Unit} (h : Yields (bodyCode s body block) c u c') :
    ∃ c₀ c₁ cs n, Compiles c₀ c₁ cs [] [] [] (Stmt.resultsAll block) ∧
      (Implements ⟨none, none, none⟩ cs fun o bound => Stmt.execAll o bound block) ∧
      (∃ f, c₀.scopes.function? = some f ∧ f.result = s.result) ∧
      c'.frame.code.toList = c.frame.code.toList ++ .args n :: codeOf cs ∧
      (∀ k, c.frame.made k ≤ c₀.frame.made k ∧ c'.frame.made k = c₁.frame.made k) ∧
      c'.listing = c.listing := by
  obtain ⟨c₁, frame, hbody, hrestore, rfl⟩ := yields_inScope h
  obtain ⟨c₂, hquiet, hstmts⟩ := yields_params hbody
  obtain ⟨cs, hcs, hfollows⟩ := compiles_stmts block hstmts
  have haround : (c₂.add [.args c₂.frame.top]).scopes.around = ⟨none, none, none⟩ :=
    hquiet.around.trans (bodyScope_around ..)
  rw [haround] at hcs hfollows
  have hfunction : (c₂.add [.args c₂.frame.top]).scopes.function? =
      (c.scopes.enter (bodyScope s body.owner)).function? := Scopes.function?_congr hquiet.kinds
  -- Leaving the block gives its storage back and keeps its code.
  unfold Frame.restore at hrestore
  split at hrestore
  · injection hrestore with hrestore
    subst hrestore
    refine ⟨_, c₁, cs, c₂.frame.top, hcs, hfollows, ?_, ?_, ?_, ?_⟩
    · rw [hfunction]
      exact bodyScope_function ..
    · have hcode := hquiet.code
      rw [codeOf_nil, List.append_nil] at hcode
      show c₁.frame.code.toList = _
      rw [hcs.code]
      simp only [Compilation.add, Frame.append_code]
      rw [hcode]
      simp [Frame.pushBlock]
    · exact fun k => ⟨hquiet.made_le k, rfl⟩
    · exact hcs.listing.trans hquiet.listing
  · cases hrestore

theorem yields_compileBody {id : Nat} {body : PendingBody} {c c' : Compilation} {u : Unit}
    (h : Yields (compileBody id body) c u c') :
    ∃ s block c₀ c₁ cs n tail, c.registry.getFunction id = .ok s ∧ body.decl.body = some block ∧
      Compiled c c' id s block c₀ c₁ cs n tail := by
  simp only [compileBody, yields_bind, yields_askRegistry] at h
  obtain ⟨s, c, ⟨hs, rfl⟩, h⟩ := h
  cases hblock : body.decl.body with
  | none =>
    rw [hblock] at h
    simp at h
  | some block =>
    rw [hblock] at h
    simp only [yields_bind, yields_modify] at h
    obtain ⟨code, c₁, hmodule, rfl⟩ := h
    obtain ⟨c₂, scope, scopes, hrun, _, rfl⟩ := yields_inModule hmodule
    simp only [yields_bind, yields_modifyFrame, yields_updateFrame] at hrun
    obtain ⟨_, _, rfl, _, c₃, hresult, _, c₄, hcode, _, c₅, hfinish, rfl, rfl⟩ := hrun
    have hquiet := Quiet.allocFor _ hresult
    obtain ⟨c₆, c₇, cs, n, hcs, hfollows, hfunction, hcodeEq, hmade, hlisting⟩ :=
      yields_bodyCode hcode
    obtain ⟨tail, rfl, hended, htail⟩ := yields_finishBody hfinish
    -- The frame is new, so all of its code is that of this body.
    have hempty : c₃.frame.code.toList = [] := hquiet.code
    rw [hempty, List.nil_append] at hcodeEq
    rw [hcodeEq, List.cons_append] at hended
    refine ⟨s, block, c₆, c₇, cs, n, tail, hs, rfl, hcs, hfollows, hfunction, hended, htail, ?_, ?_⟩
    · have hsection : (c₄.add tail).frame.code = (.args n :: (codeOf cs ++ tail)).toArray := by
        rw [← Array.toList_inj]
        simp [Compilation.add, hcodeEq]
      have hsame : c₄.listing = c.listing := hlisting.trans hquiet.listing
      show c₄.listing.addFunction ⟨id, s.mangled, (c₄.add tail).frame.code⟩ = _
      rw [hsection, hsame]
    · exact fun k => ⟨Nat.le_trans (hquiet.made_le k) (hmade k).1, (hmade k).2⟩

end Bodies

end ClassLang
