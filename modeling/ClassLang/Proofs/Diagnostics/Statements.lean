import ClassLang.Proofs.Diagnostics.Expressions
import ClassLang.Proofs.Lowering.Statements

/-!
# Statements agree

A statement is lowered alike from states of one outline: what it declares, where it jumps and what
it warns about do not depend on where its values are.
-/

-- The instances of long steps are large terms.
set_option synthInstance.maxSize 1000

namespace ClassLang

open CompileM

namespace Lowering

instance (e : Expr) (dest dest' : Option Slot) : Agree (expr e dest) (expr e dest') := by
  unfold expr
  infer_instance

instance (e : Expr) : Agree (probeType e) (probeType e) := by
  unfold probeType
  infer_instance

instance (e : Expr) : Agree (value e) (value e) := by
  unfold value
  infer_instance

instance (e : Expr) (t : Ty) (a b : Address) : Agree (into e ⟨t, a⟩) (into e ⟨t, b⟩) := by
  unfold into
  infer_instance

/-! ## Simple statements -/

instance (e : Expr) : Agree (effect e) (effect e) := by
  unfold effect
  infer_instance

instance (e : Expr) (target : Label) : Agree (jumpUnless e target) (jumpUnless e target) := by
  unfold jumpUnless
  infer_instance

instance (target : Expr) (span : Span) : Agree (delete target span) (delete target span) := by
  unfold delete
  infer_instance

/-- Scopes that look alike say the same about loops and cases. -/
theorem loop?_of_alike {c d : Compilation} (h : Alike c d) : c.scopes.loop? = d.scopes.loop? :=
  Scopes.loop?_congr (Scopes.kinds_of_alike h.scopes.eq)

theorem case?_of_alike {c d : Compilation} (h : Alike c d) : c.scopes.case? = d.scopes.case? :=
  Scopes.case?_congr (Scopes.kinds_of_alike h.scopes.eq)

instance (span : Span) : Agree (leave span) (leave span) := by
  unfold leave
  refine .bind fun c d h => ?_
  rw [loop?_of_alike h]
  split <;> infer_instance

instance (span : Span) : Agree (again span) (again span) := by
  unfold again
  refine .bind fun c d h => ?_
  rw [loop?_of_alike h]
  split <;> infer_instance

instance (span : Span) : Agree (fallInto span) (fallInto span) := by
  unfold fallInto
  refine .bind fun c d h => ?_
  rw [case?_of_alike h]
  split <;> infer_instance

/-! ## Declarations and returns -/

instance (t : Ty) (span : Span) : Agree (requireConcrete t span) (requireConcrete t span) := by
  unfold requireConcrete
  cases t.classHash? <;> infer_instance

instance (d : VarDecl) : Agree (declaredType d) (declaredType d) := by
  have hcheck : ∀ type : Ty, Agree (match type with
      | .prim .void => fail (.typing (.voidVariable d.name.name)) d.span
      | .intrinsic .. => fail (.typing (.intrinsicVariable d.name.name)) d.span
      | .param n _ => fail (.typing (.parameterByValue n)) d.span
      | _ => do
        requireConcrete type d.span
        return type : CompileM Ty) (match type with
      | .prim .void => fail (.typing (.voidVariable d.name.name)) d.span
      | .intrinsic .. => fail (.typing (.intrinsicVariable d.name.name)) d.span
      | .param n _ => fail (.typing (.parameterByValue n)) d.span
      | _ => do
        requireConcrete type d.span
        return type) := by
    intro type
    split <;> infer_instance
  unfold declaredType
  split <;> infer_instance

instance (d : VarDecl) (t : Ty) (a b : Address) :
    Agree (storeInitial d ⟨t, a⟩) (storeInitial d ⟨t, b⟩) := by
  unfold storeInitial
  split <;> infer_instance

instance (t : Ty) (a b : Address) (isConst : Bool) (span : Span) :
    Alike (Meaning.variable ⟨t, a, isConst, span⟩) (.variable ⟨t, b, isConst, span⟩) := ⟨rfl⟩

instance (d : VarDecl) : Agree (declare d) (declare d) := by
  unfold declare
  infer_instance

instance (e : Expr) (result : Ty) : Agree (returnValue e result) (returnValue e result) := by
  unfold returnValue
  refine @agree_bind_slot _ _ _ _ _ _ _ fun t a b => .bind fun c d h => ?_
  rw [h.registry]
  dsimp only
  split <;> infer_instance

instance (e : Option Expr) (span : Span) : Agree (ret e span) (ret e span) := by
  unfold ret
  refine .bind fun c d h => ?_
  rw [Scopes.function?_congr (Scopes.kinds_of_alike h.scopes.eq)]
  split
  · infer_instance
  · split
    · dsimp only
      infer_instance
    · dsimp only
      infer_instance

/-! ## Control flow -/

instance {α : Type} (step : α → CompileM Unit) (a : Option α) [∀ a, Agree (step a) (step a)] :
    Agree (optionally step a) (optionally step a) := by
  cases a <;> unfold optionally <;> infer_instance

instance agree_caseTests (t : Ty) (a b : Address) : ∀ (cs : List Case) (targets : List Label),
    Agree (caseTests ⟨t, a⟩ cs targets) (caseTests ⟨t, b⟩ cs targets)
  | c :: cs, target :: targets => by
    have := agree_caseTests t a b cs targets
    unfold caseTests
    infer_instance
  | [], _ => by
    unfold caseTests
    infer_instance
  | _ :: _, [] => by
    unfold caseTests
    infer_instance

instance agree_caseLabels : ∀ cs : List Case, Agree (caseLabels cs) (caseLabels cs)
  | [] => by
    unfold caseLabels
    infer_instance
  | _ :: cs => by
    have := agree_caseLabels cs
    unfold caseLabels
    infer_instance

mutual

instance agree_stmt : ∀ s : Stmt, Agree (stmt s) (stmt s)
  | .expr e _ => by
    unfold stmt
    infer_instance
  | .declare d => by
    unfold stmt
    infer_instance
  | .block body _ => by
    have := agree_stmts body
    unfold stmt
    infer_instance
  | .branch c yes none _ => by
    have := agree_stmts yes
    unfold stmt
    infer_instance
  | .branch c yes (some no) _ => by
    have := agree_stmts yes
    have := agree_stmt no
    unfold stmt
    infer_instance
  | .whileLoop c body _ => by
    have := agree_stmts body
    unfold stmt
    infer_instance
  | .forLoop init c step body span => by
    have hinit : Agree (optionally stmt init) (optionally stmt init) := by
      cases init with
      | none =>
        unfold optionally
        infer_instance
      | some s =>
        have := agree_stmt s
        unfold optionally
        infer_instance
    have := agree_stmts body
    rw [stmt_forLoop]
    infer_instance
  | .switch subject cs none _ => by
    have := fun done labels => agree_caseBodies done cs labels
    unfold stmt
    infer_instance
  | .switch subject cs (some body) _ => by
    have := fun done labels => agree_caseBodies done cs labels
    have := agree_stmts body
    unfold stmt
    infer_instance
  | .ret e span => by
    unfold stmt
    infer_instance
  | .leave span => by
    unfold stmt
    infer_instance
  | .again span => by
    unfold stmt
    infer_instance
  | .fallthrough span => by
    unfold stmt
    infer_instance
  | .delete target span => by
    unfold stmt
    infer_instance

instance agree_stmts : ∀ ss : List Stmt, Agree (stmts ss) (stmts ss)
  | [] => by
    unfold stmts
    infer_instance
  | s :: rest => by
    have := agree_stmt s
    have := agree_stmts rest
    unfold stmts
    infer_instance

instance agree_caseBodies (done : Label) : ∀ (cs : List Case) (labels : List Label),
    Agree (caseBodies done cs labels) (caseBodies done cs labels)
  | .mk _ body _ :: cs, label :: labels => by
    have := agree_stmts body
    have := agree_caseBodies done cs labels
    unfold caseBodies
    infer_instance
  | [], _ => by
    unfold caseBodies
    infer_instance
  | .mk _ _ _ :: _, [] => by
    unfold caseBodies
    infer_instance

end

end Lowering

end ClassLang
