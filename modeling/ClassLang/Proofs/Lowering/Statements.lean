import ClassLang.Proofs.Lowering.Traversal

/-!
# Properties of all statements

A property of the steps of lowering that scopes keep, and that holds for the declaration of a
variable, holds for every statement.
-/

-- The instances of long steps are large terms.
set_option synthInstance.maxSize 1000

namespace ClassLang

open CompileM

namespace Lowering

/-- A property of steps that scopes and declarations have as well. -/
class Scoped (P : (α : Type) → CompileM α → Prop) : Prop extends Jumps P where
  inScope {α : Type} {kind : ScopeKind} {body : CompileM α} : P α body → P α (inScope kind body)
  binding (name : String) (b : Binding) (span : Span) : P Unit (define name (.variable b) span)

section Scoped

variable {P : (α : Type) → CompileM α → Prop} [Scoped P]

instance {α : Type} (kind : ScopeKind) (body : CompileM α) [hbody : Has P body] :
    Has P (inScope kind body) := ⟨Scoped.inScope hbody.out⟩

instance (name : String) (b : Binding) (span : Span) : Has P (define name (.variable b) span) :=
  ⟨Scoped.binding name b span⟩

/-! ## Simple statements -/

instance (e : Expr) (target : Label) : Has P (jumpUnless e target) := by
  unfold jumpUnless
  infer_instance

instance (span : Span) : Has P (leave span) := by
  unfold leave
  refine .bind fun c => ?_
  split <;> infer_instance

instance (span : Span) : Has P (again span) := by
  unfold again
  refine .bind fun c => ?_
  split <;> infer_instance

instance (span : Span) : Has P (fallInto span) := by
  unfold fallInto
  refine .bind fun c => ?_
  split <;> infer_instance

instance (d : VarDecl) : Has P (declare d) := by
  unfold declare
  infer_instance

instance (e : Option Expr) (span : Span) : Has P (ret e span) := by
  unfold ret
  refine .bind fun c => ?_
  split
  · infer_instance
  · split
    · dsimp only
      infer_instance
    · dsimp only
      infer_instance

/-! ## Control flow -/

instance {α : Type} (step : α → CompileM Unit) (a : Option α) [∀ a, Has P (step a)] :
    Has P (optionally step a) := by
  cases a <;> unfold optionally <;> infer_instance

instance has_caseTests (subject : Slot) :
    ∀ (cs : List Case) (targets : List Label), Has P (caseTests subject cs targets)
  | c :: cs, target :: targets => by
    have := has_tests (P := P) subject target c.values fun e _ => inferInstance
    have := has_caseTests subject cs targets
    unfold caseTests
    infer_instance
  | [], _ => by
    unfold caseTests
    infer_instance
  | _ :: _, [] => by
    unfold caseTests
    infer_instance

instance has_caseLabels : ∀ cs : List Case, Has P (caseLabels cs)
  | [] => by
    unfold caseLabels
    infer_instance
  | _ :: cs => by
    have := has_caseLabels cs
    unfold caseLabels
    infer_instance

/-- What a loop does in its scope. -/
theorem has_forLoop (init : Option Stmt) (condition step : Option Expr) (body : List Stmt)
    [Has P (optionally stmt init)] [Has P (stmts body)] : Has P (do
    optionally stmt init
    let top ← freshLabel .loop
    let done ← freshLabel .endLoop
    let next ← freshLabel .general
    emitLabel top
    optionally (jumpUnless · done) condition
    inScope (.loop done next) (stmts body)
    emitLabel next
    optionally effect step
    emitGoto top
    emitLabel done) := by
  refine .bind fun _ => .bind fun _ => .bind fun _ => .bind fun _ => .bind fun _ => ?_
  infer_instance

-- The variables are used through the recursion.
set_option linter.unusedSectionVars false

mutual

theorem has_stmt : ∀ s : Stmt, Has P (stmt s)
  | .expr e _ => by
    unfold stmt
    infer_instance
  | .declare d => by
    unfold stmt
    infer_instance
  | .block body _ => by
    have := has_stmts body
    unfold stmt
    infer_instance
  | .branch c yes none _ => by
    have := has_stmts yes
    unfold stmt
    infer_instance
  | .branch c yes (some no) _ => by
    have := has_stmts yes
    have := has_stmt no
    unfold stmt
    infer_instance
  | .whileLoop c body _ => by
    have := has_stmts body
    unfold stmt
    infer_instance
  | .forLoop init c step body span => by
    have hinit : Has P (optionally stmt init) := by
      cases init with
      | none =>
        unfold optionally
        infer_instance
      | some s =>
        have := has_stmt s
        unfold optionally
        infer_instance
    have := has_stmts body
    have := has_forLoop (P := P) init c step body
    rw [stmt_forLoop]
    infer_instance
  | .switch subject cs none _ => by
    have := fun done labels => has_caseBodies done cs labels
    unfold stmt
    infer_instance
  | .switch subject cs (some body) _ => by
    have := fun done labels => has_caseBodies done cs labels
    have := has_stmts body
    unfold stmt
    infer_instance
  | .ret e span => by
    unfold stmt
    infer_instance
  | .leave span => by
    unfold stmt
    infer_instance
  | .again span => by
    unfold stmt
    infer_instance
  | .fallthrough span => by
    unfold stmt
    infer_instance
  | .delete target span => by
    unfold stmt
    infer_instance

theorem has_stmts : ∀ ss : List Stmt, Has P (stmts ss)
  | [] => by
    unfold stmts
    infer_instance
  | s :: rest => by
    have := has_stmt s
    have := has_stmts rest
    unfold stmts
    infer_instance

theorem has_caseBodies (done : Label) :
    ∀ (cs : List Case) (labels : List Label), Has P (caseBodies done cs labels)
  | .mk _ body _ :: cs, label :: labels => by
    have := has_stmts body
    have := has_caseBodies done cs labels
    unfold caseBodies
    infer_instance
  | [], _ => by
    unfold caseBodies
    infer_instance
  | .mk _ _ _ :: _, [] => by
    unfold caseBodies
    infer_instance

end

attribute [instance] has_stmt has_stmts has_caseBodies

end Scoped

end Lowering

end ClassLang
