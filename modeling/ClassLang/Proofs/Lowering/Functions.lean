import ClassLang.Compile
import ClassLang.Proofs.Lowering.Statements

/-!
# Properties of all functions

A function makes its template parameters, its receiver and its parameters visible, says where its
arguments end, and then runs statements. So a property of all statements that the definition of a
template parameter has as well holds for the code of every function.
-/

-- The instances of long steps are large terms.
set_option synthInstance.maxSize 1000

namespace ClassLang

open CompileM Lowering

/-- A property of statements that the definition of template parameters has, too. -/
class Framed (P : (α : Type) → CompileM α → Prop) : Prop extends Scoped P where
  template (name : String) (t : Ty) (span : Span) : P Unit (define name (.typeParam t) span)

namespace Bodies

variable {P : (α : Type) → CompileM α → Prop} [Framed P]

instance (hash : TypeHash) : Has P (defineTemplates hash) := by
  have : ∀ (p : TemplateParam) (span : Span),
      Has P (define p.name (.typeParam (.param p.name p.bound)) span) :=
    fun p span => ⟨Framed.template ..⟩
  unfold defineTemplates
  infer_instance

instance (name : String) (t : Ty) (a : Address) (isConst : Bool) (span : Span) :
    Has P (updateScopes (·.defineVariable name t a isConst span)) :=
  ⟨Scoped.binding name ⟨t, a, isConst, span⟩ span⟩

instance has_defineParams : ∀ (names : List String) (ts : List Ty) (ps : List Param),
    Has P (defineParams names ts ps)
  | name :: names, t :: ts, p :: ps => by
    have := has_defineParams names ts ps
    unfold defineParams
    infer_instance
  | [], _, _ => by
    unfold defineParams
    infer_instance
  | _ :: _, [], _ => by
    unfold defineParams
    infer_instance
  | _ :: _, _ :: _, [] => by
    unfold defineParams
    infer_instance

instance (owner : TypeHash) (span : Span) : Has P (defineReceiver owner span) := by
  unfold defineReceiver
  infer_instance

instance (s : Signature) (body : PendingBody) (block : List Stmt) :
    Has P (bodyCode s body block) := by
  have hargs : ∀ n, Has P (emit (.args n)) := fun n => ⟨Jumps.jump _ rfl⟩
  have hbody : Has P (do
      if let some owner := body.owner then defineReceiver owner body.decl.span
      defineParams s.paramNames s.params body.decl.params
      emit (.args (← get).frame.top)
      Lowering.stmts block) := by
    dsimp only
    split <;> infer_instance
  unfold bodyCode
  infer_instance

instance (s : Signature) (block : List Stmt) (span : Span) : Has P (finishBody s block span) := by
  unfold finishBody
  infer_instance

end Bodies

end ClassLang
