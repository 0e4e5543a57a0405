import ClassLang.Tree.Expr

/-!
# Statements

Blocks are lists of statements. `Stmt.alwaysReturns` decides, from the shape alone,
whether control can leave a statement only through `return`. The check is conservative:
a loop never counts as returning, whatever its condition.
-/

namespace ClassLang

/-- `var name: type = init` or `const name: type = init`. -/
structure VarDecl where
  name : Ident
  type : Option TypeExpr
  init : Option Expr
  isConst : Bool
  span : Span

mutual

/-- A statement. -/
inductive Stmt where
  | expr (value : Expr) (span : Span)
  | declare (decl : VarDecl)
  | block (body : List Stmt) (span : Span)
  | branch (condition : Expr) (yes : List Stmt) (no : Option Stmt) (span : Span)
  | whileLoop (condition : Expr) (body : List Stmt) (span : Span)
  | forLoop (init : Option Stmt) (condition step : Option Expr) (body : List Stmt) (span : Span)
  | switch (subject : Expr) (cases : List Case) (default : Option (List Stmt)) (span : Span)
  | ret (value : Option Expr) (span : Span)
  | leave (span : Span)
  | again (span : Span)
  | fallthrough (span : Span)
  | delete (target : Expr) (span : Span)

/-- One case of a switch statement: the values that select it, and its body. -/
inductive Case where
  | mk (values : List Expr) (body : List Stmt) (span : Span)

end

namespace Case

/-- The values that select the case. -/
def values : Case → List Expr
  | mk vs _ _ => vs

/-- The statements of the case. -/
def body : Case → List Stmt
  | mk _ b _ => b

end Case

namespace Stmt

/-- Where the statement is written. -/
def span : Stmt → Span
  | expr _ s | block _ s | branch _ _ _ s | whileLoop _ _ s | forLoop _ _ _ _ s
  | switch _ _ _ s | ret _ s | leave s | again s | fallthrough s | delete _ s => s
  | declare d => d.span

/-- Whether the statement is `fallthrough`. -/
def isFallthrough : Stmt → Bool
  | fallthrough _ => true
  | _ => false

/-- Whether the last statement of a block is `fallthrough`. -/
def endsInFallthrough (body : List Stmt) : Bool :=
  match body.getLast? with
  | some s => s.isFallthrough
  | none => false

mutual

/-- Whether control can leave the statement only through `return`. -/
def alwaysReturns : Stmt → Bool
  | ret .. => true
  | block body _ => blockReturns body
  | branch _ yes no _ =>
    match no with
    | some s => blockReturns yes && s.alwaysReturns
    | none => false
  | switch _ cases default _ =>
    match default with
    | some body => blockReturns body && casesReturn cases
    | none => false
  | _ => false

/-- A block returns when one of its statements does. -/
def blockReturns : List Stmt → Bool
  | [] => false
  | s :: rest => s.alwaysReturns || blockReturns rest

/-- Every case returns, itself or by falling through into one that does. The last case has
nothing to fall into. -/
def casesReturn : List Case → Bool
  | [] => true
  | .mk _ body _ :: rest =>
    casesReturn rest && (blockReturns body || (endsInFallthrough body && !rest.isEmpty))

end

end Stmt

end ClassLang
