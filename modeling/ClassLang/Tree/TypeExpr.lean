import ClassLang.Span

/-!
# Types as they are written

A `TypeExpr` is only names and shapes; what the names mean is settled when the type is
resolved in a scope.
-/

namespace ClassLang

/-- A type in source text. -/
inductive TypeExpr where
  /-- A primitive, a class, a template parameter, or an instance such as `Box<Point>`. -/
  | named (name : String) (args : List TypeExpr) (span : Span)
  /-- `*T` -/
  | pointer (inner : TypeExpr) (span : Span)
  /-- `[T]` -/
  | array (inner : TypeExpr) (span : Span)
  /-- `fn(A, B) R` -/
  | function (params : List TypeExpr) (result : TypeExpr) (span : Span)

namespace TypeExpr

/-- Where the type is written. -/
def span : TypeExpr → Span
  | named _ _ s | pointer _ s | array _ s | function _ _ s => s

/-- The bare name of a named type. -/
def name? : TypeExpr → Option String
  | named n _ _ => some n
  | _ => none

mutual

/-- The type in source form. -/
def render : TypeExpr → String
  | named n args _ => if args.isEmpty then n else n ++ "<" ++ ", ".intercalate (renderAll args) ++ ">"
  | pointer inner _ => "*" ++ inner.render
  | array inner _ => "[" ++ inner.render ++ "]"
  | function params result _ => "fn(" ++ ", ".intercalate (renderAll params) ++ ") " ++ result.render

/-- Each of several types in source form. -/
def renderAll : List TypeExpr → List String
  | [] => []
  | t :: ts => t.render :: renderAll ts

end

end TypeExpr

end ClassLang
