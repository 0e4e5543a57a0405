import ClassLang.Literal
import ClassLang.Tree.Operator
import ClassLang.Tree.TypeExpr

/-!
# Expressions

The tree of an expression as it reaches the compiler: literals carry their values, names
are unresolved, and an unexpanded placeholder may still be left over.
-/

namespace ClassLang

/-- A name and where it is written. -/
structure Ident where
  name : String
  span : Span
  deriving DecidableEq, Repr

mutual

/-- An expression. -/
inductive Expr where
  | literal (value : Literal) (span : Span)
  | name (name : String) (span : Span)
  /-- `this` -/
  | receiver (span : Span)
  | binary (op : BinaryOp) (left right : Expr) (span : Span)
  | unary (op : UnaryOp) (operand : Expr) (span : Span)
  /-- `target = value` -/
  | assign (target value : Expr) (span : Span)
  | call (callee : Expr) (args : List Expr) (span : Span)
  /-- `object.member` -/
  | member (object : Expr) (member : Ident) (span : Span)
  /-- `Class::member` -/
  | scopedName (owner : TypeExpr) (member : Ident) (span : Span)
  /-- `object[position]` -/
  | index (object position : Expr) (span : Span)
  /-- `new Class(args)` -/
  | newObject (owner : TypeExpr) (args : List Expr) (span : Span)
  /-- `new T[d0][d1]` -/
  | newArray (element : TypeExpr) (dims : List Expr) (span : Span)
  /-- `[a, b, c]` -/
  | array (elements : List Expr) (span : Span)
  /-- `operand as T` -/
  | cast (operand : Expr) (target : TypeExpr) (span : Span)
  | instanceOf (operand : Expr) (owner : TypeExpr) (span : Span)
  /-- `if condition then yes else no` -/
  | conditional (condition yes no : Expr) (span : Span)
  | switch (subject : Expr) (arms : List Arm) (default : Expr) (span : Span)
  /-- A node that an earlier stage should have replaced. -/
  | placeholder (name : String) (span : Span)

/-- One arm of a switch expression: the values that select it, and its result. -/
inductive Arm where
  | mk (values : List Expr) (result : Expr) (span : Span)

end

namespace Arm

/-- The values that select the arm. -/
def values : Arm → List Expr
  | mk vs _ _ => vs

/-- What the arm yields. -/
def result : Arm → Expr
  | mk _ r _ => r

end Arm

namespace Expr

/-- Where the expression is written. -/
def span : Expr → Span
  | literal _ s | name _ s | receiver s | binary _ _ _ s | unary _ _ s | assign _ _ s
  | call _ _ s | member _ _ s | scopedName _ _ s | index _ _ s | newObject _ _ s
  | newArray _ _ s | array _ s | cast _ _ s | instanceOf _ _ s | conditional _ _ _ s
  | switch _ _ _ s | placeholder _ s => s

/-- The form of the expression, as diagnostics name it. -/
def form : Expr → String
  | literal .. => "literal"
  | name .. => "name"
  | receiver .. => "this"
  | binary .. => "binary"
  | unary .. => "unary"
  | assign .. => "assignment"
  | call .. => "call"
  | member .. => "member"
  | scopedName .. => "scoped"
  | index .. => "index"
  | newObject .. => "new"
  | newArray .. => "new array"
  | array .. => "array literal"
  | cast .. => "cast"
  | instanceOf .. => "instanceof"
  | conditional .. => "if expression"
  | switch .. => "switch expression"
  | placeholder .. => "placeholder"

/-- Whether the expression has the form of a name. -/
def isName : Expr → Bool
  | name .. => true
  | _ => false

/-- Whether the expression is a dereference. -/
def isDeref : Expr → Bool
  | unary .deref .. => true
  | _ => false

/-- Forms whose address may be taken. -/
def isAddressable : Expr → Bool
  | name .. | member .. | index .. => true
  | e => e.isDeref

/-- Forms that may stand on the left of an assignment. -/
def isAssignable : Expr → Bool
  | name .. | receiver .. | member .. | index .. => true
  | e => e.isDeref

/-- Whether the expression is an integer literal. -/
def isIntLiteral : Expr → Bool
  | literal (.int _) _ => true
  | _ => false

end Expr

end ClassLang
