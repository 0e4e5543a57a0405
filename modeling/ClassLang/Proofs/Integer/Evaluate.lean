import ClassLang.Lowering.Operation
import ClassLang.Proofs.Machine.Literals
import ClassLang.Proofs.Machine.Run

/-!
# Integer expressions and their values

The expressions that are built from integer and character literals, variables, operators, casts
between integral types, conditionals and switches, and the value of such an expression when its
variables have given values. Values are signed words; those of `char` and `byte` are not
negative. The right operand of a lazy operator and the branches of a conditional count only if
they are reached, and a switch tries its values in order.
-/

namespace ClassLang

/-- The integral type that a written type is. -/
def TypeExpr.integral? : TypeExpr → Option Prim
  | .named name [] _ => (Prim.ofName? name).filter (·.isIntegral)
  | _ => none

/-- Operators that take integers to integers. -/
def UnaryOp.isInteger : UnaryOp → Bool
  | neg | not | bitNot => true
  | _ => false

/-- What an operator that is not lazy does with two words. -/
def BinaryOp.apply (u : Arithmetic) : BinaryOp → Int64 → Int64 → Int64
  | add, x, y => x + y
  | sub, x, y => x - y
  | mul, x, y => x * y
  | div, x, y => if y = 0 then u.byZero .div x else x / y
  | mod, x, y => if y = 0 then u.byZero .mod x else x % y
  | equal, x, y => Machine.truth (x = y)
  | notEqual, x, y => Machine.truth (x ≠ y)
  | less, x, y => Machine.truth (x < y)
  | lessEqual, x, y => Machine.truth (x ≤ y)
  | greater, x, y => Machine.truth (y < x)
  | greaterEqual, x, y => Machine.truth (y ≤ x)
  | bitAnd, x, y | and, x, y => x &&& y
  | bitOr, x, y | or, x, y => x ||| y
  | bitXor, x, y => x ^^^ y
  | shiftLeft, x, y => u.shiftLeft x y
  | shiftRight, x, y => u.shiftRight x y

theorem BinaryOp.intOp_apply (u : Arithmetic) (op : BinaryOp) (x y : Int64) :
    Machine.intOp u op.intOp x y = op.apply u x y := by
  cases op <;> rfl

/-- The value of an integer or character literal. -/
def Literal.integer : Literal → Int64
  | int v => v
  | char v => Bytes.word [v]
  | _ => 0

namespace Expr

mutual

/-- Whether an expression is an integer expression, given its variables. -/
def isInteger (isVariable : String → Bool) : Expr → Bool
  | literal l _ => l.isIntegral
  | name n _ => isVariable n
  | binary _ l r _ => l.isInteger isVariable && r.isInteger isVariable
  | unary op e _ => op.isInteger && e.isInteger isVariable
  | cast e t _ => t.integral?.isSome && e.isInteger isVariable
  | conditional c yes no _ =>
    c.isInteger isVariable && (yes.isInteger isVariable && no.isInteger isVariable)
  | switch subject arms default _ =>
    subject.isInteger isVariable && (armsInteger isVariable arms && default.isInteger isVariable)
  | _ => false

/-- Whether all values and results of some arms are integer expressions. -/
def armsInteger (isVariable : String → Bool) : List Arm → Bool
  | [] => true
  | .mk vs result _ :: arms =>
    allInteger isVariable vs && (result.isInteger isVariable && armsInteger isVariable arms)

/-- Whether all of some expressions are integer expressions. -/
def allInteger (isVariable : String → Bool) : List Expr → Bool
  | [] => true
  | e :: es => e.isInteger isVariable && allInteger isVariable es

end

variable (u : Arithmetic) (env : String → Int64)

mutual

/-- The value of an integer expression. -/
def eval : Expr → Int64
  | literal l _ => l.integer
  | name n _ => env n
  | binary op l r _ =>
    match op with
    | .and => if l.eval = 0 then 0 else r.eval
    | .or => if l.eval = 0 then r.eval else 1
    | op => op.apply u l.eval r.eval
  | unary op e _ =>
    match op with
    | .neg => -e.eval
    | .not => Machine.truth (e.eval = 0)
    | .bitNot => ~~~e.eval
    | _ => 0
  | cast e t _ =>
    match t.integral? with
    | some p => p.fit e.eval
    | none => 0
  | conditional c yes no _ => if c.eval = 0 then no.eval else yes.eval
  | switch subject arms default _ => evalArms subject.eval arms default.eval
  | _ => 0

/-- The value of the first arm that a value selects, or else a default. -/
def evalArms (v : Int64) : List Arm → Int64 → Int64
  | [], default => default
  | .mk vs result _ :: arms, default =>
    if anyEqual v vs then result.eval else evalArms v arms default

/-- Whether one of some expressions has a given value. -/
def anyEqual (v : Int64) : List Expr → Bool
  | [] => false
  | e :: es => v = e.eval || anyEqual v es

end

theorem eval_of_not_isLazy {op : BinaryOp} (h : op.isLazy = false) (l r : Expr) (span : Span) :
    (binary op l r span).eval u env = op.apply u (l.eval u env) (r.eval u env) := by
  rw [eval]
  all_goals
    rintro rfl
    cases h

theorem eval_of_isLazy {op : BinaryOp} (h : op.isLazy = true) (l r : Expr) (span : Span) :
    (binary op l r span).eval u env =
      if l.eval u env = 0 then if op == .and then 0 else r.eval u env
      else if op == .and then r.eval u env else 1 := by
  cases op <;> first | cases h; done | rw [eval]; rfl

end Expr

end ClassLang
