/-!
# Operators of the language

The binary and unary operators with their spelling, and the classes of binary operators
that typing and lowering tell apart.
-/

namespace ClassLang

/-- Binary operators, loosest binding first. -/
inductive BinaryOp where
  | or
  | and
  | bitOr
  | bitXor
  | bitAnd
  | equal
  | notEqual
  | less
  | lessEqual
  | greater
  | greaterEqual
  | shiftLeft
  | shiftRight
  | add
  | sub
  | mul
  | div
  | mod
  deriving DecidableEq, Repr

namespace BinaryOp

/-- Every binary operator. -/
def all : List BinaryOp :=
  [or, and, bitOr, bitXor, bitAnd, equal, notEqual, less, lessEqual, greater, greaterEqual,
   shiftLeft, shiftRight, add, sub, mul, div, mod]

/-- The operator as it is written. -/
def spelling : BinaryOp → String
  | or => "or"
  | and => "and"
  | bitOr => "|"
  | bitXor => "^"
  | bitAnd => "&"
  | equal => "=="
  | notEqual => "!="
  | less => "<"
  | lessEqual => "<="
  | greater => ">"
  | greaterEqual => ">="
  | shiftLeft => "<<"
  | shiftRight => ">>"
  | add => "+"
  | sub => "-"
  | mul => "*"
  | div => "/"
  | mod => "%"

/-- The operator with a given spelling. -/
def ofSpelling? (s : String) : Option BinaryOp := all.find? fun op => op.spelling == s

/-- Operators that evaluate their right operand only when it matters. -/
def isLazy : BinaryOp → Bool
  | or | and => true
  | _ => false

/-- Equality and its negation. -/
def isEquality : BinaryOp → Bool
  | equal | notEqual => true
  | _ => false

/-- Operators that compare and always yield an `int`. -/
def isComparison : BinaryOp → Bool
  | equal | notEqual | less | lessEqual | greater | greaterEqual => true
  | _ => false

/-- Bit operations and shifts, which only integers have. -/
def isBitwise : BinaryOp → Bool
  | bitOr | bitXor | bitAnd | shiftLeft | shiftRight => true
  | _ => false

/-- A spelling belongs to one operator only. -/
theorem ofSpelling?_spelling (op : BinaryOp) : ofSpelling? op.spelling = some op := by
  cases op <;> decide

end BinaryOp

/-- Unary operators, written before their operand. -/
inductive UnaryOp where
  | neg
  | not
  | bitNot
  | deref
  | addrOf
  deriving DecidableEq, Repr

namespace UnaryOp

/-- Every unary operator. -/
def all : List UnaryOp := [neg, not, bitNot, deref, addrOf]

/-- The operator as it is written. -/
def spelling : UnaryOp → String
  | neg => "-"
  | not => "not"
  | bitNot => "~"
  | deref => "*"
  | addrOf => "&"

/-- The operator with a given spelling. -/
def ofSpelling? (s : String) : Option UnaryOp := all.find? fun op => op.spelling == s

/-- A spelling belongs to one operator only. -/
theorem ofSpelling?_spelling (op : UnaryOp) : ofSpelling? op.spelling = some op := by
  cases op <;> decide

end UnaryOp

end ClassLang
