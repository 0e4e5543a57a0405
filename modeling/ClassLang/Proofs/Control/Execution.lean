import ClassLang.Tree.Stmt

/-!
# What a statement does, step by step

The structured meaning of control flow. Expressions are not looked into: running a statement
evaluates some of them as a whole and tests others, and an oracle decides the outcome of each test
from what has happened so far. A statement ends in one of several ways, and the statement around
it says what becomes of each: a loop catches `break` and `continue`, also out of a switch, and a
case catches `fallthrough`.

A loop may run forever, so every loop is cut off after a given number of rounds.
-/

namespace ClassLang

/-- An expression or declaration that is run as a whole. -/
inductive Leaf where
  | effect (e : Expr)
  | declare (d : VarDecl)
  | delete (e : Expr)
  /-- The subject of a switch. -/
  | subject (e : Expr)
  /-- A returned value. -/
  | result (e : Expr)

/-- A question that decides where control goes. -/
inductive Test where
  /-- The condition of a branch or loop. -/
  | condition (e : Expr)
  /-- Whether the subject of a switch equals a value of a case. -/
  | candidate (e : Expr)

/-- What is seen of a run. -/
inductive Event where
  | leaf (l : Leaf)
  | test (t : Test) (outcome : Bool)

/-- What has happened, oldest first. -/
abbrev History := List Event

/-- Decides the outcome of a test from what happened before. -/
abbrev Oracle := History → Test → Bool

/-- How a statement ends. -/
inductive Ending where
  | finished
  /-- By `break`. -/
  | left
  /-- By `continue`. -/
  | again
  /-- By `fallthrough`. -/
  | fellThrough
  | returned
  /-- A loop had no rounds left. -/
  | cutOff
  deriving DecidableEq

namespace History

def leaf (h : History) (l : Leaf) : History := h ++ [.leaf l]

def test (h : History) (t : Test) (outcome : Bool) : History := h ++ [.test t outcome]

end History

namespace Stmt

variable (o : Oracle)

/-- Whether the subject equals one of some values, which are tested in order up to the first. -/
def firstEqual : List Expr → History → Bool × History
  | [], h => (false, h)
  | e :: es, h =>
    if o h (.candidate e) then (true, h.test (.candidate e) true)
    else firstEqual es (h.test (.candidate e) false)

/-- The position of the first case that is selected. -/
def selectCase : List Case → History → Option Nat × History
  | [], h => (none, h)
  | c :: cs, h =>
    match firstEqual o c.values h with
    | (true, h) => (some 0, h)
    | (false, h) =>
      match selectCase cs h with
      | (i, h) => (i.map (· + 1), h)

/-- The rounds of a loop. Each of them may be refused by a test in front and is followed by a
step, also when it was left by `continue`. -/
def rounds (test : History → Bool × History) (body : History → Ending × History)
    (next : History → History) : Nat → History → Ending × History
  | 0, h => (.cutOff, h)
  | n + 1, h =>
    match test h with
    | (false, h) => (.finished, h)
    | (true, h) =>
      match body h with
      | (.finished, h) | (.again, h) => rounds test body next n (next h)
      | (.left, h) => (.finished, h)
      | other => other

/-- Ask whether a condition holds. A loop may be without one. -/
def holds (c : Option Expr) (h : History) : Bool × History :=
  match c with
  | some c =>
    let outcome := o h (.condition c)
    (outcome, h.test (.condition c) outcome)
  | none => (true, h)

/-- What happens between two rounds of a loop. -/
def between (step : Option Expr) (h : History) : History :=
  match step with
  | some e => h.leaf (.effect e)
  | none => h

/-- Go on after a statement that finished. -/
def andThen (r : Ending × History) (next : History → Ending × History) : Ending × History :=
  match r with
  | (.finished, h) => next h
  | other => other

variable (bound : Nat)

mutual

/-- Run a statement: how it ends and what has happened then. -/
def exec : Stmt → History → Ending × History
  | expr e _, h => (.finished, h.leaf (.effect e))
  | declare d, h => (.finished, h.leaf (.declare d))
  | delete e _, h => (.finished, h.leaf (.delete e))
  | block body _, h => execAll body h
  | branch c yes no _, h =>
    match holds o (some c) h with
    | (true, h) => execAll yes h
    | (false, h) =>
      match no with
      | some s => exec s h
      | none => (.finished, h)
  | whileLoop c body _, h => rounds (holds o (some c)) (execAll body) (between none) bound h
  | forLoop init c step body _, h =>
    let loop := rounds (holds o c) (execAll body) (between step) bound
    match init with
    | some s => andThen (exec s h) loop
    | none => loop h
  | switch subject cases default _, h =>
    match selectCase o cases (h.leaf (.subject subject)) with
    | (some i, h) => execCases cases i h
    | (none, h) =>
      match default with
      | some body => execAll body h
      | none => (.finished, h)
  | ret value _, h =>
    match value with
    | some e => (.returned, h.leaf (.result e))
    | none => (.returned, h)
  | leave _, h => (.left, h)
  | again _, h => (.again, h)
  | fallthrough _, h => (.fellThrough, h)

/-- Run statements in order, up to the first that does not finish. -/
def execAll : List Stmt → History → Ending × History
  | [], h => (.finished, h)
  | s :: rest, h => andThen (exec s h) (execAll rest)

/-- Run the body of the case at a position, and those after it as long as control falls
through. Nothing catches a `fallthrough` of the last. -/
def execCases : List Case → Nat → History → Ending × History
  | [], _, h => (.fellThrough, h)
  | .mk _ body _ :: cs, 0, h =>
    match execAll body h with
    | (.fellThrough, h) => execCases cs 0 h
    | other => other
  | _ :: cs, i + 1, h => execCases cs i h

end

end Stmt

end ClassLang
