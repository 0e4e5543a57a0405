import ClassLang.Builtin
import ClassLang.Code.Operand
import ClassLang.Diagnostic
import ClassLang.Table

/-!
# Scopes

Names are looked up in a chain of scopes, innermost first. A scope may shadow the names of
those around it, but cannot define a name twice; only the overloads of a function share a
name. What opened a scope decides what else is visible through it: the function one is in,
the targets of `break` and `continue`, the case that `fallthrough` goes to. The global scope
lies under all others and is never left.
-/

namespace ClassLang

/-- A variable: its type, its place and whether it may be assigned to. -/
structure Binding where
  type : Ty
  address : Address
  isConst : Bool
  span : Span
  deriving DecidableEq

/-- What a name stands for. -/
inductive Meaning where
  | variable (binding : Binding)
  /-- The overloads of a free function, by number. -/
  | functions (ids : List Nat)
  | classOf (hash : TypeHash)
  | native (native : Native)
  | intrinsic (intrinsic : Intrinsic)
  /-- A template parameter inside its class. -/
  | typeParam (type : Ty)
  deriving DecidableEq

/-- What a name stands for, and where it was defined. -/
structure Entry where
  meaning : Meaning
  span : Span
  deriving DecidableEq

/-- What opened a scope. -/
inductive ScopeKind where
  | global
  | module (path : String)
  | function (name : String) (result : Ty)
  /-- A method body; `owner` is the class of the receiver. -/
  | method (name : String) (result owner : Ty)
  | block
  | loop (leave again : Label)
  /-- A case body and the body that follows it, if it can be fallen into. -/
  | caseBody (next : Option Label)
  deriving DecidableEq

/-- One scope: what opened it, and its names in the order of their definition. -/
structure Scope where
  kind : ScopeKind
  entries : Table String Entry

namespace Scope

def opened (kind : ScopeKind) : Scope := ⟨kind, .empty⟩

def find? (s : Scope) (name : String) : Option Entry := s.entries.find? name

/-- The numbers of `ids` and then those of `more` that are new. -/
def mergeIds (ids more : List Nat) : List Nat :=
  more.foldl (fun ids id => if ids.contains id then ids else ids ++ [id]) ids

/-- Define a name. Defining a function again adds to its overloads. -/
def define (s : Scope) (name : String) (d : Meaning) (span : Span) :
    Except CompileError Scope :=
  match s.find? name, d with
  | none, _ => .ok { s with entries := s.entries.insert name ⟨d, span⟩ }
  | some ⟨.functions ids, first⟩, .functions more =>
    .ok { s with entries := s.entries.insert name ⟨.functions (mergeIds ids more), first⟩ }
  | some existing, _ => .error (.located (.redefinition name existing.span) span)

end Scope

/-- The function that a statement is in. -/
structure FunctionContext where
  name : String
  result : Ty
  /-- The class of the receiver, in a method. -/
  owner : Option Ty
  deriving DecidableEq

/-- The chain of scopes: the global scope, and the others innermost first. -/
structure Scopes where
  global : Scope
  inner : List Scope

namespace Scopes

/-- The chain that consists of the global scope alone. -/
def initial : Scopes := ⟨.opened .global, []⟩

/-- The number of scopes. -/
def depth (s : Scopes) : Nat := s.inner.length + 1

/-- All scopes, innermost first. -/
def chain (s : Scopes) : List Scope := s.inner ++ [s.global]

/-- The innermost scope. -/
def current (s : Scopes) : Scope := s.inner.head?.getD s.global

def push (s : Scopes) (scope : Scope) : Scopes := { s with inner := scope :: s.inner }

/-- Open a scope. -/
def enter (s : Scopes) (kind : ScopeKind) : Scopes := s.push (.opened kind)

/-- Leave the innermost scope, which must not be the global one. -/
def pop (s : Scopes) : Except CompileError (Scope × Scopes) :=
  if s.depth ≤ 1 then .error (.internal .globalScopeLeft)
  else
    match s.inner with
    | [] => .error (.internal .noScope)
    | scope :: rest => .ok (scope, { s with inner := rest })

/-- If there is no scope but the global one, that is what is left. -/
theorem pop_eq (s : Scopes) : s.pop =
    match s.inner with
    | [] => .error (.internal .globalScopeLeft)
    | scope :: rest => .ok (scope, { s with inner := rest }) := by
  unfold pop depth
  cases s.inner with
  | nil => rfl
  | cons => rfl

/-- Leave scopes until at most `depth` are left, but never the global one. -/
def truncate (s : Scopes) (depth : Nat) : Scopes :=
  { s with inner := s.inner.drop (s.inner.length - (depth - 1)) }

/-- Define a name in the global scope. -/
def defineGlobal (s : Scopes) (name : String) (d : Meaning) (span : Span) :
    Except CompileError Scopes := do
  return { s with global := ← s.global.define name d span }

/-- Define a name in the innermost scope. -/
def define (s : Scopes) (name : String) (d : Meaning) (span : Span) :
    Except CompileError Scopes :=
  match s.inner with
  | [] => s.defineGlobal name d span
  | scope :: rest => do return { s with inner := (← scope.define name d span) :: rest }

/-- Define a variable in the innermost scope. -/
def defineVariable (s : Scopes) (name : String) (type : Ty) (address : Address) (isConst : Bool)
    (span : Span) : Except CompileError Scopes :=
  s.define name (.variable ⟨type, address, isConst, span⟩) span

/-- What a name stands for in the innermost scope that defines it. -/
def find? (s : Scopes) (name : String) : Option Entry := s.chain.findSome? (·.find? name)

/-- Look up a name that must be defined. -/
def resolve (s : Scopes) (name : String) (span : Span) : Except CompileError Entry :=
  match s.find? name with
  | some e => .ok e
  | none => .error (.located (.unknownName name) span)

/-! ## What the scopes around a statement say -/

/-- The nearest function or method. -/
def function? (s : Scopes) : Option FunctionContext :=
  s.chain.findSome? fun scope =>
    match scope.kind with
    | .function name result => some ⟨name, result, none⟩
    | .method name result owner => some ⟨name, result, some owner⟩
    | _ => none

/-- The class of the receiver, in a method. -/
def receiverClass? (s : Scopes) : Option Ty := s.function?.bind (·.owner)

/-- The targets of `break` and `continue` in a chain: those of the nearest loop in the same
function. Cases in between do not matter. -/
def loopIn? : List Scope → Option (Label × Label)
  | [] => none
  | scope :: rest =>
    match scope.kind with
    | .loop leave again => some (leave, again)
    | .function .. | .method .. => none
    | _ => loopIn? rest

/-- The targets of `break` and `continue`. -/
def loop? (s : Scopes) : Option (Label × Label) := loopIn? s.chain

/-- The target of `fallthrough` in a chain: `none` outside of a case, `some none` in a case
that cannot be left that way. A loop hides the cases around it. -/
def caseIn? : List Scope → Option (Option Label)
  | [] => none
  | scope :: rest =>
    match scope.kind with
    | .caseBody next => some next
    | .loop .. | .function .. | .method .. => none
    | _ => caseIn? rest

/-- The target of `fallthrough`. -/
def case? (s : Scopes) : Option (Option Label) := caseIn? s.chain

/-- The path of the module one is in. -/
def modulePath? (s : Scopes) : Option String :=
  s.chain.findSome? fun scope =>
    match scope.kind with
    | .module path => some path
    | _ => none

end Scopes

end ClassLang
