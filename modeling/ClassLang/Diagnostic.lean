import ClassLang.Hash.TypeHash
import ClassLang.Span

/-!
# Diagnostics

Every way in which a program can be wrong is a constructor, and its wording is in one
place, `message`. Compilation stops at the first error; warnings never stop it. An error
has a position unless it is internal, that is, a fault of the compiler itself or of its
options. Types appear in diagnostics as they are spelled, since spelling them needs the
registry of classes that was current when the error arose.
-/

namespace ClassLang

/-! ## Causes -/

/-- Declarations and nodes of the wrong shape. -/
inductive FormFault where
  | constantWithoutInitializer (name : String)
  | variableWithoutType (name : String)
  | abstractFunction (name : String)
  | functionWithoutBody (name : String)
  | abstractMethodWithBody (name : String)
  | methodWithoutBody (name : String)
  | arrayWithoutDimension
  deriving DecidableEq, Repr

/-- Types used in the wrong place. -/
inductive TypeFault where
  | primitiveWithArguments (name : String)
  | notAType (text : String)
  | notAClass (type : String)
  | templateArity (owner : String) (expected got : Nat)
  | boundViolated (arg bound param owner : String)
  | boundNotPlainClass (param type : String)
  | conditionWithoutValue
  | withoutValue (form : String)
  | unaryOperand (op type : String)
  | binaryOperands (op left right : String)
  | floatOperator (op : String)
  | addressOf (form : String)
  | typeAsValue (name : String)
  | onlyCallable (name : String)
  | overloadedFunctionValue (name : String)
  | overloadedMethodValue (name : String)
  | notAPointer (type : String)
  | notAnArray (type : String)
  | indexNotInteger (type : String)
  | assignToForm (form : String)
  | assignToName (name : String)
  | typeCalled (name : String)
  | notCallable (type : String)
  | lengthOf (type : String)
  | deleted (type : String)
  | arrayOfVoid
  | dimensionNotInteger (type : String)
  | emptyArray
  | branchTypes (types : List String)
  | instanceOfValue (type : String)
  | valueFromVoid (function : String)
  | returnWithoutValue (function type : String)
  | voidVariable (name : String)
  | voidMember (name : String)
  | intrinsicVariable (name : String)
  | parameterByValue (param : String)
  | parameterReturned (param : String)
  | incompatibleOverride (method owner declared expected : String)
  deriving DecidableEq, Repr

/-- Violations of the remaining rules. -/
inductive RuleFault where
  | repeatedBase (owner base : String)
  | containsItself (owner : String)
  | layoutConflict (owner base field : String) (offset : Nat)
  | abstractInConcrete (method owner : String)
  | dimensionNotConstant
  | abstractCall (owner method : String)
  | fallthroughFromLast
  | entryNotFunction (name : String)
  | entryArguments (name : String)
  | entryAmbiguous (name : String)
  deriving DecidableEq, Repr

/-- Constructs that need an enclosing construct. -/
inductive Construct where
  | receiver
  | ret
  | leave
  | again
  | fallthrough
  deriving DecidableEq, Repr

/-- Why a program is rejected at some position. -/
inductive Cause where
  | form (fault : FormFault)
  | typing (fault : TypeFault)
  | rule (fault : RuleFault)
  | invalidConversion (source target : String)
  | unknownName (name : String)
  | unknownType (name : String)
  | redefinition (name : String) (previous : Span)
  | assignToConst (name : String)
  | unknownField (field type : String)
  | unknownMethod (method type : String)
  | argumentCount (callee : String) (expected got : Nat)
  | noMatchingOverload (callee : String) (args : List String)
  | ambiguousOverload (callee : String) (candidates : List (List String))
  | inconsistentHierarchy (owner : String) (remaining : List String)
  | circularInheritance (owner : String)
  | abstractInstantiation (owner : String)
  | unresolvedAbstract (owner method : String)
  | constOverride (method ancestor : String)
  | invalidCast (source target : String)
  | missingReturn (function : String)
  | nativeNotRequired (name : String)
  | outside (construct : Construct)
  | notCompilable (node : String)
  deriving DecidableEq, Repr

/-- Faults of the compiler or of its options. -/
inductive InternalFault where
  | unregisteredClass (hash : TypeHash)
  | unregisteredFunction (id : Nat)
  | undeclaredClass (name : String)
  | queuedWithoutBody (function : String)
  | registersExhausted (count : Nat)
  | unbalancedRestore (expected found : Nat)
  | globalScopeLeft
  | noScope
  | noCandidates (callee : String)
  | slotUndeclared (slot : Nat) (owner : String)
  | slotUnbound (slot : Nat) (owner : String)
  | noReceiver
  | numericWithoutConversion
  /-- `what` needs the class of a type. -/
  | notAClassType (what : String)
  | levelWithoutDimension
  | levelWithoutElement
  | pointerWidth (bits : Nat)
  | registerPool (count : Nat)
  | emptyStack
  | emptyEntryPoint
  deriving DecidableEq, Repr

/-- The error that ends a compilation. -/
inductive CompileError where
  | located (cause : Cause) (span : Span)
  | internal (fault : InternalFault)
  deriving DecidableEq, Repr

/-! ## Wording -/

/-- What a construct is called, and what it must stand in. -/
def Construct.words : Construct → String × String
  | receiver => ("this", "a method")
  | ret => ("return", "a function")
  | leave => ("break", "a loop")
  | again => ("continue", "a loop")
  | fallthrough => ("fallthrough", "a switch case")

def FormFault.message : FormFault → String
  | constantWithoutInitializer n => s!"constant '{n}' needs an initializer"
  | variableWithoutType n => s!"'{n}' needs a type or an initializer"
  | abstractFunction n => s!"free function '{n}' cannot be abstract"
  | functionWithoutBody n => s!"function '{n}' needs a body"
  | abstractMethodWithBody n => s!"abstract method '{n}' cannot have a body"
  | methodWithoutBody n => s!"method '{n}' needs a body"
  | arrayWithoutDimension => "array allocation needs at least one dimension"

def TypeFault.message : TypeFault → String
  | primitiveWithArguments n => s!"'{n}' takes no template arguments"
  | notAType t => s!"'{t}' is not a type"
  | notAClass t => s!"'{t}' is not a class"
  | templateArity c e g => s!"'{c}' expects {e} template argument(s), got {g}"
  | boundViolated a b p c => s!"'{a}' does not satisfy the bound '{b}' of '{p}' in '{c}'"
  | boundNotPlainClass p t => s!"bound of '{p}' must be a non-generic class, not '{t}'"
  | conditionWithoutValue => "condition has no value"
  | withoutValue f => s!"{f} has no value"
  | unaryOperand op t => s!"operator '{op}' cannot be applied to '{t}'"
  | binaryOperands op l r => s!"operator '{op}' cannot be applied to '{l}' and '{r}'"
  | floatOperator op => s!"operator '{op}' is not defined for 'float'"
  | addressOf f => s!"cannot take the address of {f}"
  | typeAsValue n => s!"'{n}' is a type, not a value"
  | onlyCallable n => s!"'{n}' can only be called"
  | overloadedFunctionValue n => s!"cannot take the address of overloaded function '{n}'"
  | overloadedMethodValue n => s!"cannot take the address of overloaded method '{n}'"
  | notAPointer t => s!"cannot dereference '{t}'"
  | notAnArray t => s!"cannot index '{t}'"
  | indexNotInteger t => s!"array index must be an integer, not '{t}'"
  | assignToForm f => s!"cannot assign to {f}"
  | assignToName n => s!"cannot assign to '{n}'"
  | typeCalled n => s!"'{n}' is a type; use 'new {n}(...)' to construct it"
  | notCallable t => s!"'{t}' is not callable"
  | lengthOf t => s!"len() expects an array, got '{t}'"
  | deleted t => s!"cannot delete '{t}'"
  | arrayOfVoid => "array of void"
  | dimensionNotInteger t => s!"array dimension must be an integer, not '{t}'"
  | emptyArray => "cannot infer the element type of an empty array literal"
  | branchTypes ts => "branches have incompatible types: " ++ ", ".intercalate ts
  | instanceOfValue t => s!"instanceof expects a pointer to an object, got '{t}'"
  | valueFromVoid f => s!"void function '{f}' cannot return a value"
  | returnWithoutValue f t => s!"function '{f}' must return a value of type '{t}'"
  | voidVariable n => s!"variable '{n}' cannot have type 'void'"
  | voidMember n => s!"'{n}' cannot have type 'void'"
  | intrinsicVariable n => s!"'{n}' cannot hold a compile-time function"
  | parameterByValue p => s!"template parameter '{p}' can only be held through a pointer"
  | parameterReturned p => s!"template parameter '{p}' can only be returned through a pointer"
  | incompatibleOverride m c d e =>
    s!"'{m}' in '{c}' overrides an inherited method with incompatible type {d} (expected {e})"

def RuleFault.message : RuleFault → String
  | repeatedBase c b => s!"class '{c}' lists base '{b}' more than once"
  | containsItself c => s!"class '{c}' contains itself by value"
  | layoutConflict c b f n =>
    s!"class '{c}' cannot inherit from '{b}': field '{f}' is not at offset {n} in the inherited layout"
  | abstractInConcrete m c => s!"abstract method '{m}' declared in concrete class '{c}'"
  | dimensionNotConstant => "the outermost array dimension must be an integer constant"
  | abstractCall c m => s!"cannot call abstract method '{c}::{m}'"
  | fallthroughFromLast => "cannot fall through out of the last case"
  | entryNotFunction n => s!"entry point '{n}' is not a function"
  | entryArguments n => s!"entry point '{n}' must take no arguments or '[[char]]'"
  | entryAmbiguous n => s!"entry point '{n}' is ambiguous"

/-- A callee with the types of its arguments or parameters, as in a call. -/
def callText (callee : String) (types : List String) : String :=
  callee ++ "(" ++ ", ".intercalate types ++ ")"

def Cause.message : Cause → String
  | form f => f.message
  | typing f => f.message
  | rule f => f.message
  | invalidConversion s t => s!"cannot convert '{s}' to '{t}'"
  | unknownName n => s!"unknown name '{n}'"
  | unknownType n => s!"unknown type '{n}'"
  | redefinition n p => s!"redefinition of '{n}' (previously defined at {p.render})"
  | assignToConst n => s!"cannot assign to constant '{n}'"
  | unknownField f t => s!"unknown field '{f}' on type '{t}'"
  | unknownMethod m t => s!"unknown method '{m}' on type '{t}'"
  | argumentCount c e g => s!"{c} expects {e} argument(s), got {g}"
  | noMatchingOverload c args => s!"no matching overload for '{callText c args}'"
  | ambiguousOverload c cands =>
    s!"ambiguous call to '{c}': " ++ ", ".intercalate (cands.map (callText c))
  | inconsistentHierarchy c r =>
    s!"inconsistent class hierarchy for '{c}': cannot linearize " ++ ", ".intercalate r
  | circularInheritance c => s!"circular inheritance for '{c}'"
  | abstractInstantiation c => s!"cannot instantiate abstract class '{c}'"
  | unresolvedAbstract c m => s!"class '{c}' does not implement abstract method '{m}'"
  | constOverride m a => s!"cannot override const method '{m}' of '{a}'"
  | invalidCast s t => s!"cannot cast '{s}' to '{t}'"
  | missingReturn f => s!"function '{f}' is missing a return statement"
  | nativeNotRequired n => s!"native function '{n}' must be required before use"
  | outside c => s!"'{c.words.1}' outside of {c.words.2}"
  | notCompilable n => s!"node '{n}' cannot be compiled"

def InternalFault.message : InternalFault → String
  | unregisteredClass h => s!"unregistered class {h.describe}"
  | unregisteredFunction id => s!"unregistered function #{id}"
  | undeclaredClass n => s!"class '{n}' was not declared"
  | queuedWithoutBody f => s!"'{f}' was queued without a body"
  | registersExhausted n => s!"all {n} registers are in use"
  | unbalancedRestore e f => s!"block restored out of order (depth {e}, found {f})"
  | globalScopeLeft => "popped the global scope"
  | noScope => "empty scope chain"
  | noCandidates c => s!"no candidates for '{c}'"
  | slotUndeclared s c => s!"slot {s} of '{c}' has no declaring class"
  | slotUnbound s c => s!"slot {s} missing from the vtable of '{c}'"
  | noReceiver => "virtual call without a receiver"
  | numericWithoutConversion => "numeric types without a conversion"
  | notAClassType what => s!"{what} a non-class type"
  | levelWithoutDimension => "array level without a dimension"
  | levelWithoutElement => "array level of a non-array type"
  | pointerWidth b => s!"unsupported pointer width {b} (expected 32 or 64)"
  | registerPool n => s!"register pool of {n} is too small (need at least 3)"
  | emptyStack => "stack size must be non-zero"
  | emptyEntryPoint => "entry point name is empty"

namespace CompileError

/-- The text of an error, with its position if it has one. -/
def message : CompileError → String
  | located cause span => s!"at {span.render}: {cause.message}"
  | internal fault => s!"internal error: {fault.message}"

/-- The position of an error, if it has one. -/
def span? : CompileError → Option Span
  | located _ s => some s
  | internal _ => none

end CompileError

/-! ## Categories -/

/-- Broad classes of errors. -/
inductive ErrorKind where
  | form
  | typing
  | environment
  | semantic
  | notCompilable
  | internal
  deriving DecidableEq, Repr

/-- The name of a class of errors. -/
def ErrorKind.name : ErrorKind → String
  | form => "SyntaxError"
  | typing => "TypeError"
  | environment => "EnvironmentError"
  | semantic => "CompileError"
  | notCompilable => "NotCompilableError"
  | internal => "InternalError"

/-- The class of a cause. -/
def Cause.kind : Cause → ErrorKind
  | form _ => .form
  | typing _ | invalidConversion .. | unknownType _ => .typing
  | unknownName _ | redefinition .. | assignToConst _ => .environment
  | notCompilable _ => .notCompilable
  | _ => .semantic

/-- The class of an error. -/
def CompileError.kind : CompileError → ErrorKind
  | located cause _ => cause.kind
  | internal _ => .internal

/-! ## Reports -/

/-- An error together with the path of the module it arose in. -/
structure Failure where
  path : String
  error : CompileError
  deriving DecidableEq, Repr

/-- The text of a failed compilation. -/
def Failure.message (f : Failure) : String :=
  s!"{f.path}: {f.error.kind.name}: {f.error.message}"

/-- What a program is warned about: conversions that the compiler applies on its own. -/
inductive Caution where
  /-- A conversion that may lose information. -/
  | conversion (source target : String)
  /-- A safe conversion of a returned value. -/
  | returnWidening (source target : String)
  deriving DecidableEq, Repr

def Caution.message : Caution → String
  | conversion s t => s!"implicit conversion from '{s}' to '{t}'"
  | returnWidening s t => s!"implicit widening of return value from '{s}' to '{t}'"

/-- A diagnostic that does not stop the compilation. -/
structure Warning where
  path : String
  span : Span
  caution : Caution
  deriving DecidableEq, Repr

/-- The text of a warning. -/
def Warning.message (w : Warning) : String :=
  s!"{w.path}:{w.span.render}: warning: {w.caution.message}"

end ClassLang
