import ClassLang.Ty.Conversion

/-!
# Overload resolution

Of the candidates for a call, those that repeat the parameter list of an earlier one are
dropped: earlier candidates are the more specific ones. A candidate fits when it has as
many parameters as there are arguments and every argument converts. The cheapest fit wins;
among equally cheap fits the one with the most exact conversions; if that still leaves
several, the call is ambiguous.
-/

namespace ClassLang

/-- Something a call might mean. Parameter types leave the receiver out. -/
structure Candidate (κ : Type) where
  key : κ
  params : List Ty

/-- A candidate that accepts the arguments, with the conversion of each. -/
structure Fit (κ : Type) where
  key : κ
  params : List Ty
  conversions : List Conversion
  cost : Nat

namespace Overload

variable {κ : Type}

/-- Total costs do not grow beyond this. -/
def costLimit : Nat := 0xffffffff

/-- The sum of costs, up to the limit. -/
def totalCost (cs : List Conversion) : Nat :=
  cs.foldl (fun sum c => min (sum + c.cost) costLimit) 0

/-- The number of arguments that need no conversion. -/
def exactCount (f : Fit κ) : Nat := f.conversions.countP Conversion.isExact

/-- The conversion of each argument to the parameter at its position, if all exist. -/
def conversions? (r : Registry) : List Ty → List Ty → Option (List Conversion)
  | a :: args, p :: params => do
    let c ← r.conversion? a p
    let cs ← conversions? r args params
    return c :: cs
  | _, _ => some []

/-- How a candidate accepts the arguments. -/
def fit? (r : Registry) (args : List Ty) (c : Candidate κ) : Option (Fit κ) :=
  if c.params.length = args.length then
    (conversions? r args c.params).map fun cs => ⟨c.key, c.params, cs, totalCost cs⟩
  else none

/-- The candidates whose parameter list is not that of an earlier one. -/
def distinct (cs : List (Candidate κ)) : List (Candidate κ) :=
  cs.foldl (fun seen c => if seen.any (·.params = c.params) then seen else seen ++ [c]) []

/-- The first argument that does not convert, with its parameter. -/
def firstMismatch? (r : Registry) (args params : List Ty) : Option (Ty × Ty) :=
  (args.zip params).find? fun (a, p) => (r.conversion? a p).isNone

/-- The cheapest fits, and of those the ones with the most exact conversions. -/
def best (fits : List (Fit κ)) : List (Fit κ) :=
  let least := (fits.map (·.cost)).min?.getD 0
  let cheapest := fits.filter (·.cost = least)
  let most := (cheapest.map exactCount).max?.getD 0
  cheapest.filter (exactCount · = most)

/-- Choose among candidates with a single parameter list: only the arguments can be wrong. -/
def resolveSingle (r : Registry) (name : String) (c : Candidate κ) (args : List Ty)
    (span : Span) : Except CompileError (Fit κ) :=
  if c.params.length = args.length then
    match fit? r args c with
    | some f => .ok f
    | none =>
      let (source, target) := match firstMismatch? r args c.params with
        | some (a, p) => (r.typeName a, r.typeName p)
        | none => ("", "")
      .error (.located (.invalidConversion source target) span)
  else .error (.located (.argumentCount name c.params.length args.length) span)

/-- Choose among candidates with different parameter lists. -/
def resolveSeveral (r : Registry) (name : String) (cs : List (Candidate κ)) (args : List Ty)
    (span : Span) : Except CompileError (Fit κ) :=
  match best (cs.filterMap (fit? r args)) with
  | [winner] => .ok winner
  | [] => .error (.located (.noMatchingOverload name (r.typeNames args)) span)
  | tied =>
    .error (.located (.ambiguousOverload name (tied.map fun f => r.typeNames f.params)) span)

/-- Choose the candidate for a call with arguments of the given types. -/
def resolve (r : Registry) (name : String) (candidates : List (Candidate κ)) (args : List Ty)
    (span : Span) : Except CompileError (Fit κ) :=
  match distinct candidates with
  | [] => .error (.internal (.noCandidates name))
  | [only] => resolveSingle r name only args span
  | cs => resolveSeveral r name cs args span

end Overload

end ClassLang
