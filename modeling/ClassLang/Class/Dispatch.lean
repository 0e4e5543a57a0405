import ClassLang.Ty.Conversion

/-!
# Dispatch slots and method tables

A class sees every slot of its bases. A method with the name and parameters of a visible
slot overrides what is in it, and one method may override several slots at once when
unrelated bases declare the same method; any other method gets a fresh slot. The table then
binds every visible slot to the first ancestor that declares a method in it.

Slots are taken from the registry as methods are read, also when a later method is refused,
so the registry is returned in either case.
-/

namespace ClassLang

/-- A method of a class body whose types are resolved. -/
structure OwnMethod where
  function : Nat
  name : String
  params : List Ty
  result : Ty
  isConst : Bool
  isAbstract : Bool
  span : Span

/-- The methods of a class, the slots it sees, and what they are bound to. -/
structure MethodTable where
  methods : List Method
  ranks : List Rank
  vtable : List (Nat × Option Nat)

namespace Dispatch

/-! ## Inherited slots -/

/-- Add the slots of a base that are not there yet, in the terms of `c`. -/
def addRanks (c base : Class) (ranks : List Rank) : List Rank :=
  base.ranks.foldl
    (fun ranks k =>
      if ranks.any (·.slot == k.slot) then ranks
      else ranks ++ [{ k with
        params := k.params.map (c.inOwnTerms base)
        result := c.inOwnTerms base k.result }])
    ranks

/-- The slots that `c` sees through the given bases. -/
def inheritedRanks (r : Registry) (c : Class) :
    List Ty → List Rank → Except CompileError (List Rank)
  | [], ranks => .ok ranks
  | t :: rest, ranks =>
    match t.classHash? with
    | none => inheritedRanks r c rest ranks
    | some hash => do
      let base ← r.getClass hash
      inheritedRanks r c rest (addRanks c base ranks)

/-! ## Overriding -/

/-- The nearest of the given ancestors that declares a method in a slot, with the method. -/
def declarer? (r : Registry) (slot : Nat) :
    List TypeHash → Except CompileError (Option (Class × Method))
  | [] => .ok none
  | hash :: rest => do
    let ancestor ← r.getClass hash
    match ancestor.methodInSlot? slot with
    | some m => return some (ancestor, m)
    | none => declarer? r slot rest

/-- The type of a method of `c` with the parameters of `m` and a given result. -/
def methodType (c : Class) (m : OwnMethod) (result : Ty) : Ty :=
  .callable .method (.pointer (.classRef c.hash) :: m.params) result

/-- Check that `m` may replace what is in a slot. -/
def checkOverride (r : Registry) (c : Class) (m : OwnMethod) (k : Rank) :
    Except CompileError Unit := do
  if let some (ancestor, existing) ← declarer? r k.slot (c.mro.drop 1) then
    if existing.isConst then
      throw (.located (.constOverride m.name ancestor.name) m.span)
  let declared := methodType c m m.result
  let expected := methodType c m k.result
  if !r.convertsStrongly declared expected then
    throw (.located (.typing (.incompatibleOverride m.name c.name (r.typeName declared)
      (r.typeName expected))) m.span)

/-- Whether a slot is one that `m` overrides. -/
def overrides (m : OwnMethod) (k : Rank) : Bool := k.name == m.name && k.params = m.params

/-- Check `m` against every slot that it overrides; their results become that of `m`. -/
def overrideRanks (r : Registry) (c : Class) (m : OwnMethod) :
    List Rank → Except CompileError (List Rank)
  | [] => .ok []
  | k :: rest => do
    if overrides m k then
      checkOverride r c m k
      return { k with result := m.result } :: (← overrideRanks r c m rest)
    else
      return k :: (← overrideRanks r c m rest)

/-- The method `m` in the given slots. -/
def OwnMethod.inSlots (m : OwnMethod) (slot : Nat) (more : List Nat) : Method :=
  ⟨m.function, m.name, m.params, m.result, slot, more, m.isConst, m.isAbstract⟩

/-- Give `m` its slots: those that it overrides, or else a fresh one. -/
def assignSlots (r : Registry) (c : Class) (m : OwnMethod) (ranks : List Rank) :
    Except CompileError (Method × List Rank) × Registry :=
  match (ranks.filter (overrides m)).map (·.slot) with
  | [] =>
    let (slot, r) := r.freshSlot
    (.ok (OwnMethod.inSlots m slot [], ranks ++ [⟨m.name, m.params, m.result, slot⟩]), r)
  | slot :: more =>
    (do return (OwnMethod.inSlots m slot more, ← overrideRanks r c m ranks), r)

/-! ## Reading the class body -/

/-- Check a method on its own: it must suit the class and must not be declared before. -/
def checkDeclared (c : Class) (earlier : List OwnMethod) (m : OwnMethod) :
    Except CompileError Unit := do
  if m.isAbstract && !c.isAbstract then
    throw (.located (.rule (.abstractInConcrete m.name c.name)) m.span)
  if let some previous := earlier.find? fun e => e.name == m.name && e.params = m.params then
    throw (.located (.redefinition m.name previous.span) m.span)

/-- Read the methods of a class body in order. -/
def readMethods (c : Class) :
    List OwnMethod → Registry → List OwnMethod → List Method → List Rank →
    Except CompileError (List Method × List Rank) × Registry
  | [], r, _, methods, ranks => (.ok (methods, ranks), r)
  | m :: rest, r, earlier, methods, ranks =>
    match checkDeclared c earlier m with
    | .error e => (.error e, r)
    | .ok () =>
      match assignSlots r c m ranks with
      | (.error e, r) => (.error e, r)
      | (.ok (method, ranks), r) =>
        readMethods c rest r (earlier ++ [m]) (methods ++ [method]) ranks

/-! ## Binding slots -/

/-- The method that a slot of `c` is bound to: its own, or that of the nearest ancestor. -/
def methodFor? (r : Registry) (c : Class) (methods : List Method) (slot : Nat) :
    Option Method :=
  match methods.find? fun m => m.occupies slot with
  | some m => some m
  | none => (c.mro.drop 1).findSome? fun hash => (r.class? hash).bind (·.methodInSlot? slot)

/-- Bind every slot that `c` sees. -/
def bindSlots (r : Registry) (c : Class) (methods : List Method) :
    List Rank → Except CompileError (List (Nat × Option Nat))
  | [] => .ok []
  | k :: rest =>
    match methodFor? r c methods k.slot with
    | none => .error (.internal (.slotUndeclared k.slot c.name))
    | some m => do
      return (k.slot, if m.isAbstract then none else some m.function) ::
        (← bindSlots r c methods rest)

/-- The name of the first slot that is bound to nothing. -/
def unboundName? (ranks : List Rank) (vtable : List (Nat × Option Nat)) : Option String :=
  (vtable.find? (·.2.isNone)).map fun (slot, _) =>
    ((ranks.find? (·.slot == slot)).map (·.name)).getD ""

/-- Bind the slots of `c`; a class that is not abstract must have all of them bound. -/
def finish (r : Registry) (c : Class) (methods : List Method) (ranks : List Rank) :
    Except CompileError MethodTable := do
  let vtable ← bindSlots r c methods ranks
  if !c.isAbstract then
    if let some name := unboundName? ranks vtable then
      throw (.located (.unresolvedAbstract c.name name) c.span)
  return ⟨methods, ranks, vtable⟩

/-- The method table of `c`, whose bases must have theirs. -/
def methodTable (r : Registry) (c : Class) (own : List OwnMethod) :
    Except CompileError MethodTable × Registry :=
  match inheritedRanks r c c.bases [] with
  | .error e => (.error e, r)
  | .ok ranks =>
    match readMethods c own r [] [] ranks with
    | (.error e, r) => (.error e, r)
    | (.ok (methods, ranks), r) => (finish r c methods ranks, r)

end Dispatch

end ClassLang
