import ClassLang.Class.Registry

/-!
# The layout of objects

An object starts with the whole layout of its primary base, the first ancestor, and goes on
with its own fields in order of declaration. Every further base must find its fields where
it expects them, or a pointer to the object could not be used as a pointer to that base.
-/

namespace ClassLang

/-- A field of a class body whose type is resolved. -/
structure OwnField where
  name : String
  type : Ty
  span : Span

namespace Layout

/-- The fields that `c` takes over from its primary base, and where they end. -/
def inheritedFields (r : Registry) (c : Class) : Except CompileError (List Field × Nat) :=
  match c.mro[1]? with
  | none => .ok ([], 0)
  | some primary => do
    let base ← r.getClass primary
    return (base.fields.map fun f => { f with type := c.inOwnTerms base f.type }, base.length)

/-- Where a name was declared before: by an own field, or by the class as a whole. -/
def previousSpan (c : Class) (earlier : List OwnField) (name : String) : Span :=
  ((earlier.find? fun d => d.name == name).map (·.span)).getD c.span

/-- Append own fields to those already placed. `earlier` are the own fields placed so far. -/
def placeFields (r : Registry) (c : Class) (earlier : List OwnField) (placed : List Field)
    (offset : Nat) : List OwnField → Except CompileError (List Field × Nat)
  | [] => .ok (placed, offset)
  | d :: rest =>
    if placed.any fun f => f.name == d.name then
      .error (.located (.redefinition d.name (previousSpan c earlier d.name)) d.span)
    else
      placeFields r c (earlier ++ [d]) (placed ++ [⟨d.name, offset, d.type⟩])
        (offset + r.length d.type) rest

/-- Whether `fields` has the field that `base` expects. -/
def hasField (c base : Class) (fields : List Field) (expected : Field) : Bool :=
  fields.contains { expected with type := c.inOwnTerms base expected.type }

/-- Check that each base finds its fields. -/
def checkBases (r : Registry) (c : Class) (fields : List Field) :
    List Ty → Except CompileError Unit
  | [] => .ok ()
  | t :: rest =>
    match t.classHash? with
    | none => checkBases r c fields rest
    | some hash => do
      let base ← r.getClass hash
      match base.fields.find? fun f => !hasField c base fields f with
      | some f => .error (.located (.rule (.layoutConflict c.name base.name f.name f.offset)) c.span)
      | none => checkBases r c fields rest

/-- All fields of `c` with their offsets, and the length of its objects. -/
def layOut (r : Registry) (c : Class) (own : List OwnField) :
    Except CompileError (List Field × Nat) := do
  let (inherited, start) ← inheritedFields r c
  let (fields, length) ← placeFields r c [] inherited start own
  checkBases r c fields (c.bases.drop 1)
  return (fields, length)

end Layout

end ClassLang
