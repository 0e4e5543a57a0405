import ClassLang.Class.Registry

/-!
# Linkable names

A function is linked as `path$name` and a method as `path$Class.name`. When several
functions would get the same name, each gets a suffix made from its parameter types.
-/

namespace ClassLang.LinkName

/-- The name of a free function. -/
def function (path name : String) : String := path ++ "$" ++ name

/-- The name of a method. -/
def method (path owner name : String) : String := path ++ "$" ++ owner ++ "." ++ name

/-- A name with the suffix for given parameter types. -/
def overloaded (r : Registry) (base : String) (params : List Ty) : String :=
  base ++ "~" ++ (TypeHash.ofSignature (r.typeNames params)).shortHex

/-- The name of a function before overloads are told apart. -/
def base (r : Registry) (s : Signature) : Except CompileError String :=
  match s.owner with
  | .module path => .ok (function path s.name)
  | .classOf hash => do
    let c ← r.getClass hash
    return method c.path c.name s.name

/-- The final names of functions, given the names before overloads are told apart. -/
def finalNames (r : Registry) (named : List (Signature × String)) : List (Nat × String) :=
  named.map fun (s, b) =>
    (s.id, if 1 < (named.map (·.2)).count b then overloaded r b s.params else b)

/-- Give every function of the registry its name. -/
def assignAll (r : Registry) : Except CompileError Registry := do
  let named ← r.functions.toList.mapM fun s => do return (s, ← base r s)
  return (finalNames r named).foldl
    (fun r (id, name) => r.modifyFunction id fun s => { s with mangled := name }) r

end ClassLang.LinkName
