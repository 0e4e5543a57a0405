import ClassLang.Compile

/-!
# Builds

A build collects the modules of a program, compiles them once and keeps the result. Modules
have different paths, and none can be added after the build. Clearing starts over.
-/

namespace ClassLang

/-- Modules that are compiled together, and the result once there is one. -/
structure Build where
  options : Options
  modules : List Module
  compiled : Option CompiledProgram

/-- Why a module is refused. -/
inductive AddError where
  | alreadyBuilt
  | duplicateModule (path : String)
  deriving DecidableEq, Repr

def AddError.message : AddError → String
  | alreadyBuilt => "unit has already been built; call clear() to start over"
  | duplicateModule path => s!"module '{path}' was already added"

/-- Why a build fails. -/
inductive BuildError where
  | noModules
  | alreadyBuilt
  | invalidOptions (error : CompileError)
  | compile (failure : Failure)
  deriving DecidableEq, Repr

def BuildError.message : BuildError → String
  | noModules => "no modules added to unit"
  | alreadyBuilt => "unit has already been built"
  | invalidOptions e => s!"invalid compiler options: {e.message}"
  | compile f => f.message

namespace BuildError

/-- The compilation error behind a failed build, if there is one. -/
def cause? : BuildError → Option CompileError
  | invalidOptions e => some e
  | compile f => some f.error
  | _ => none

end BuildError

namespace Build

/-- A build without modules. -/
def start (o : Options) : Build := ⟨o, [], none⟩

def isBuilt (b : Build) : Bool := b.compiled.isSome

/-- Add a module. -/
def addModule (b : Build) (m : Module) : Except AddError Build :=
  if b.isBuilt then .error .alreadyBuilt
  else if b.modules.any fun n => n.path == m.path then .error (.duplicateModule m.path)
  else .ok { b with modules := b.modules ++ [m] }

/-- Compile the modules. A failed build keeps them. -/
def build (b : Build) : Except BuildError Build :=
  if b.isBuilt then .error .alreadyBuilt
  else if b.modules.isEmpty then .error .noModules
  else
    match b.options.validate with
    | .error e => .error (.invalidOptions e)
    | .ok () =>
      match compile b.options ⟨b.modules⟩ with
      | .error f => .error (.compile f)
      | .ok c => .ok { b with compiled := some c }

/-- Forget the modules and the result. -/
def clear (b : Build) : Build := start b.options

/-- The text of the program, once it is built. -/
def text? (b : Build) : Option String := b.compiled.map (·.text)

def moduleCount (b : Build) : Nat := b.modules.length

/-- Functions and methods of the program, once it is built. -/
def functionCount (b : Build) : Nat :=
  (b.compiled.map (·.registry.functions.size)).getD 0

/-- Classes of the program, the root class included, once it is built. -/
def typeCount (b : Build) : Nat := (b.compiled.map (·.registry.classCount)).getD 0

/-- Warnings of the build. -/
def warnings (b : Build) : List Warning := (b.compiled.map (·.warnings)).getD []

end Build

end ClassLang
