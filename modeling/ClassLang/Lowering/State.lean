import ClassLang.Class.Registry
import ClassLang.Code.Frame
import ClassLang.Code.Listing
import ClassLang.Scope
import ClassLang.Tree.Program

/-!
# The state of a compilation

A compilation owns the registry, the scopes, the frame, the literal pool and the listing.
Its steps change that state and may fail; a step that fails leaves the state as it was when
the failure arose, so a compilation can go on after an error. Scopes and blocks that a step
opens are closed again on every way out of it, by `inScope`, `withTemps` and `inModule`.

A step also reports the instructions that it emits, each with the storage, the scopes and the
registry that were there at that moment. The report is complete: it has the instructions of failed
steps and those that are thrown away later. No step can read it.
-/

namespace ClassLang

/-- A function body that waits to be compiled. -/
structure PendingBody where
  decl : FunctionDecl
  /-- The class of a method. -/
  owner : Option TypeHash
  path : String

/-- A global variable that the entry section initializes. -/
structure PendingGlobal where
  address : Address
  type : Ty
  init : Option Expr
  path : String

/-- A template argument and the bound that it has to satisfy. -/
structure BoundCheck where
  arg : Ty
  bound : Ty
  param : String
  owner : String
  /-- The module in which the argument is written. -/
  path : String
  span : Span

/-- The state of a compilation. -/
structure Compilation where
  options : Options
  registry : Registry
  scopes : Scopes
  frame : Frame
  listing : Listing
  literals : LiteralPool
  warnings : Array Warning
  /-- Warnings are dropped while this is not zero. -/
  muted : Nat
  /-- The path of the current module. -/
  path : String
  moduleScopes : Table String Scope
  bodies : Table Nat PendingBody
  globals : List PendingGlobal
  /-- While set, template bounds are recorded and not checked. -/
  deferring : Bool
  deferred : List BoundCheck
  /-- The module in which the first error arose. -/
  failedPath : Option String

/-- How far the storage of a compilation reaches: the frame, the globals and the literals; and
the size of a pointer in it. -/
structure Extent where
  top : Nat
  globalLength : Nat
  literalLength : Nat
  pointerSize : Nat
  deriving DecidableEq, Repr

/-- No number of bytes has outgrown 32 bits: not the ends of the storage, and not the length of a
class. -/
structure Extent.Representable (x : Extent) (r : Registry) : Prop where
  top : x.top < UInt32.size
  globalLength : x.globalLength < UInt32.size
  literalLength : x.literalLength < UInt32.size
  classes : r.Representable

instance (x : Extent) (r : Registry) : Decidable (x.Representable r) :=
  decidable_of_iff (x.top < UInt32.size ∧ x.globalLength < UInt32.size ∧ x.literalLength < UInt32.size ∧
      r.Representable)
    ⟨fun ⟨h₁, h₂, h₃, h₄⟩ => ⟨h₁, h₂, h₃, h₄⟩, fun ⟨h₁, h₂, h₃, h₄⟩ => ⟨h₁, h₂, h₃, h₄⟩⟩

/-- The storage at the moment. -/
def Compilation.extent (c : Compilation) : Extent :=
  ⟨c.frame.top, c.frame.globalLength, c.literals.bytes.size, c.registry.pointerSize⟩

/-- An instruction, and the storage, the scopes and the registry when it was emitted. -/
structure Emission where
  instr : Instr
  /-- The bytes that a caller has laid out for its callee. -/
  region : Nat
  extent : Extent
  scopes : Scopes
  registry : Registry

/-- A change of the state that reports the instructions it emits. -/
def Action (α : Type) : Type := Compilation → (α × Compilation) × List Emission

namespace Action

variable {α β : Type}

/-- The outcome of an action, and the state it leaves. -/
def run (m : Action α) (c : Compilation) : α × Compilation := (m c).1

/-- The instructions that an action emits, in order. -/
def emissions (m : Action α) (c : Compilation) : List Emission := (m c).2

instance : Monad Action where
  pure a c := ((a, c), [])
  bind m f c :=
    match m c with
    | ((a, c), before) =>
      match f a c with
      | (outcome, after) => (outcome, before ++ after)

instance : MonadStateOf Compilation Action where
  get c := ((c, c), [])
  set s _ := (((), s), [])
  modifyGet f c := (f c, [])

/-- Emit an instruction, which hands `region` bytes over to a callee. -/
def emit (i : Instr) (region : Nat) : Action Unit := fun c =>
  (((), { c with frame := c.frame.emit i }), [⟨i, region, c.extent, c.scopes, c.registry⟩])

theorem id_map (m : Action α) : id <$> m = m := by
  funext c
  show (match m c with | ((a, c), before) => ((a, c), before ++ [])) = m c
  rcases m c with ⟨⟨a, c⟩, before⟩
  dsimp only
  rw [List.append_nil]

theorem bind_assoc {γ : Type} (m : Action α) (f : α → Action β) (g : β → Action γ) :
    m >>= f >>= g = m >>= fun a => f a >>= g := by
  funext c
  simp only [bind]
  rcases m c with ⟨⟨a, c₁⟩, l₁⟩
  dsimp only
  rcases f a c₁ with ⟨⟨b, c₂⟩, l₂⟩
  dsimp only
  rw [List.append_assoc]

instance : LawfulMonad Action := LawfulMonad.mk' Action id_map (fun _ _ => rfl) bind_assoc

end Action

/-- A step of a compilation. -/
abbrev CompileM := ExceptT CompileError Action

namespace Compilation

/-- Names that are visible everywhere: the root class and the intrinsics. -/
def predefined : List (String × Meaning) :=
  (Class.rootName, .classOf Class.rootHash) ::
    Intrinsic.all.map fun i => (i.name, .intrinsic i)

/-- The scopes of a compilation that starts. -/
def initialScopes : Except CompileError Scopes :=
  predefined.foldlM (fun s (name, d) => s.define name d .unknown) Scopes.initial

/-- Start a compilation. -/
def start (o : Options) : Except CompileError Compilation := do
  o.validate
  return {
    options := o
    registry := Registry.initial o.pointerSize
    scopes := ← initialScopes
    frame := Frame.initial o.registerCount
    listing := .empty
    literals := .empty
    warnings := #[]
    muted := 0
    path := ""
    moduleScopes := .empty
    bodies := .empty
    globals := []
    deferring := false
    deferred := []
    failedPath := none }

end Compilation

namespace CompileM

variable {α : Type}

/-! ## Failing and recovering -/

/-- Fail at a position. -/
def fail (cause : Cause) (span : Span) : CompileM α := throw (.located cause span)

/-- Run a step and hand out its outcome, so that what follows runs in either case. -/
def attempt (m : CompileM α) : CompileM (Except CompileError α) :=
  ExceptT.mk do return .ok (← m.run)

/-- Continue with an outcome. -/
def conclude (r : Except CompileError α) : CompileM α := ExceptT.mk (pure r)

/-- Continue with an outcome whose failure is internal. -/
def ofInternal (r : Except InternalFault α) : CompileM α := conclude (r.mapError .internal)

/-! ## Reading and writing parts of the state -/

/-- Ask the registry. -/
def fromRegistry (f : Registry → α) : CompileM α := do return f (← get).registry

/-- Ask the registry for something that must be there. -/
def askRegistry (f : Registry → Except CompileError α) : CompileM α := do
  conclude (f (← get).registry)

def modifyRegistry (f : Registry → Registry) : CompileM Unit :=
  modify fun s => { s with registry := f s.registry }

/-- Change a class that must be registered. -/
def modifyClass (hash : TypeHash) (f : Class → Class) : CompileM Unit := do
  let _ ← askRegistry (·.getClass hash)
  modifyRegistry (·.modifyClass hash f)

/-- Change the registry and get something from it. -/
def updateRegistry (f : Registry → α × Registry) : CompileM α :=
  modifyGet fun s => let (a, r) := f s.registry; (a, { s with registry := r })

/-- The spelling of a type. -/
def typeName (t : Ty) : CompileM String := fromRegistry (·.typeName t)

/-- The length of a type. -/
def lengthOf (t : Ty) : CompileM Nat := fromRegistry (·.length t)

def pointerSize : CompileM Nat := fromRegistry (·.pointerSize)

def modifyScopes (f : Scopes → Scopes) : CompileM Unit :=
  modify fun s => { s with scopes := f s.scopes }

/-- Change the scopes unless that fails. -/
def updateScopes (f : Scopes → Except CompileError Scopes) : CompileM Unit := do
  let scopes ← conclude (f (← get).scopes)
  modifyScopes fun _ => scopes

/-- Define a name in the innermost scope. -/
def define (name : String) (d : Meaning) (span : Span) : CompileM Unit :=
  updateScopes (·.define name d span)

/-- Define a name in the current module and make it visible to all modules. -/
def defineTopLevel (name : String) (d : Meaning) (span : Span) : CompileM Unit := do
  define name d span
  updateScopes (·.defineGlobal name d span)

/-- The place of a literal. -/
def intern (l : Literal) : CompileM Address :=
  modifyGet fun s => let (a, p) := s.literals.intern l; (a, { s with literals := p })

/-- The place of an integer literal. -/
def internNat (n : Nat) : CompileM Address := intern (.int (Int64.ofNat n))

/-! ## The frame -/

def modifyFrame (f : Frame → Frame) : CompileM Unit :=
  modify fun s => { s with frame := f s.frame }

/-- Change the frame and get something from it. -/
def updateFrame (f : Frame → α × Frame) : CompileM α :=
  modifyGet fun s => let (a, frame) := f s.frame; (a, { s with frame := frame })

/-- Emit an instruction; a call hands over the bytes of the callee's frame that are laid out. -/
def emit (i : Instr) (region : Nat := 0) : CompileM Unit := ExceptT.lift (Action.emit i region)

def emitLabel (l : Label) : CompileM Unit := emit (.label l)

def emitGoto (l : Label) : CompileM Unit := emit (.goto l)

/-- Take some bytes of the frame. -/
def alloc (length : Nat) : CompileM Address := updateFrame (·.alloc length)

/-- Take room for a value of a type. -/
def allocFor (t : Ty) : CompileM Address := do alloc (← lengthOf t)

def freshLabel (kind : LabelKind) : CompileM Label := updateFrame (·.freshLabel kind)

/-- Run a step with a register, which is given back when the step succeeds. -/
def withRegister (body : Register → CompileM α) : CompileM α := do
  let (reg, frame) ← ofInternal (← get).frame.acquire
  modifyFrame fun _ => frame
  let result ← body reg
  modifyFrame (·.release reg)
  return result

def pushBlock : CompileM Checkpoint := updateFrame (·.pushBlock)

/-- Close the innermost block. -/
def restore (c : Checkpoint) : CompileM Unit := do
  let frame ← ofInternal ((← get).frame.restore c)
  modifyFrame fun _ => frame

/-! ## Steps inside scopes and blocks -/

/-- Run a step and give back what it allocated. -/
def withTemps (body : CompileM α) : CompileM α := do
  let checkpoint ← pushBlock
  let result ← attempt body
  restore checkpoint
  conclude result

/-- Run a step in a new scope with a block of its own. -/
def inScope (kind : ScopeKind) (body : CompileM α) : CompileM α := do
  let depth := (← get).scopes.depth
  modifyScopes (·.enter kind)
  let checkpoint ← pushBlock
  let result ← attempt body
  restore checkpoint
  modifyScopes (·.truncate depth)
  conclude result

/-- Note the module of the first error. -/
def noteFailure (path : String) : CompileM Unit :=
  modify fun s => { s with failedPath := s.failedPath.or (some path) }

/-- Run a step in the scope of a module. The scope is kept for the next time. -/
def inModule (path : String) (body : CompileM α) : CompileM α := do
  let before ← get
  let scope := (before.moduleScopes.find? path).getD (.opened (.module path))
  set { before with scopes := before.scopes.push scope, path := path }
  let result ← attempt body
  if let .error _ := result then noteFailure path
  modifyScopes (·.truncate (before.scopes.depth + 1))
  let (scope, scopes) ← conclude (← get).scopes.pop
  modify fun s => { s with
    scopes := scopes
    moduleScopes := s.moduleScopes.insert path scope
    path := before.path }
  conclude result

/-- Run a step for its result alone: no code, no storage and no warnings are kept. Literals
and label numbers that it used stay used. -/
def probe (body : CompileM α) : CompileM α := do
  let checkpoint ← pushBlock
  let codeLength := (← get).frame.code.size
  modify fun s => { s with muted := s.muted + 1 }
  let result ← attempt body
  modify fun s => { s with muted := s.muted - 1 }
  modifyFrame (·.truncate codeLength)
  restore checkpoint
  conclude result

/-! ## Warnings -/

/-- Warn about something in the current module. -/
def warn (caution : Caution) (span : Span) : CompileM Unit :=
  modify fun s =>
    if s.muted = 0 then { s with warnings := s.warnings.push ⟨s.path, span, caution⟩ } else s

end CompileM

end ClassLang
