import ClassLang.Proofs.Dispatch.Vtable
import ClassLang.Proofs.Registration.Queue
import ClassLang.Proofs.Safety.Sections

/-!
# Natives are confined to the modules that require them

The functions of a program and the initializers of its globals are compiled in their own modules, so
the natives that their code calls are those that these modules require. This is said of the code as
a whole, whatever expression a call comes from: a call by name, `new`, `del`, a new array or an
array literal.
-/

namespace ClassLang

open CompileM Lowering Bodies

/-- Modules with this path require every native that the code calls. -/
def Program.Permits (p : Program) (path : String) (code : List Instr) : Prop :=
  ∀ id base, .callNative id base ∈ code → ∃ n : Native, n.id = id ∧ p.Requires path n

theorem Program.permits_of_lawful {p : Program} {r : Registry} {path : String} {code : List Instr}
    (h : ∀ i ∈ code, i.Lawful r (p.Requires path)) : p.Permits path code :=
  fun _ _ hcall => h _ hcall

/-- Code that was added to the entry section for the initializer of a global variable. -/
def PendingGlobal.Emits (g : PendingGlobal) (piece : List Instr) : Prop :=
  ∃ c c', Yields (initGlobal g) c () c' ∧ c'.frame.code.toList = c.frame.code.toList ++ piece

/-- In a program that compiles, the section of a function calls the natives that the module of the
function requires. The entry section consists of the code of the initializers, each of which calls
the natives that the module of its variable requires, and of the start, which calls none. -/
theorem natives_confined {p : Program} {o : Options} {c c' : Compilation}
    (hstart : Compilation.start o = .ok c) (h : Yields (compileProgram p) c () c') :
    (∀ s ∈ c'.listing.functions.toList, ∃ body, c'.bodies.find? s.id = some body ∧
      p.Defines body.path body.decl ∧ p.Permits body.path s.code.toList) ∧
    ∃ pieces start, c'.listing.entry.toList = pieces.flatten ++ start ∧
      List.Forall₂ (fun g piece => p.Initializes g.path g.init ∧ g.Emits piece ∧
        p.Permits g.path piece) c'.globals pieces ∧
      ∀ id base, .callNative id base ∉ start := by
  obtain ⟨c₁, n, hrun, hplan, hfunctions, hentry⟩ := lawful_of_compileProgram hstart h
  have hbodies : c'.bodies = c₁.bodies := congrArg (·.2.1) hplan
  have hglobals : c'.globals = c₁.globals := congrArg (·.2.2) hplan
  obtain ⟨pieces, start, hcode, hpieces, hlast⟩ := hentry.pieces
  refine ⟨fun s hs => ?_, pieces, start, hcode, ?_, fun id base hcall => ?_⟩
  · obtain ⟨body, hbody, hlawful⟩ := hfunctions s hs
    exact ⟨body, hbody, Registration.defines_of_run hstart hrun (hbodies ▸ hbody),
      Program.permits_of_lawful hlawful⟩
  · have hlisted : ∀ g ∈ c'.globals, p.Initializes g.path g.init :=
      hglobals ▸ Registration.lists_of_run hstart hrun
    refine ((List.forall₂_and_left _ _).mpr ⟨hlisted, hpieces⟩).imp fun g piece hg => ?_
    exact ⟨hg.1, hg.2.emitted, Program.permits_of_lawful hg.2.lawful⟩
  · obtain ⟨_, _, hnone⟩ := hlast _ hcall
    exact hnone

/-- A program whose main module requires `malloc` and `free`, for
`main() { var a = new A; del a; }`, and whose module `lib` requires `heap_array`, for a global
variable `xs = new int[2]`. -/
def requiringProgram : Program :=
  let require (name : String) := Item.require ⟨name, .unknown⟩
  let int (n : Int64) := Expr.literal (.int n) .unknown
  ⟨[⟨"", [
      require "malloc",
      require "free",
      Dispatch.sampleClass "A" false [] [],
      .function ⟨⟨"main", .unknown⟩, [], none, some [
        .declare ⟨⟨"a", .unknown⟩, none, some (.newObject (.named "A" [] .unknown) [] .unknown), false,
          .unknown⟩,
        .delete (.name "a" .unknown) .unknown], false, false, .unknown⟩]⟩,
    ⟨"lib", [
      require "heap_array",
      .global ⟨⟨"xs", .unknown⟩, none,
        some (.newArray (.named "int" [] .unknown) [int 2] .unknown), false, .unknown⟩]⟩]⟩

/-- The numbers of the natives that code calls, in order. -/
def Instr.nativeIds (code : Array Instr) : List Nat :=
  code.toList.filterMap fun
    | callNative id _ => some id
    | _ => none

/-- The program compiles; `main` calls `malloc` and `free`, and the initializer `heap_array`. -/
theorem natives_confined_requiringProgram : ∃ c c', Compilation.start {} = .ok c ∧
    Yields (compileProgram requiringProgram) c () c' ∧
    c'.listing.functions.toList.map (Instr.nativeIds ·.code) = [[Native.malloc.id, Native.free.id]] ∧
    Instr.nativeIds c'.listing.entry = [Native.heapArray.id] ∧
    (∀ s ∈ c'.listing.functions.toList, ∃ body, c'.bodies.find? s.id = some body ∧
      requiringProgram.Defines body.path body.decl ∧
      requiringProgram.Permits body.path s.code.toList) ∧
    ∃ pieces start, c'.listing.entry.toList = pieces.flatten ++ start ∧
      List.Forall₂ (fun g piece => requiringProgram.Initializes g.path g.init ∧ g.Emits piece ∧
        requiringProgram.Permits g.path piece) c'.globals pieces ∧
      ∀ id base, .callNative id base ∉ start := by
  have hok : requiringProgram.compilesTo (fun c => decide (
      c.listing.functions.toList.map (Instr.nativeIds ·.code) =
        [[Native.malloc.id, Native.free.id]] ∧
      Instr.nativeIds c.listing.entry = [Native.heapArray.id])) = true := by decide +kernel
  obtain ⟨c, c', hstart, hrun, hcheck⟩ := Program.exists_of_compilesTo hok
  obtain ⟨hfunctions, hentry⟩ := of_decide_eq_true hcheck
  exact ⟨c, c', hstart, hrun, hfunctions, hentry, natives_confined hstart hrun⟩

end ClassLang
