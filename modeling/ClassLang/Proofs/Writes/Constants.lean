import ClassLang.Proofs.Writes.Programs

/-!
# Constants are not written

Once a constant is in scope, no instruction writes into it: an assignment to it or to one of its
fields is refused, everything else is written into fresh storage or into variables, and variables do
not share storage. Only a global constant is in scope in its own initializer. This rests on the
assignments keeping track of constants, for a cast of an object to its own class denotes the same
object, but no constant.
-/

namespace ClassLang

open CompileM Bodies

/-- The instruction writes into no constant that was in scope, except for the one that has this
storage. -/
def Emission.SparesConstants (e : Emission) (own : Option Access) : Prop :=
  ∀ b, e.scopes.Binds b → b.isConst = true → own ≠ some (e.registry.storageOf b) →
    ∀ x ∈ e.writes, x.Apart (e.registry.storageOf b)

theorem Emission.Heeds.sparesConstants {G : Guard} {e : Emission} (h : e.Heeds G) (htracked : G.tracked)
    {own : Option Access} (hown : ∀ x, G.Initializes x → own = some x) : e.SparesConstants own := by
  intro b hb hconst hne x hx
  rw [h.registry] at hne ⊢
  exact h.spares htracked x hx b hb hconst fun hinit => hne (hown _ hinit)

/-- What is emitted for the initializer of a global variable writes into no other constant. -/
structure PendingGlobal.SparesConstants (r : Registry) (g : PendingGlobal) (es : List Emission) :
    Prop where
  emitted : ∃ c c', Yields (initGlobal g) c () c' ∧ es = emissions (initGlobal g) c
  spares : ∀ e ∈ es, e.SparesConstants (some (g.storage r))

variable {o : Options} {p : Program} {c c' : Compilation}

/-- What a program emits is for registration and functions, then for the initializers of its global
variables, then for its start. No instruction writes into a constant that is in scope, but the
initializer of a global constant into that constant. -/
theorem constants_kept (hstart : Compilation.start o = .ok c)
    (h : Yields (compileProgram p) c () c') (htrack : p.KeepsTrack) : ∃ bodies inits start,
      emissions (compileProgram p) c = bodies ++ inits.flatten ++ start ∧
      (∀ e ∈ bodies ++ start, e.SparesConstants none) ∧
      List.Forall₂ (PendingGlobal.SparesConstants c'.registry) c'.globals inits := by
  obtain ⟨hr, bodies, inits, start, hemissions, hbodies, hinits, hrest⟩ :=
    heedful_of_compileProgram hstart h fun _ : True => htrack
  refine ⟨bodies, inits, start, hemissions, fun e he => ?_, hinits.imp fun g es hes => ?_⟩
  · exact ((List.mem_append.mp he).elim (hbodies e) (hrest e)).sparesConstants trivial
      fun _ hx => hx.elim
  · exact ⟨hes.emitted, fun e he => (hes.heeds e he).sparesConstants trivial
      fun _ hx => congrArg some (Eq.symm hx)⟩

/-! ## A constant object -/

/-- `class C { f: int }`, `var z: C`, `const g = 1`, and
`main() { const k = z; var o: C; object.f = g }`. -/
def constantProgram (object : Expr) : Program :=
  let declare (name : String) (type : Option TypeExpr) (init : Option Expr) (isConst : Bool) : VarDecl :=
    ⟨⟨name, .unknown⟩, type, init, isConst, .unknown⟩
  let type : TypeExpr := .named "C" [] .unknown
  ⟨[⟨"", [
    .classDecl ⟨⟨"C", .unknown⟩, [], [], [⟨"f", .named "int" [] .unknown, .unknown⟩], [], false,
      .unknown⟩,
    .global (declare "z" (some type) none false),
    .global (declare "g" none (some (.literal (.int 1) .unknown)) true),
    .function ⟨⟨"main", .unknown⟩, [], none, some [
      .declare (declare "k" none (some (.name "z" .unknown)) true),
      .declare (declare "o" (some type) none false),
      .expr (.assign (.member object ⟨"f", .unknown⟩ .unknown) (.name "g" .unknown) .unknown) .unknown],
      false, false, .unknown⟩]⟩]⟩

/-- What `object` is, if the field of a variable is set. -/
def plainObject : Expr := .name "o" .unknown

/-- What `object` is, if the field of the constant is set: `k as C`. -/
def castObject : Expr := .cast (.name "k" .unknown) (.named "C" [] .unknown) .unknown

/-- The field of a variable can be set, which leaves both constants alone. -/
theorem constants_kept_field : ∃ c c', Compilation.start {} = .ok c ∧
    Yields (compileProgram (constantProgram plainObject)) c () c' ∧
    (constantProgram plainObject).KeepsTrack ∧ c'.globals.length = 2 ∧
    ∃ bodies inits start,
      emissions (compileProgram (constantProgram plainObject)) c = bodies ++ inits.flatten ++ start ∧
      (∀ e ∈ bodies ++ start, e.SparesConstants none) ∧
      List.Forall₂ (PendingGlobal.SparesConstants c'.registry) c'.globals inits := by
  have hok : (constantProgram plainObject).compilesTo (fun c => decide (c.globals.length = 2)) = true := by
    decide +kernel
  have htrack : (constantProgram plainObject).KeepsTrack := by decide
  obtain ⟨c, c', hstart, hrun, hcheck⟩ := Program.exists_of_compilesTo hok
  exact ⟨c, c', hstart, hrun, htrack, of_decide_eq_true hcheck, constants_kept hstart hrun htrack⟩

/-- Through a cast of the constant to its own class its field is set: `k` is at the start of the
frame and in scope, and the value of `g` is moved into it. -/
theorem constant_can_be_written : ∃ c c', Compilation.start {} = .ok c ∧
    Yields (compileProgram (constantProgram castObject)) c () c' ∧
    ∃ e ∈ emissions (compileProgram (constantProgram castObject)) c,
      e.instr = .mov (.frame 8) (.global 16) 8 ∧ ∃ b, e.scopes.Binds b ∧ b.isConst = true ∧
        e.registry.storageOf b = (.frame 0, 16) ∧
        ∃ x ∈ e.writes, ¬x.Apart (e.registry.storageOf b) := by
  have hok : ((Compilation.start {}).toOption.any fun c =>
      (emissions (compileProgram (constantProgram castObject)) c).any fun e =>
        decide (e.instr = .mov (.frame 8) (.global 16) 8) && (e.scopes.homes "k").any fun h =>
          decide (h.isConst = true ∧ (h.slot.address, e.registry.length h.slot.type) = (.frame 0, 16))) =
      true := by decide +kernel
  have hcompiles : (constantProgram castObject).compilesTo (fun _ => true) = true := by decide +kernel
  obtain ⟨c, c', hstart, hrun, -⟩ := Program.exists_of_compilesTo hcompiles
  rw [hstart] at hok
  obtain ⟨e, he, hmatch⟩ := List.any_eq_true.mp hok
  obtain ⟨hinstr, hhome⟩ := (Bool.and_eq_true _ _).mp hmatch
  obtain ⟨h, hmem, hhome⟩ := List.any_eq_true.mp hhome
  obtain ⟨hconst, hstorage⟩ := of_decide_eq_true hhome
  obtain ⟨b, hb, rfl⟩ := Scopes.exists_binds_of_mem_homes hmem
  have hinstr := of_decide_eq_true hinstr
  refine ⟨c, c', hstart, hrun, e, he, hinstr, b, hb, hconst, hstorage, (.frame 8, 8), ?_, ?_⟩
  · unfold Emission.writes
    rw [hinstr]
    exact List.mem_singleton_self _
  · rw [show e.registry.storageOf b = (.frame 0, 16) from hstorage]
    decide

end ClassLang
