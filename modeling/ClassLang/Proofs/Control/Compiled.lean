import ClassLang.Proofs.Control.Follows
import ClassLang.Proofs.Lowering.Constructs
import ClassLang.Proofs.Lowering.Scopes

/-!
# The chunks of a statement

Lowering a statement adds the code of some chunks. `Compiles` keeps the accounts: which labels
are made, placed and jumped to, that each chunk is what lowering the expression in it gave, and
that the kinds of the scopes are as before. The labels that a statement may jump to without placing
them are those of the statements around it, and these are read off the scopes.
-/

namespace ClassLang

/-! ## What the scopes say -/

namespace Scopes

/-- The labels that a statement in these scopes can be left to. -/
def around (s : Scopes) : Surroundings := ⟨s.loop?.map (·.1), s.loop?.map (·.2), s.case?.join⟩

theorem around_congr {s s' : Scopes} (h : s'.kinds = s.kinds) : s'.around = s.around := by
  unfold around
  rw [loop?_congr h, case?_congr h]

end Scopes

/-! ## Chunks that were compiled -/

open CompileM Lowering

/-- The step emits some code. -/
def CompileM.Leaves {α : Type} (m : CompileM α) (code : List Instr) : Prop :=
  ∃ c a c', Yields m c a c' ∧ c'.frame.code.toList = c.frame.code.toList ++ code

/-- The code is what lowering a leaf gave, in the function `f`. -/
def Leaf.Compiled (f : Option FunctionContext) (code : List Instr) : Leaf → Prop
  | effect e => Leaves (Lowering.effect e) code
  | declare d => Leaves (Lowering.declare d) code
  | delete e => ∃ span, Leaves (Lowering.delete e span) code
  | subject e => Leaves (value e) code
  | result e => ∃ g, f = some g ∧ Leaves (withTemps (returnValue e g.result)) code

/-- The code, with a jump to `target` at its end, is what lowering a test gave. -/
def Test.Compiled (code : List Instr) (sense : Bool) (target : Label) : Test → Prop
  | condition e => sense = false ∧ Leaves (jumpUnless e target) code
  | candidate e => sense = true ∧ ∃ subject, Leaves (withTemps do
      jumpIfEqual subject (← asValue e (place none e) none) target e.span) code

/-- Code that is left at its end only: it does not return and jumps only inside of itself. -/
structure Machine.Closed (code : List Instr) : Prop where
  targets : ∀ l ∈ targets code, l ∈ labels code
  ret : .ret ∉ code

namespace Chunk

/-- The code of the chunk is what lowering gave, in the function `f`. -/
def Compiled (f : Option FunctionContext) : Chunk → Prop
  | leaf l code => Machine.Closed code ∧ l.Compiled f code
  | test t code a sense target =>
    Machine.Closed code ∧ t.Compiled (test t code a sense target).code sense target
  | _ => True

/-- Each return follows a value. -/
def ReturnValues (cs : List Chunk) : Prop :=
  ∀ before after, cs = before ++ ret :: after →
    ∃ front e code, before = front ++ [leaf (.result e) code]

theorem returnValues_of_not_mem {cs : List Chunk} (h : ret ∉ cs) : ReturnValues cs := by
  rintro before after rfl
  exact absurd (List.mem_append_right _ List.mem_cons_self) h

theorem ReturnValues.append {cs ds : List Chunk} (hcs : ReturnValues cs) (hds : ReturnValues ds) :
    ReturnValues (cs ++ ds) := by
  intro before after heq
  rcases List.append_eq_append_iff.mp heq with ⟨middle, rfl, hds'⟩ | ⟨middle, hcs', hmiddle⟩
  · obtain ⟨front, e, code, rfl⟩ := hds middle after hds'
    exact ⟨cs ++ front, e, code, (List.append_assoc ..).symm⟩
  · cases middle with
    | nil =>
      obtain ⟨front, _, _, hnil⟩ := hds [] after hmiddle.symm
      exact absurd hnil (by simp)
    | cons x middle =>
      injection hmiddle with hx _
      subst hx
      exact hcs before middle hcs'

end Chunk

/-! ## The values that a statement returns -/

namespace Stmt

mutual

/-- The expressions of all `return e` in a statement. -/
def results : Stmt → List Expr
  | ret (some e) _ => [e]
  | block body _ => resultsAll body
  | branch _ yes no _ =>
    match no with
    | some s => resultsAll yes ++ s.results
    | none => resultsAll yes
  | whileLoop _ body _ => resultsAll body
  | forLoop init _ _ body _ =>
    match init with
    | some s => s.results ++ resultsAll body
    | none => resultsAll body
  | switch _ cases default _ =>
    match default with
    | some body => resultsCases cases ++ resultsAll body
    | none => resultsCases cases
  | _ => []

def resultsAll : List Stmt → List Expr
  | [] => []
  | s :: rest => s.results ++ resultsAll rest

def resultsCases : List Case → List Expr
  | [] => []
  | .mk _ body _ :: cases => resultsAll body ++ resultsCases cases

end

end Stmt

/-! ## Steps that add chunks -/

/-- The state without the parts that compiling statements changes. -/
def Compilation.static (c : Compilation) : Compilation := { c.context with scopes := .initial }

/-- A step from `c` to `c'` adds the code of some chunks. The labels `made` are left to be placed,
`placed` are labels made before that the chunks place, `outside` are those they may jump to without
placing them, and `results` are the values that they return. -/
structure Compiles (c c' : Compilation) (cs : List Chunk) (made placed outside : List Label)
    (results : List Expr) : Prop
    extends Frame.Extends c.frame c'.frame (Chunk.codeOf cs) made placed,
      Settled (Chunk.targets cs) (Chunk.placed cs) placed outside where
  static : c'.static = c.static
  kinds : c'.scopes.kinds = c.scopes.kinds
  compiled : ∀ x ∈ cs, x.Compiled c.scopes.function?
  results : ∀ e code, .leaf (.result e) code ∈ cs → e ∈ results
  returns : ∀ f, c.scopes.function? = some f → f.result.isVoid = false → Chunk.ReturnValues cs

theorem Lowering.Adds.static {c c' : Compilation} {s : List Instr} {m p : List Label}
    (h : Adds c c' s m p) : c'.static = c.static :=
  congrArg (fun c => { c with scopes := .initial }) h.context

namespace Compiles

variable {c c₁ c' : Compilation} {cs ds : List Chunk} {m m₁ m₂ p p₁ p₂ o o₁ o₂ : List Label}
  {r r₁ r₂ : List Expr}

theorem nil (c : Compilation) : Compiles c c [] [] [] [] [] where
  toExtends := .nil c.frame
  toSettled := .nil [] []
  static := rfl
  kinds := rfl
  compiled _ hx := absurd hx List.not_mem_nil
  results _ _ hx := absurd hx List.not_mem_nil
  returns _ _ _ := Chunk.returnValues_of_not_mem List.not_mem_nil

theorem trans (h₁ : Compiles c c₁ cs m₁ p₁ o₁ r₁) (h₂ : Compiles c₁ c' ds m₂ p₂ o₂ r₂) :
    Compiles c c' (cs ++ ds) (m₁ ++ m₂) (p₁ ++ p₂) (o₁ ++ o₂) (r₁ ++ r₂) where
  toExtends := by
    rw [Chunk.codeOf_append]
    exact h₁.toExtends.trans h₂.toExtends
  toSettled := by
    rw [Chunk.targets_append, Chunk.placed_append]
    exact h₁.toSettled.append h₂.toSettled
  static := h₂.static.trans h₁.static
  kinds := h₂.kinds.trans h₁.kinds
  compiled x hx := by
    rcases List.mem_append.mp hx with hx | hx
    · exact h₁.compiled x hx
    · exact Scopes.function?_congr h₁.kinds ▸ h₂.compiled x hx
  results e code hx := by
    rw [List.mem_append]
    exact (List.mem_append.mp hx).imp (h₁.results e code) (h₂.results e code)
  returns f hf hvoid :=
    (h₁.returns f hf hvoid).append
      (h₂.returns f ((Scopes.function?_congr h₁.kinds).trans hf) hvoid)

theorem widen (h : Compiles c c' cs m p o r) (ho : ∀ l ∈ o, l ∈ o₁) :
    Compiles c c' cs m p o₁ r := { h with toSettled := h.toSettled.widen ho }

/-- A construct is complete when it has placed the labels that it made. -/
theorem complete (h : Compiles c c' cs m p o r) (hperm : m.Perm p)
    (ho : ∀ l ∈ o, l ∈ m ∨ l ∈ o₁) : Compiles c c' cs [] [] o₁ r :=
  { h with toExtends := h.toExtends.settle hperm, toSettled := h.toSettled.complete hperm ho }

theorem listing (h : Compiles c c' cs m p o r) : c'.listing = c.listing := by
  have hstatic := congrArg Compilation.listing h.static
  exact hstatic

theorem around (h : Compiles c c' cs m p o r) : c'.scopes.around = c.scopes.around :=
  Scopes.around_congr h.kinds

/-- A step that adds one chunk, which is no return. -/
theorem of_chunk {x : Chunk} (hextends : c.frame.Extends c'.frame x.code m p)
    (hsettled : Settled (Chunk.targets [x]) (Chunk.placed [x]) p o)
    (hstatic : c'.static = c.static) (hkinds : c'.scopes.kinds = c.scopes.kinds)
    (hcompiled : x.Compiled c.scopes.function?)
    (hret : x ≠ .ret) (hresults : ∀ e code, x = .leaf (.result e) code → e ∈ r) :
    Compiles c c' [x] m p o r where
  toExtends := by
    rw [Chunk.codeOf_cons, Chunk.codeOf_nil, List.append_nil]
    exact hextends
  toSettled := hsettled
  static := hstatic
  kinds := hkinds
  compiled y hy := by
    obtain rfl := List.mem_singleton.mp hy
    exact hcompiled
  results e code hy := hresults e code (List.mem_singleton.mp hy).symm
  returns _ _ _ := Chunk.returnValues_of_not_mem fun hmem => hret (List.mem_singleton.mp hmem).symm

theorem freshLabel {k : LabelKind} {l : Label} (h : Yields (freshLabel k) c l c') :
    Compiles c c' [] [l] [] [] [] :=
  { nil c with
    toExtends := (adds_freshLabel h).toExtends
    static := (adds_freshLabel h).static
    kinds := congrArg Scopes.kinds (adds_freshLabel h).scopes }

theorem label (c : Compilation) (l : Label) :
    Compiles c (c.add [.label l]) [.label l] [] [l] [] [] :=
  .of_chunk (adds_label c l).toExtends ⟨fun _ hl => absurd hl List.not_mem_nil, fun _ hl => hl⟩ rfl
    rfl trivial Chunk.noConfusion fun _ _ h => Chunk.noConfusion h

theorem goto (c : Compilation) (l : Label) :
    Compiles c (c.add [.goto l]) [.goto l] [] [] [l] [] :=
  .of_chunk (adds_emit rfl).toExtends ⟨fun _ hl => .inr hl, fun _ hl => absurd hl List.not_mem_nil⟩
    rfl rfl trivial Chunk.noConfusion fun _ _ h => Chunk.noConfusion h

/-- A complete fragment that was emitted for a leaf. The scopes may have got new names. -/
theorem leaf {l : Leaf} {code : List Instr} (h : Fragment c c₁ code [] [] [])
    (hframe : c'.frame = c₁.frame) (hstatic : c'.static = c₁.static)
    (hkinds : c'.scopes.kinds = c₁.scopes.kinds)
    (hl : l.Compiled c.scopes.function? code) (hresults : ∀ e, l = .result e → e ∈ r) :
    Compiles c c' [.leaf l code] [] [] [] r := by
  refine .of_chunk (hframe ▸ h.toExtends) (.nil [] []) (hstatic.trans h.static) (hkinds.trans ?_)
    ⟨⟨?_, h.ret⟩, hl⟩ Chunk.noConfusion ?_
  · exact congrArg Scopes.kinds h.scopes
  · exact fun k hk => (h.targets k hk).resolve_right List.not_mem_nil
  · intro e code heq
    injection heq with heq
    exact hresults e heq

/-- The step for a leaf, which emits a complete fragment. -/
theorem of_emits {α : Type} {step : CompileM α} {a : α} {l : Leaf} [Has Emits step]
    (h : Yields step c a c')
    (hl : ∀ {code}, Leaves step code → l.Compiled c.scopes.function? code)
    (hresults : ∀ e, l = .result e → e ∈ r) :
    ∃ code, Compiles c c' [.leaf l code] [] [] [] r := by
  obtain ⟨code, hcode⟩ := emits h
  exact ⟨code, .leaf hcode rfl rfl rfl (hl ⟨c, a, c', h, hcode.code⟩) hresults⟩

/-- Closing a scope and its block changes neither the code nor the scopes around. -/
theorem inScope {α : Type} {kind : ScopeKind} {body : CompileM α} {a : α}
    (h : Yields (inScope kind body) c a c')
    (hfunction : (c.scopes.enter kind).function? = c.scopes.function?) :
    ∃ c₀ c₁, Yields body c₀ a c₁ ∧ c₀.scopes = c.scopes.enter kind ∧
      ∀ {cs m p o r}, Compiles c₀ c₁ cs m p o r → Compiles c c' cs m p o r := by
  obtain ⟨c₁, frame, hbody, hrestore, rfl⟩ := yields_inScope h
  refine ⟨_, c₁, hbody, rfl, ?_⟩
  intro cs m p o r hcompiles
  unfold Frame.restore at hrestore
  split at hrestore
  · injection hrestore with hrestore
    subst hrestore
    exact {
      code := hcompiles.code
      made_le := hcompiles.made_le
      labels := hcompiles.labels
      targets := hcompiles.targets
      defines := hcompiles.defines
      static := by
        have hstatic := hcompiles.static
        exact hstatic
      kinds := Scopes.kinds_truncate hcompiles.kinds
      compiled := hfunction ▸ hcompiles.compiled
      results := hcompiles.results
      returns := hfunction ▸ hcompiles.returns }
  · cases hrestore

end Compiles

end ClassLang
