import ClassLang.Proofs.Control.Body
import ClassLang.Proofs.Control.Flow

/-!
# Functions return

A statement that always returns, by its shape, never finishes. So a walk through the code of a
function with a result never gets to the end of the code, and neither does any path. Every return
in it is that of a `return` with a value and stands right behind the conversion of the value.
-/

namespace ClassLang

/-! ## What always returns does not finish -/

namespace Stmt

variable {o : Oracle} {bound : Nat}

theorem andThen_ne_finished {r : Ending × History} {next : History → Ending × History}
    (h : r.1 ≠ .finished ∨ ∀ h, (next h).1 ≠ .finished) : (andThen r next).1 ≠ .finished := by
  obtain ⟨e, hist⟩ := r
  cases e with
  | finished =>
    rcases h with h | h
    · exact absurd rfl h
    · exact h hist
  | _ => exact Ending.noConfusion

/-- A block that ends in `fallthrough` does not finish. -/
theorem execAll_ne_finished_of_fallthrough {body : List Stmt} (h : endsInFallthrough body = true)
    (hist : History) : (execAll o bound body hist).1 ≠ .finished := by
  induction body generalizing hist with
  | nil => cases h
  | cons s rest ih =>
    rw [execAll]
    cases rest with
    | nil =>
      refine andThen_ne_finished (.inl ?_)
      have hs : s.isFallthrough = true := h
      cases s with
      | fallthrough => exact Ending.noConfusion
      | _ => cases hs
    | cons t rest => exact andThen_ne_finished (.inr (ih h))

mutual

theorem exec_ne_finished : ∀ (s : Stmt), s.alwaysReturns = true → ∀ h,
    (exec o bound s h).1 ≠ .finished
  | .ret (some _) _, _, _ => Ending.noConfusion
  | .ret none _, _, _ => Ending.noConfusion
  | .block body _, hs, h => execAll_ne_finished body hs h
  | .branch c yes (some no) _, hs, h => by
    have hboth : blockReturns yes = true ∧ no.alwaysReturns = true := by
      simpa [alwaysReturns] using hs
    have hyes := execAll_ne_finished yes hboth.1
    have hno := exec_ne_finished no hboth.2
    simp only [exec]
    split
    · exact hyes _
    · exact hno _
  | .switch subject cases (some default) _, hs, h => by
    have hboth : blockReturns default = true ∧ casesReturn cases = true := by
      simpa [alwaysReturns] using hs
    have hdefault := execAll_ne_finished default hboth.1
    have hcases := execCases_ne_finished cases hboth.2
    simp only [exec]
    split
    · exact hcases _ _
    · exact hdefault _

theorem execAll_ne_finished : ∀ (body : List Stmt), blockReturns body = true → ∀ h,
    (execAll o bound body h).1 ≠ .finished
  | [], hs, _ => nomatch hs
  | s :: rest, hs, h => by
    rw [blockReturns, Bool.or_eq_true] at hs
    rw [execAll]
    refine andThen_ne_finished ?_
    rcases hs with hs | hs
    · exact .inl (exec_ne_finished s hs h)
    · exact .inr (execAll_ne_finished rest hs)

theorem execCases_ne_finished : ∀ (cases : List Case), casesReturn cases = true → ∀ i h,
    (execCases o bound cases i h).1 ≠ .finished
  | [], _, _, _ => Ending.noConfusion
  | .mk vs body span :: cases, hs, 0, h => by
    rw [casesReturn, Bool.and_eq_true, Bool.or_eq_true, Bool.and_eq_true] at hs
    have hbody : (execAll o bound body h).1 ≠ .finished := by
      rcases hs.2 with hreturns | ⟨hfalls, _⟩
      · exact execAll_ne_finished body hreturns h
      · exact execAll_ne_finished_of_fallthrough hfalls h
    have hrest := execCases_ne_finished cases hs.1 0
    rw [execCases]
    generalize execAll o bound body h = r at hbody
    obtain ⟨e, h⟩ := r
    cases e with
    | finished => exact absurd rfl hbody
    | fellThrough => exact hrest h
    | _ => exact Ending.noConfusion
  | .mk vs body span :: cases, hs, i + 1, h => by
    rw [casesReturn, Bool.and_eq_true] at hs
    exact execCases_ne_finished cases hs.1 i h

end

end Stmt

/-! ## Returned values -/

open CompileM Lowering Chunk

/-- Code that evaluates an expression and converts its value to a type, into the place where a
function leaves its result. -/
def ReturnsInto (e : Expr) (result : Ty) (code : List Instr) : Prop :=
  ∃ c₁ v c₂ k c₃ u c₄ evaluation conversion, code = evaluation ++ conversion ∧
    Yields (value e) c₁ v c₂ ∧ c₂.frame.code.toList = c₁.frame.code.toList ++ evaluation ∧
    c₂.registry.conversion? v.type result = some k ∧ c₃.frame = c₂.frame ∧
    Yields (convertInto v ⟨result, returnAddress⟩ k) c₃ u c₄ ∧
    c₄.frame.code.toList = c₃.frame.code.toList ++ conversion

theorem returnsInto_of_leaves {e : Expr} {result : Ty} {code : List Instr}
    (h : Leaves (withTemps (returnValue e result)) code) : ReturnsInto e result code := by
  obtain ⟨c, u, c', hrun, hcode⟩ := h
  obtain ⟨c₁, hbody, _, _, hadds⟩ := adds_withTemps hrun
  simp only [returnValue, yields_bind, yields_get] at hbody
  obtain ⟨v, c₂, hvalue, _, c₂, ⟨rfl, rfl⟩, hbody⟩ := hbody
  split at hbody
  · rw [yields_fail] at hbody
    exact hbody.elim
  · rename_i k hk
    -- The conversion is emitted with or without a warning in front.
    have hconvert : ∃ c₃, Adds c₂ c₃ [] [] [] ∧ c₃.frame = c₂.frame ∧
        Yields (convertInto v ⟨result, returnAddress⟩ k) c₃ u c₁ := by
      split at hbody
      · rw [yields_bind] at hbody
        obtain ⟨_, c₃, hwarn, hbody⟩ := hbody
        obtain ⟨hsame, hframe, _⟩ := adds_warn hwarn
        exact ⟨c₃, hsame, hframe, hbody⟩
      · split at hbody
        · rw [yields_bind] at hbody
          obtain ⟨_, c₃, hwarn, hbody⟩ := hbody
          obtain ⟨hsame, hframe, _⟩ := adds_warn hwarn
          exact ⟨c₃, hsame, hframe, hbody⟩
        · exact ⟨c₂, .nil c₂, rfl, hbody⟩
    obtain ⟨c₃, hsame, hframe, hconvert⟩ := hconvert
    obtain ⟨s₁, hs₁⟩ := emits hvalue
    obtain ⟨s₂, hs₂⟩ := emits hconvert
    have hall := hadds ((hs₁.toAdds.trans hsame).trans hs₂.toAdds)
    have hparts := hall.code
    rw [List.append_nil, hcode, List.append_cancel_left_eq] at hparts
    exact ⟨_, v, c₂, k, c₃, u, c₁, s₁, s₂, hparts, hvalue, hs₁.code, hk, hframe, hconvert, hs₂.code⟩

/-- No other chunk has a return inside. -/
theorem eq_ret_of_mem_code {x : Chunk} (hx : x.IsClosed) (h : Instr.ret ∈ x.code) : x = .ret := by
  cases x with
  | leaf l code => exact absurd h hx.ret
  | test t code a sense target =>
    rcases List.mem_append.mp h with h | h
    · exact absurd h hx.ret
    · cases sense <;> cases List.mem_singleton.mp h
  | label l => cases List.mem_singleton.mp h
  | goto l => cases List.mem_singleton.mp h
  | ret => rfl

/-- A return in the code is one of the chunks. -/
theorem ret_mem_chunks {cs : List Chunk} {before after : List Instr}
    (hclosed : ∀ x ∈ cs, x.IsClosed) (h : codeOf cs = before ++ .ret :: after) :
    ∃ front back, cs = front ++ .ret :: back ∧ before = codeOf front := by
  induction cs generalizing before with
  | nil => simp at h
  | cons x rest ih =>
    rw [codeOf_cons] at h
    rcases List.append_eq_append_iff.mp h with ⟨middle, rfl, hrest⟩ | ⟨middle, hx, hmiddle⟩
    · obtain ⟨front, back, rfl, rfl⟩ := ih (fun x hx => hclosed x (List.mem_cons_of_mem _ hx)) hrest
      exact ⟨x :: front, back, rfl, (codeOf_cons x front).symm⟩
    · cases middle with
      | nil =>
        have hrest : codeOf rest = [] ++ .ret :: after := hmiddle.symm
        obtain ⟨front, back, rfl, hfront⟩ :=
          ih (fun x hx => hclosed x (List.mem_cons_of_mem _ hx)) hrest
        refine ⟨x :: front, back, rfl, ?_⟩
        rw [codeOf_cons, ← hfront, List.append_nil, hx, List.append_nil]
      | cons i middle =>
        injection hmiddle with hi _
        subst hi
        obtain rfl := eq_ret_of_mem_code (hclosed x List.mem_cons_self) (by rw [hx]; simp)
        cases before with
        | nil => exact ⟨[], rest, rfl, rfl⟩
        | cons j before => simp [Chunk.code] at hx

namespace Bodies

variable {c c' c₀ c₁ : Compilation} {id n : Nat} {s : Signature} {block : List Stmt}
  {cs : List Chunk} {tail : List Instr}

/-- No path leads to the end of the code of a function. -/
theorem Compiled.not_hasPath_nil (h : Compiled c c' id s block c₀ c₁ cs n tail) :
    ¬ Machine.HasPath (.args n :: (codeOf cs ++ tail)) (.args n :: (codeOf cs ++ tail)) [] := by
  have hended := h.ended
  unfold Ended at hended
  cases hvoid : s.result.isVoid with
  | true =>
    rw [if_pos hvoid] at hended
    exact Machine.not_hasPath_nil_of_ret hended
  | false =>
    rw [hvoid, if_neg Bool.false_ne_true] at hended
    obtain rfl : tail = [] := h.tail_eq.resolve_right fun htail => by
      rw [hvoid] at htail
      exact Bool.false_ne_true htail.2
    rw [List.append_nil]
    intro hpath
    obtain ⟨htargets, hfaithful⟩ :=
      h.chunks.faithful h.follows fun l hl => absurd hl List.not_mem_nil
    -- A path to the end would be a run of the statements, for some outcomes of the tests.
    have hbody := Machine.hasPath_tail rfl hpath
    obtain ⟨o, k, hist, hwalk⟩ := walks_of_hasPath h.chunks.labels_nodup
      (fun x hx => (h.chunks.compiled x hx).isClosed) htargets hbody
    obtain ⟨bound, e, hrun, he, harrives⟩ := (hfaithful o).stops k [] hist hwalk.walk_eq rfl
    -- The run ended where nothing surrounds it, so it fell off the end, and the check excludes
    -- this.
    have hfinished : e = .finished := by
      cases e with
      | finished => rfl
      | left =>
        obtain ⟨_, _, _, hpos⟩ := harrives
        cases hpos
      | again =>
        obtain ⟨_, _, _, hpos⟩ := harrives
        cases hpos
      | fellThrough =>
        obtain ⟨_, _, _, hpos⟩ := harrives
        cases hpos
      | returned =>
        obtain ⟨_, hpos⟩ := harrives
        cases hpos
      | cutOff => exact absurd rfl he
    have hnot : (Stmt.execAll o bound block []).1 ≠ .finished :=
      Stmt.execAll_ne_finished block hended []
    rw [hrun] at hnot
    exact hnot hfinished

/-- Every return of a function with a result follows the conversion of a returned value. -/
theorem Compiled.returns_value (h : Compiled c c' id s block c₀ c₁ cs n tail)
    (hvoid : s.result.isVoid = false) {before after : List Instr}
    (hcode : .args n :: (codeOf cs ++ tail) = before ++ .ret :: after) :
    ∃ e ∈ Stmt.resultsAll block, ∃ front code,
      before = front ++ code ∧ ReturnsInto e s.result code := by
  obtain rfl : tail = [] := h.tail_eq.resolve_right fun htail => by
    rw [hvoid] at htail
    exact Bool.false_ne_true htail.2
  rw [List.append_nil] at hcode
  cases before with
  | nil => cases hcode
  | cons i before =>
    injection hcode with _ hcode
    obtain ⟨front, back, rfl, rfl⟩ := ret_mem_chunks
      (fun x hx => (h.chunks.compiled x hx).isClosed) hcode
    obtain ⟨f, hf, hresult⟩ := h.result
    rw [← hresult] at hvoid ⊢
    obtain ⟨chunks, e, code, rfl⟩ := h.chunks.returns f hf hvoid front back rfl
    have hmem : Chunk.leaf (.result e) code ∈ chunks ++ [.leaf (.result e) code] ++ .ret :: back := by
      simp
    obtain ⟨_, g, hg, hleaves⟩ := h.chunks.compiled _ hmem
    obtain rfl : f = g := Option.some.inj (hf.symm.trans hg)
    refine ⟨e, h.chunks.results e code hmem, i :: codeOf chunks, code, ?_,
      returnsInto_of_leaves hleaves⟩
    simp [Chunk.code]

/-- The code of a function cannot be left at its end. If the function has a result, every return
in its code belongs to a `return` with a value, and right in front of it the value is converted to
the type of the result, into the place of the result. -/
theorem compileBody_returns {id : Nat} {body : PendingBody} {c c' : Compilation} {u : Unit}
    (h : Yields (compileBody id body) c u c') :
    ∃ s block code, c.registry.getFunction id = .ok s ∧ body.decl.body = some block ∧
      c'.listing = c.listing.addFunction ⟨id, s.mangled, code⟩ ∧
      ¬ Machine.HasPath code.toList code.toList [] ∧
      (s.result.isVoid = false → ∀ before after, code.toList = before ++ .ret :: after →
        ∃ e ∈ Stmt.resultsAll block, ∃ front conversion,
          before = front ++ conversion ∧ ReturnsInto e s.result conversion) := by
  obtain ⟨s, block, c₀, c₁, cs, n, tail, hs, hblock, hcompiled⟩ := yields_compileBody h
  refine ⟨s, block, _, hs, hblock, hcompiled.listing, ?_, ?_⟩
  · exact hcompiled.not_hasPath_nil
  · intro hvoid before after hcode
    exact hcompiled.returns_value hvoid hcode

/-- `choose(x: int) int { switch x { case 1 { fallthrough } case 2 { return x } default { if x {
return 'a' } else { return 0 } } } }` -/
def chooseBody : List Stmt :=
  let x := Expr.name "x" .unknown
  let number (v : Int64) := Expr.literal (.int v) .unknown
  [.switch x
    [.mk [number 1] [.fallthrough .unknown] .unknown,
      .mk [number 2] [.ret (some x) .unknown] .unknown]
    (some [.branch x [.ret (some (.literal (.char 97) .unknown)) .unknown]
      (some (.block [.ret (some (number 0)) .unknown] .unknown)) .unknown]) .unknown]

def chooseDecl : FunctionDecl where
  name := ⟨"choose", .unknown⟩
  params := [⟨"x", .named "int" [] .unknown, .unknown⟩]
  result := some (.named "int" [] .unknown)
  body := some chooseBody
  isConst := false
  isAbstract := false
  span := .unknown

/-- A state in which `choose` is registered. -/
def chooseRegistered : Compilation :=
  { insideFunction with
    scopes := .initial
    registry := (insideFunction.registry.addFunction ⟨0, "choose", "choose", .module "", [.int],
      ["x"], .int, false, false, none, .unknown⟩).2 }

/-- All three ways through `choose` end in a return of an `int`. -/
theorem choose_returns : ∃ c' code, Yields (compileBody 0 ⟨chooseDecl, none, ""⟩) chooseRegistered ()
      c' ∧ c'.listing.functions = #[⟨0, "choose", code⟩] ∧
    ¬ Machine.HasPath code.toList code.toList [] ∧
    ∀ before after, code.toList = before ++ .ret :: after →
      ∃ e ∈ Stmt.resultsAll chooseBody, ∃ front conversion,
        before = front ++ conversion ∧ ReturnsInto e .int conversion := by
  have hrun := yields_of_isOk (m := compileBody 0 ⟨chooseDecl, none, ""⟩) (c := chooseRegistered)
    (by decide +kernel)
  obtain ⟨s, block, code, hs, hblock, hlisting, hpath, hreturns⟩ := compileBody_returns hrun
  injection hs with hs
  injection hblock with hblock
  subst hs hblock
  exact ⟨_, code, hrun, congrArg Listing.functions hlisting, hpath, hreturns rfl⟩

end Bodies

end ClassLang
