import ClassLang.Proofs.Control.Compiled

/-!
# Every statement that compiles is followed

By induction over statements: the chunks that lowering adds for a statement jump only to each
other and to the labels of the statements around, and walks through them follow the runs of the
statement.
-/

namespace ClassLang.Lowering

open CompileM Chunk

variable {c c' : Compilation} {u : Unit}

/-! ## Leaves and tests -/

theorem compiles_declare {d : VarDecl} (h : Yields (declare d) c u c') :
    ∃ code, Compiles c c' [.leaf (.declare d) code] [] [] [] [] := by
  have hrun := h
  simp only [declare, yields_bind, yields_define] at hrun
  obtain ⟨t, c₁, htype, a, c₂, ha, _, c₃, hinit, scopes, hdefine, rfl⟩ := hrun
  obtain ⟨s₁, hs₁⟩ := emits htype
  obtain ⟨s₂, hs₂⟩ := emits ha
  obtain ⟨s₃, hs₃⟩ := emits hinit
  have hall := (hs₁.trans hs₂).trans hs₃
  exact ⟨s₁ ++ s₂ ++ s₃, .leaf hall rfl rfl (Scopes.kinds_define hdefine)
    ⟨c, u, _, h, hall.code⟩ fun _ h => by cases h⟩

/-- Code that is followed by a jump on its outcome, in a block of its own. -/
theorem compiles_test {t : Test} {sense : Bool} {target : Label} {a : Address} {code : List Instr}
    {c₁ c₂ : Compilation} (hcode : Fragment c₁ c₂ code [] [] [])
    (hadds : ∀ {s m p},
      Adds c₁ (c₂.add [if sense then .ifTrue a target else .ifFalse a target]) s m p →
        Adds c c' s m p)
    (ht : c'.frame.code.toList = c.frame.code.toList ++ (Chunk.test t code a sense target).code →
      t.Compiled (Chunk.test t code a sense target).code sense target) :
    Compiles c c' [.test t code a sense target] [] [] [target] [] := by
  have hjump : Fragment c₂ (c₂.add [if sense then .ifTrue a target else .ifFalse a target])
      [if sense then .ifTrue a target else .ifFalse a target] [] [] [target] := by
    cases sense
    · exact .ifFalse c₂ a target
    · exact .ifTrue c₂ a target
  have hall := hcode.trans hjump
  have hsame := hadds hall.toAdds
  refine .of_chunk hsame.toExtends ⟨fun _ hl => .inr hl, fun _ hl => absurd hl List.not_mem_nil⟩
    hsame.static (congrArg Scopes.kinds hsame.scopes) ⟨⟨?_, hcode.ret⟩, ?_⟩ Chunk.noConfusion
    fun _ _ h => Chunk.noConfusion h
  · exact fun l hl => (hcode.targets l hl).resolve_right List.not_mem_nil
  · exact ht hsame.code

theorem compiles_jumpUnless {e : Expr} {target : Label} (h : Yields (jumpUnless e target) c u c') :
    ∃ cs, Compiles c c' cs [] [] [target] [] ∧
      Asks cs false target fun o => Stmt.holds o (some e) := by
  obtain ⟨c₁, hrun, _, _, hadds⟩ := adds_withTemps h
  simp only [yields_bind, yields_emit] at hrun
  obtain ⟨a, c₂, ha, rfl⟩ := hrun
  obtain ⟨code, hcode⟩ := emits ha
  have htest : Compiles c c' [.test (.condition e) code a false target] [] [] [target] [] :=
    compiles_test hcode hadds fun hall => ⟨rfl, c, u, c', h, hall⟩
  exact ⟨_, htest, asks_test (.condition e) code a false target⟩

/-- The values of a case are tested in order. -/
theorem compiles_tests {subject : Slot} {target : Label} {es : List Expr}
    (h : Yields (tests subject target es) c u c') :
    ∃ cs, Compiles c c' cs [] [] [target] [] ∧
      Asks cs true target fun o => Stmt.firstEqual o es := by
  induction es generalizing c with
  | nil =>
    rw [tests, yields_pure] at h
    obtain ⟨_, rfl⟩ := h
    exact ⟨[], (Compiles.nil _).widen (by simp), asks_firstEqual_nil target⟩
  | cons e es ih =>
    rw [tests, yields_bind] at h
    obtain ⟨_, c₁, hfirst, hrest⟩ := h
    obtain ⟨c₂, hrun, _, _, hadds⟩ := adds_withTemps hfirst
    simp only [jumpIfEqual, yields_bind, yields_emit] at hrun
    obtain ⟨value, c₃, hvalue, equal, c₄, hequal, rfl⟩ := hrun
    obtain ⟨s₁, hs₁⟩ := emits hvalue
    obtain ⟨s₂, hs₂⟩ := emits hequal
    have htest : Compiles c c₁ [.test (.candidate e) (s₁ ++ s₂) equal.address true target] [] []
        [target] [] :=
      compiles_test (hs₁.trans hs₂) hadds fun hall => ⟨rfl, subject, c, _, c₁, hfirst, hall⟩
    obtain ⟨cs, hcs, hasks⟩ := ih hrest
    exact ⟨_, (htest.trans hcs).widen (by simp), asks_firstEqual_cons _ _ hasks⟩

theorem compiles_caseLabels {cases : List Case} {ls : List Label}
    (h : Yields (caseLabels cases) c ls c') :
    ls.length = cases.length ∧ Compiles c c' [] ls [] [] [] := by
  induction cases generalizing c ls with
  | nil =>
    rw [caseLabels, yields_pure] at h
    obtain ⟨rfl, rfl⟩ := h
    exact ⟨rfl, .nil _⟩
  | cons x cases ih =>
    simp only [caseLabels, yields_bind, yields_pure] at h
    obtain ⟨l, c₁, hl, ls, c₂, hrest, rfl, rfl⟩ := h
    obtain ⟨hsize, hls⟩ := ih hrest
    exact ⟨congrArg Nat.succ hsize, (Compiles.freshLabel hl).trans hls⟩

/-- The cases are tested in order. -/
theorem compiles_caseTests {subject : Slot} {cases : List Case} {ls : List Label}
    (hsize : ls.length = cases.length) (h : Yields (caseTests subject cases ls) c u c') :
    ∃ cs, Compiles c c' cs [] [] ls [] ∧ Selects cs ls cases := by
  induction cases generalizing c ls with
  | nil =>
    obtain rfl := List.length_eq_zero_iff.mp hsize
    simp only [caseTests, yields_pure] at h
    obtain ⟨_, rfl⟩ := h
    exact ⟨[], .nil _, selects_nil⟩
  | cons x cases ih =>
    cases ls with
    | nil => cases hsize
    | cons l ls =>
      simp only [caseTests, yields_bind] at h
      obtain ⟨_, c₁, hfirst, hrest⟩ := h
      obtain ⟨cs, hcs, hasks⟩ := compiles_tests hfirst
      obtain ⟨ds, hds, hselects⟩ := ih (Nat.succ.inj hsize) hrest
      exact ⟨cs ++ ds, hcs.trans hds, selects_cons hasks hselects⟩

/-! ## Jumps to the statements around and returns -/

theorem yields_leave {span : Span} (h : Yields (leave span) c u c') :
    ∃ l, c.scopes.around.leave = some l ∧ c' = c.add [.goto l] := by
  simp only [leave, yields_bind, yields_get] at h
  obtain ⟨_, _, ⟨rfl, rfl⟩, h⟩ := h
  unfold Scopes.around
  split at h
  · rename_i l k hloop
    rw [yields_emitGoto] at h
    exact ⟨l, by rw [hloop]; rfl, h⟩
  · rw [yields_fail] at h
    exact h.elim

theorem yields_again {span : Span} (h : Yields (again span) c u c') :
    ∃ l, c.scopes.around.again = some l ∧ c' = c.add [.goto l] := by
  simp only [again, yields_bind, yields_get] at h
  obtain ⟨_, _, ⟨rfl, rfl⟩, h⟩ := h
  unfold Scopes.around
  split at h
  · rename_i k l hloop
    rw [yields_emitGoto] at h
    exact ⟨l, by rw [hloop]; rfl, h⟩
  · rw [yields_fail] at h
    exact h.elim

theorem yields_fallInto {span : Span} (h : Yields (fallInto span) c u c') :
    ∃ l, c.scopes.around.next = some l ∧ c' = c.add [.goto l] := by
  simp only [fallInto, yields_bind, yields_get] at h
  obtain ⟨_, _, ⟨rfl, rfl⟩, h⟩ := h
  unfold Scopes.around
  split at h
  · rename_i l hcase
    rw [yields_emitGoto] at h
    exact ⟨l, by rw [hcase]; rfl, h⟩
  · rw [yields_fail] at h
    exact h.elim
  · rw [yields_fail] at h
    exact h.elim

/-- A return without a value, which only functions without a result have. -/
theorem compiles_ret {span : Span} {o : List Label} {r : List Expr}
    (h : Yields (ret none span) c u c') : Compiles c c' [.ret] [] [] o r := by
  simp only [ret, yields_bind, yields_get] at h
  obtain ⟨_, _, ⟨rfl, rfl⟩, h⟩ := h
  split at h
  · rw [yields_fail] at h
    exact h.elim
  · rename_i f hf
    have hvoid : f.result.isVoid = true := by
      cases hvoid : f.result.isVoid with
      | true => rfl
      | false => simp [hvoid] at h
    simp only [hvoid, Bool.not_true, Bool.false_eq_true, if_false, yields_emit] at h
    subst h
    exact {
      toExtends := (adds_emit rfl).toExtends
      toSettled := .nil [] o
      static := rfl
      kinds := rfl
      compiled := by simp [Chunk.Compiled]
      results := by simp
      returns := fun g hg hresult => by
        rw [hf] at hg
        injection hg with hg
        rw [← hg, hvoid] at hresult
        cases hresult }

/-- A return with a value. -/
theorem compiles_ret_value {e : Expr} {span : Span} (h : Yields (ret (some e) span) c u c') :
    ∃ code, Compiles c c' [.leaf (.result e) code, .ret] [] [] [] [e] := by
  simp only [ret, yields_bind, yields_get] at h
  obtain ⟨_, _, ⟨rfl, rfl⟩, h⟩ := h
  split at h
  · rw [yields_fail] at h
    exact h.elim
  · rename_i f hf
    have hvoid : f.result.isVoid = false := by
      cases hvoid : f.result.isVoid with
      | true => simp [hvoid] at h
      | false => rfl
    simp only [hvoid, Bool.false_eq_true, if_false, yields_bind, yields_emit] at h
    obtain ⟨_, c₁, hvalue, rfl⟩ := h
    -- The value is one leaf; the return comes right behind it.
    obtain ⟨code, hcode⟩ := Compiles.of_emits (l := .result e) (r := [e]) hvalue
      (fun h => ⟨f, hf, h⟩) (fun e h => by cases h; simp)
    refine ⟨code, ?_⟩
    exact {
      toExtends := by
        have hextends := hcode.toExtends.trans (adds_emit (c := c₁) (i := .ret) rfl).toExtends
        have hall : codeOf [.leaf (.result e) code, .ret] =
            codeOf [.leaf (.result e) code] ++ [.ret] := by simp [Chunk.code]
        exact hall ▸ hextends
      toSettled := .nil [] []
      static := hcode.static
      kinds := hcode.kinds
      compiled := by
        intro x hx
        rcases List.mem_cons.mp hx with rfl | hx
        · exact hcode.compiled _ List.mem_cons_self
        · obtain rfl := List.mem_singleton.mp hx
          trivial
      results := by
        intro e' code' hx
        simp at hx
        simp [hx]
      returns := by
        -- The only return is the second chunk, so nothing else can stand in front of it.
        intro _ _ _ before after heq
        rcases before with _ | ⟨x, _ | ⟨_, before⟩⟩
        · cases heq
        · injection heq with hx _
          exact ⟨[], e, code, by rw [← hx]; rfl⟩
        · simp at heq }

/-! ## Loops with parts that may be missing -/

theorem compiles_condition {condition : Option Expr} {target : Label}
    (h : Yields (optionally (jumpUnless · target) condition) c u c') :
    ∃ cs, Compiles c c' cs [] [] [target] [] ∧
      Asks cs false target fun o => Stmt.holds o condition := by
  cases condition with
  | none =>
    rw [optionally, yields_pure] at h
    obtain ⟨_, rfl⟩ := h
    exact ⟨[], (Compiles.nil _).widen (by simp), asks_nothing target⟩
  | some e => exact compiles_jumpUnless h

theorem compiles_step {step : Option Expr} (h : Yields (optionally effect step) c u c') :
    ∃ cs, Compiles c c' cs [] [] [] [] ∧ ∀ {o whole} rest h,
      ∃ n, Walks o whole n (cs ++ rest, h) (rest, Stmt.between step h) := by
  cases step with
  | none =>
    rw [optionally, yields_pure] at h
    obtain ⟨_, rfl⟩ := h
    exact ⟨[], .nil _, fun rest h => ⟨0, .refl _⟩⟩
  | some e =>
    rw [optionally] at h
    obtain ⟨code, hcode⟩ := Compiles.of_emits (l := .effect e) h id fun _ h => by cases h
    exact ⟨_, hcode, fun rest h => ⟨1, walks_leaf (.effect e) code rest h⟩⟩

/-! ## Statements from their parts

What has to be shown of a statement, and each construct from what holds of its parts. -/

/-- The step adds chunks that jump only to each other and to the statements around, return the
values `results`, and implement `run`. -/
def Realizes (m : CompileM Unit) (results : List Expr)
    (run : Oracle → Nat → History → Ending × History) : Prop :=
  ∀ ⦃c c' : Compilation⦄ ⦃u : Unit⦄, Yields m c u c' →
    ∃ cs, Compiles c c' cs [] [] c.scopes.around.labels results ∧
      Implements c.scopes.around cs run

/-- Lowering the statement realizes it. -/
def Realized (s : Stmt) : Prop :=
  Realizes (stmt s) s.results fun o bound => Stmt.exec o bound s

/-- Lowering the statements realizes running them in order. -/
def AllRealized (ss : List Stmt) : Prop :=
  Realizes (stmts ss) (Stmt.resultsAll ss) fun o bound => Stmt.execAll o bound ss

/-- Lowering the bodies of the cases places a label in front of each, at which a walk enters it. -/
def BodiesRealized (cases : List Case) : Prop :=
  ∀ (ls : List Label) ⦃done : Label⦄ ⦃c c' : Compilation⦄ ⦃u : Unit⦄, ls.length = cases.length →
    Yields (caseBodies done cases ls) c u c' →
    ∃ cs, Compiles c c' cs [] ls (c.scopes.around.labels ++ done :: ls)
        (Stmt.resultsCases cases) ∧
      Enters c.scopes.around cs done ls cases ∧ ∀ l ∈ ls, Chunk.label l ∈ cs

/-- A step in a scope of its own is left to what is around the statements inside that scope. -/
theorem Realizes.inScope {kind : ScopeKind} {body : CompileM Unit} {r : List Expr}
    {run : Oracle → Nat → History → Ending × History}
    (hbody : Realizes body r run) (h : Yields (inScope kind body) c u c')
    (hfunction : (c.scopes.enter kind).function? = c.scopes.function?) :
    ∃ cs, Compiles c c' cs [] [] (c.scopes.enter kind).around.labels r ∧
      Implements (c.scopes.enter kind).around cs run := by
  obtain ⟨c₀, c₁, hrun, hscopes, hclose⟩ := Compiles.inScope h hfunction
  obtain ⟨cs, hcs, himplements⟩ := hbody hrun
  rw [hscopes] at hcs himplements
  exact ⟨cs, hclose hcs, himplements⟩

section Constructs

variable {e : Expr} {body yes : List Stmt} {no : Stmt} {cases : List Case} {span : Span}

theorem Realized.block (hbody : AllRealized body) : Realized (.block body span) := by
  intro c c' u h
  rw [stmt] at h
  exact Realizes.inScope hbody h rfl

theorem Realized.when (hyes : AllRealized yes) : Realized (.branch e yes none span) := by
  intro c c' u h
  simp only [stmt, yields_bind, yields_emitLabel] at h
  obtain ⟨o, c₁, ho, _, c₂, hjump, _, c₃, hbody, rfl⟩ := h
  obtain ⟨ts, htest, hasks⟩ := compiles_jumpUnless hjump
  obtain ⟨cs, hcs, himplements⟩ := Realizes.inScope hyes hbody rfl
  have hstart := (Compiles.freshLabel ho).trans htest
  have haround : (c₂.scopes.enter .block).around = c.scopes.around := hstart.around
  rw [haround] at hcs himplements
  have hall := (hstart.trans hcs).trans (.label c₃ o)
  have hall : Compiles _ _ _ [] [] c.scopes.around.labels _ := hall.complete (by simp) (by simp)
  refine ⟨ts ++ cs ++ [.label o], by simpa [Stmt.results] using hall, ?_⟩
  intro oracle whole rest bound h hplaced
  simp only [Stmt.exec]
  exact implements_when hasks himplements oracle whole rest bound h hplaced

theorem Realized.branch (hyes : AllRealized yes) (hno : Realized no) :
    Realized (.branch e yes (some no) span) := by
  intro c c' u h
  simp only [stmt, yields_bind, yields_emitLabel, yields_emitGoto] at h
  obtain ⟨o, c₁, ho, _, c₂, hjump, _, c₃, hbody, d, c₄, hd, _, _, rfl, _, _, rfl, _, c₅, hother,
    rfl⟩ := h
  obtain ⟨ts, htest, hasks⟩ := compiles_jumpUnless hjump
  obtain ⟨cs, hcs, hyesRun⟩ := Realizes.inScope hyes hbody rfl
  obtain ⟨ds, hds, hnoRun⟩ := hno hother
  have hstart := (Compiles.freshLabel ho).trans htest
  have haround : (c₂.scopes.enter .block).around = c.scopes.around := hstart.around
  rw [haround] at hcs hyesRun
  have hmiddle := (((hstart.trans hcs).trans (.freshLabel hd)).trans (.goto c₄ d)).trans (.label _ o)
  rw [hmiddle.around] at hds hnoRun
  have hall := (hmiddle.trans hds).trans (.label c₅ d)
  have hall : Compiles _ _ _ [] [] c.scopes.around.labels _ := hall.complete (by simp) (by
    intro l hl
    simp at hl ⊢
    grind)
  refine ⟨ts ++ cs ++ .goto d :: .label o :: (ds ++ [.label d]), ?_, ?_⟩
  · simpa [Stmt.results] using hall
  · intro oracle whole rest bound h hplaced
    simp only [Stmt.exec]
    exact implements_branch hasks hyesRun hnoRun oracle whole rest bound h hplaced

theorem Realized.whileLoop (hbody : AllRealized body) : Realized (.whileLoop e body span) := by
  intro c c' u h
  simp only [stmt, yields_bind, yields_emitLabel, yields_emitGoto] at h
  obtain ⟨top, c₁, htop, done, c₂, hdone, _, _, rfl, _, c₃, hjump, _, c₄, hloop, _, _, rfl, rfl⟩ := h
  obtain ⟨ts, htest, hasks⟩ := compiles_jumpUnless hjump
  obtain ⟨cs, hcs, himplements⟩ := Realizes.inScope hbody hloop rfl
  -- the loop hides the cases around it, and is left and repeated by its own labels
  have haround : (c₃.scopes.enter (.loop done top)).around = ⟨some done, some top, none⟩ := rfl
  rw [haround] at hcs himplements
  have hstart := ((Compiles.freshLabel htop).trans (.freshLabel hdone)).trans (.label c₂ top)
  have hall := ((hstart.trans htest).trans hcs).trans ((Compiles.goto c₄ top).trans (.label _ done))
  refine ⟨_, ?_, implements_while hasks himplements⟩
  have hall : Compiles _ _ _ [] [] c.scopes.around.labels _ := hall.complete (by simp) (by
    intro l hl
    simp [Surroundings.labels] at hl ⊢
    grind)
  simpa [Stmt.results] using hall

/-- The rounds of a `for`, which come after its initial statement. -/
theorem realizes_rounds {condition step : Option Expr} (hbody : AllRealized body) :
    Realizes (do
      let top ← freshLabel .loop
      let done ← freshLabel .endLoop
      let next ← freshLabel .general
      emitLabel top
      optionally (jumpUnless · done) condition
      CompileM.inScope (.loop done next) (stmts body)
      emitLabel next
      optionally Lowering.effect step
      emitGoto top
      emitLabel done) (Stmt.resultsAll body) fun o bound =>
        Stmt.rounds (fun h => Stmt.holds o condition h) (fun h => Stmt.execAll o bound body h)
          (Stmt.between step) bound := by
  intro c c' u h
  simp only [yields_bind, yields_emitLabel, yields_emitGoto] at h
  obtain ⟨top, c₁, htop, done, c₂, hdone, next, c₃, hnext, _, _, rfl, _, c₄, hjump, _, c₅, hloop, _, _,
    rfl, _, c₆, hstep, _, _, rfl, rfl⟩ := h
  obtain ⟨ts, hts, hasks⟩ := compiles_condition hjump
  obtain ⟨cs, hcs, himplements⟩ := Realizes.inScope hbody hloop rfl
  obtain ⟨ss, hss, hwalks⟩ := compiles_step hstep
  -- `continue` goes to the step, which is not where the rounds start
  have haround : (c₄.scopes.enter (.loop done next)).around = ⟨some done, some next, none⟩ := rfl
  rw [haround] at hcs himplements
  have hlabels := ((Compiles.freshLabel htop).trans (.freshLabel hdone)).trans (.freshLabel hnext)
  have hround := ((Compiles.label c₃ top).trans hts).trans hcs
  have hback := (Compiles.label c₅ next).trans
    (hss.trans ((Compiles.goto c₆ top).trans (.label _ done)))
  have hall : Compiles _ _ _ [] [] c.scopes.around.labels _ :=
    (hlabels.trans (hround.trans hback)).complete
      (by simpa using List.Perm.cons top (.swap next done [])) (by
        intro l hl
        simp [Surroundings.labels] at hl ⊢
        grind)
  refine ⟨_, ?_, implements_for (x := c.scopes.around) top hasks himplements hwalks⟩
  simpa using hall

theorem Realized.forLoop {init : Option Stmt} {condition step : Option Expr}
    (hinit : ∀ s ∈ init, Realized s) (hbody : AllRealized body) :
    Realized (.forLoop init condition step body span) := by
  intro c c' u h
  rw [stmt_forLoop] at h
  cases init with
  | none => exact Realizes.inScope (realizes_rounds hbody) h rfl
  | some s =>
    refine Realizes.inScope (fun c₀ c₁ u h => ?_) h rfl
    rw [yields_bind] at h
    obtain ⟨_, c₂, hfirst, hrounds⟩ := h
    obtain ⟨is, his, hinitRun⟩ := hinit s rfl hfirst
    obtain ⟨cs, hcs, hloopRun⟩ := realizes_rounds hbody hrounds
    rw [his.around] at hcs hloopRun
    exact ⟨is ++ cs, (his.trans hcs).widen (by simp), implements_append hinitRun hloopRun⟩

/-- A switch without a default goes on behind it if no case is selected. -/
theorem Realized.switch (hcases : BodiesRealized cases) :
    Realized (.switch e cases none span) := by
  intro c c' u h
  rw [stmt] at h
  obtain ⟨c₀, c₁, hrun, hscopes, hclose⟩ := Compiles.inScope h rfl
  simp only [yields_bind, yields_emitLabel, yields_emitGoto] at hrun
  obtain ⟨v, c₂, hv, done, c₃, hdone, ls, c₄, hls, _, c₅, htests, _, _, rfl, _, c₆, hbodies, rfl⟩ :=
    hrun
  obtain ⟨code, hcode⟩ := Compiles.of_emits (l := .subject e) (r := []) hv id fun _ h => by cases h
  obtain ⟨hsize, hlabels⟩ := compiles_caseLabels hls
  obtain ⟨ts, hts, hselects⟩ := compiles_caseTests hsize htests
  obtain ⟨bs, hbs, henters, hplaces⟩ := hcases ls hsize hbodies
  have hstart := ((hcode.trans (.freshLabel hdone)).trans hlabels).trans (hts.trans (.goto c₅ done))
  have haround : (c₅.add [.goto done]).scopes.around = c.scopes.around := by
    rw [hstart.around, hscopes]
    rfl
  rw [haround] at hbs henters
  have hperm : (done :: ls).Perm (ls ++ [done]) := @List.perm_append_comm _ [done] _
  have hall : Compiles _ _ _ [] [] c.scopes.around.labels _ :=
    (hstart.trans (hbs.trans (.label c₆ done))).complete (by simpa using hperm) (by
      intro l hl
      simp at hl ⊢
      grind)
  -- Behind the bodies there is the label only, so nothing is run there.
  have hbehind : ∀ o whole rest bound h, Placed whole [label done] rest →
      landing whole done = some rest ∧ ∃ pos, landing whole done = some pos ∧
        Follows o whole c.scopes.around bound (pos, h) rest (.finished, h) := by
    intro o whole rest bound h hplaced
    exact ⟨hplaced.head, rest, hplaced.head, .finished (.refl _)⟩
  refine ⟨_, ?_, implements_switch code hselects henters hplaces hbehind⟩
  simpa [Stmt.results] using hclose hall

/-- The default is what is run if no case is selected; it stands behind the bodies of the cases. -/
theorem Realized.switchDefault (hcases : BodiesRealized cases) (hbody : AllRealized body) :
    Realized (.switch e cases (some body) span) := by
  intro c c' u h
  rw [stmt] at h
  obtain ⟨c₀, c₁, hrun, hscopes, hclose⟩ := Compiles.inScope h rfl
  simp only [yields_bind, yields_emitLabel, yields_emitGoto] at hrun
  obtain ⟨v, c₂, hv, done, c₃, hdone, ls, c₄, hls, other, c₅, hother, _, c₆, htests, _, _, rfl, _,
    c₇, hbodies, _, _, rfl, _, c₈, hdefault, rfl⟩ := hrun
  obtain ⟨code, hcode⟩ := Compiles.of_emits (l := .subject e) (r := []) hv id fun _ h => by cases h
  obtain ⟨hsize, hlabels⟩ := compiles_caseLabels hls
  obtain ⟨ts, hts, hselects⟩ := compiles_caseTests hsize htests
  obtain ⟨bs, hbs, henters, hplaces⟩ := hcases ls hsize hbodies
  obtain ⟨ds, hds, hdefaultRun⟩ := Realizes.inScope hbody hdefault rfl
  have hstart := ((hcode.trans (.freshLabel hdone)).trans hlabels).trans
    ((Compiles.freshLabel hother).trans (hts.trans (.goto c₆ other)))
  have hmiddle := hstart.trans (hbs.trans (.label c₇ other))
  have haround : (c₆.add [.goto other]).scopes.around = c.scopes.around := by
    rw [hstart.around, hscopes]
    rfl
  have haroundDefault : ((c₇.add [.label other]).scopes.enter (.caseBody none)).around =
      { c.scopes.around with next := none } := by
    have hsame : c₇.scopes.around = c.scopes.around := hbs.around.trans haround
    exact congrArg (fun x : Surroundings => { x with next := none }) hsame
  have hall := hmiddle.trans (hds.trans (.label c₈ done))
  rw [haround] at henters
  rw [haroundDefault] at hdefaultRun
  rw [haround, haroundDefault] at hall
  have hperm : (done :: (ls ++ [other])).Perm (ls ++ [other] ++ [done]) :=
    @List.perm_append_comm _ [done] _
  have hall : Compiles _ _ _ [] [] c.scopes.around.labels _ :=
    hall.complete (by simpa using hperm) (by
      intro l hl
      simp [Surroundings.labels] at hl ⊢
      grind)
  have hbehind : ∀ o whole rest bound h, Placed whole (label other :: (ds ++ [label done])) rest →
      landing whole done = some rest ∧ ∃ pos, landing whole other = some pos ∧
        Follows o whole c.scopes.around bound (pos, h) rest (Stmt.execAll o bound body h) := by
    intro o whole rest bound h hplaced
    have hdone : landing whole done = some rest := hplaced (label other :: ds) done [] rfl
    refine ⟨hdone, _, hplaced.head, ?_⟩
    rw [List.append_assoc]
    -- the default cannot be fallen through from, whatever the switch itself is in
    have hfollows := hdefaultRun o whole _ bound h hplaced.tail.left
    exact hfollows.of_next_none.extend fun h => ⟨1, walks_label done rest h⟩
  refine ⟨_, ?_, implements_switch code hselects henters hplaces hbehind⟩
  simpa [Stmt.results] using hclose hall

/-- The end of a body goes behind the switch; `fallthrough` goes to the label of the next body. -/
theorem BodiesRealized.cons {vs : List Expr} (hbody : AllRealized body)
    (hcases : BodiesRealized cases) : BodiesRealized (.mk vs body span :: cases) := by
  intro ls done c c' u hsize h
  cases ls with
  | nil => cases hsize
  | cons l ls =>
    simp only [caseBodies, yields_bind, yields_emitLabel, yields_emitGoto] at h
    obtain ⟨_, _, rfl, _, c₁, hcase, _, _, rfl, hrest⟩ := h
    obtain ⟨cs, hcs, hrun⟩ := Realizes.inScope hbody hcase rfl
    obtain ⟨ds, hds, henters, hplaces⟩ := hcases ls (Nat.succ.inj hsize) hrest
    have haround : ((c.add [.label l]).scopes.enter (.caseBody ls.head?)).around =
        { c.scopes.around with next := ls.head? } := rfl
    have hfirst := ((Compiles.label c l).trans hcs).trans (.goto c₁ done)
    rw [hfirst.around] at henters
    have hall := hfirst.trans hds
    rw [hfirst.around, haround] at hall
    rw [haround] at hrun
    refine ⟨_, ?_, enters_cons hrun henters, fun k hk => ?_⟩
    · have hall : Compiles _ _ _ _ _ (c.scopes.around.labels ++ done :: l :: ls) _ := hall.widen (by
        have hhead : ∀ k, ls.head? = some k → k ∈ ls := fun k hk => List.mem_of_mem_head? hk
        intro k hk
        simp [Surroundings.labels] at hk ⊢
        grind)
      simpa [Stmt.resultsCases] using hall
    · rcases List.mem_cons.mp hk with rfl | hk
      · exact List.mem_cons_self
      · simp [hplaces k hk]

end Constructs

/-! ## Every statement -/

mutual

theorem compiles_stmt : ∀ s : Stmt, Realized s
  | .expr e span => by
    intro c c' u h
    rw [stmt] at h
    obtain ⟨code, hcode⟩ := Compiles.of_emits (l := .effect e) h id fun _ h => by cases h
    exact ⟨_, hcode.widen (by simp), implements_leaf (.effect e) code⟩
  | .declare d => by
    intro c c' u h
    rw [stmt] at h
    obtain ⟨code, hcode⟩ := compiles_declare h
    exact ⟨_, hcode.widen (by simp), implements_leaf (.declare d) code⟩
  | .delete e span => by
    intro c c' u h
    rw [stmt] at h
    obtain ⟨code, hcode⟩ := Compiles.of_emits (l := .delete e) h (fun h => ⟨span, h⟩)
      fun _ h => by cases h
    exact ⟨_, hcode.widen (by simp), implements_leaf (.delete e) code⟩
  | .block body span => Realized.block (compiles_stmts body)
  | .branch condition yes none span => Realized.when (compiles_stmts yes)
  | .branch condition yes (some no) span => Realized.branch (compiles_stmts yes) (compiles_stmt no)
  | .whileLoop condition body span => Realized.whileLoop (compiles_stmts body)
  | .forLoop none condition step body span =>
    Realized.forLoop (fun _ hs => nomatch hs) (compiles_stmts body)
  | .forLoop (some init) condition step body span =>
    Realized.forLoop (fun _ hs => Option.some.inj hs ▸ compiles_stmt init) (compiles_stmts body)
  | .switch subject cases none span => Realized.switch (compiles_bodies cases)
  | .switch subject cases (some default) span =>
    Realized.switchDefault (compiles_bodies cases) (compiles_stmts default)
  | .ret none span => by
    intro c c' u h
    rw [stmt] at h
    exact ⟨_, compiles_ret h, implements_ret⟩
  | .ret (some e) span => by
    intro c c' u h
    rw [stmt] at h
    obtain ⟨code, hcode⟩ := compiles_ret_value h
    exact ⟨_, hcode.widen (by simp), implements_ret_value e code⟩
  | .leave span => by
    intro c c' u h
    rw [stmt] at h
    obtain ⟨l, hl, rfl⟩ := yields_leave h
    exact ⟨_, (Compiles.goto c l).widen (by simp [Surroundings.labels, hl]), implements_leave hl⟩
  | .again span => by
    intro c c' u h
    rw [stmt] at h
    obtain ⟨l, hl, rfl⟩ := yields_again h
    exact ⟨_, (Compiles.goto c l).widen (by simp [Surroundings.labels, hl]), implements_again hl⟩
  | .fallthrough span => by
    intro c c' u h
    rw [stmt] at h
    obtain ⟨l, hl, rfl⟩ := yields_fallInto h
    exact ⟨_, (Compiles.goto c l).widen (by simp [Surroundings.labels, hl]),
      implements_fallthrough hl⟩

theorem compiles_stmts : ∀ ss : List Stmt, AllRealized ss
  | [] => by
    intro c c' u h
    rw [stmts, yields_pure] at h
    obtain ⟨_, rfl⟩ := h
    exact ⟨[], (Compiles.nil _).widen (by simp), implements_nil⟩
  | s :: rest => by
    intro c c' u h
    rw [stmts, yields_bind] at h
    obtain ⟨_, c₁, hfirst, hrest⟩ := h
    obtain ⟨cs, hcs, hrun⟩ := compiles_stmt s hfirst
    obtain ⟨ds, hds, hrestRun⟩ := compiles_stmts rest hrest
    rw [hcs.around] at hds hrestRun
    exact ⟨cs ++ ds, (hcs.trans hds).widen (by simp), implements_append hrun hrestRun⟩

theorem compiles_bodies : ∀ cases : List Case, BodiesRealized cases
  | [] => by
    intro ls done c c' u hsize h
    obtain rfl := List.length_eq_zero_iff.mp hsize
    simp only [caseBodies, yields_pure] at h
    obtain ⟨_, rfl⟩ := h
    exact ⟨[], (Compiles.nil _).widen (by simp), enters_nil, by simp⟩
  | .mk vs body span :: cases => BodiesRealized.cons (compiles_stmts body) (compiles_bodies cases)

end

end ClassLang.Lowering
