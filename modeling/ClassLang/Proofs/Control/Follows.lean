import ClassLang.Proofs.Control.Chunk

/-!
# Walks that follow a statement

A walk through the chunks of a statement follows its runs: it records the same history, and where
it is in the end says how the run ended. At the end of the chunks the run finished; in front of a
jump to a label of a statement around it was left that way. There is one lemma for each construct,
which builds its walk from those of its parts.

The number of steps matters for loops only. A run that is cut off after some rounds is followed by
a walk that takes at least as many steps, so no walk is longer than every run.
-/

namespace ClassLang

/-- The labels that `break`, `continue` and `fallthrough` go to. -/
structure Surroundings where
  leave : Option Label
  again : Option Label
  next : Option Label

/-- All labels that a statement can be left to. -/
def Surroundings.labels (x : Surroundings) : List Label :=
  x.leave.toList ++ x.again.toList ++ x.next.toList

namespace Chunk

/-! ## Chunks inside of others -/

/-- Jumps to the labels of some chunks that are followed by `rest` get to them. -/
def Placed (whole cs rest : List Chunk) : Prop :=
  ∀ before l after, cs = before ++ label l :: after → landing whole l = some (after ++ rest)

namespace Placed

variable {whole cs ds rest : List Chunk}

theorem left (h : Placed whole (cs ++ ds) rest) : Placed whole cs (ds ++ rest) := by
  intro before l after heq
  have hl := h before l (after ++ ds) (by rw [heq]; simp)
  rwa [List.append_assoc] at hl

theorem right (h : Placed whole (cs ++ ds) rest) : Placed whole ds rest := by
  intro before l after heq
  exact h (cs ++ before) l after (by rw [heq]; simp)

theorem tail {x : Chunk} (h : Placed whole (x :: cs) rest) : Placed whole cs rest := by
  have hsplit : Placed whole ([x] ++ cs) rest := h
  exact hsplit.right

theorem head {l : Label} (h : Placed whole (label l :: cs) rest) :
    landing whole l = some (cs ++ rest) := h [] l cs rfl

end Placed

/-- Chunks whose labels are placed once are placed in themselves. -/
theorem placed_self {cs : List Chunk} (h : (placed cs).Nodup) : Placed cs cs [] := by
  intro before l after heq
  subst heq
  rw [List.append_nil]
  refine landing_append fun hmem => ?_
  rw [placed_append] at h
  exact (List.nodup_append.mp h).2.2 l hmem l (mem_placed.mpr List.mem_cons_self) rfl

/-! ## Where a walk ends -/

/-- Where a walk of `n` steps is when a run has ended. Behind the chunks there is `rest`. -/
def Arrives (x : Surroundings) (rest : List Chunk) (bound n : Nat) (pos : List Chunk) :
    Ending → Prop
  | .finished => pos = rest
  | .left => ∃ l more, x.leave = some l ∧ pos = goto l :: more
  | .again => ∃ l more, x.again = some l ∧ pos = goto l :: more
  | .fellThrough => ∃ l more, x.next = some l ∧ pos = goto l :: more
  | .returned => ∃ more, pos = ret :: more
  | .cutOff => bound ≤ n

/-- The walk from a spot records what a run records, and ends where the run says. -/
def Follows (o : Oracle) (whole : List Chunk) (x : Surroundings) (bound : Nat) (s : Spot)
    (rest : List Chunk) (r : Ending × History) : Prop :=
  ∃ n pos, Walks o whole n s (pos, r.2) ∧ Arrives x rest bound n pos r.1

section Follows

variable {o : Oracle} {whole rest mid : List Chunk} {x y : Surroundings} {bound n k : Nat}
  {s t : Spot} {r : Ending × History} {h : History} {pos : List Chunk} {e : Ending}

/-- More steps change nothing. -/
theorem Arrives.mono (harrives : Arrives x rest bound n pos e) (hle : n ≤ k) :
    Arrives x rest bound k pos e := by
  cases e with
  | cutOff => exact Nat.le_trans harrives hle
  | _ => exact harrives

namespace Follows

theorem finished (hwalk : Walks o whole n s (rest, h)) :
    Follows o whole x bound s rest (.finished, h) := ⟨n, rest, hwalk, rfl⟩

theorem prepend (hwalk : Walks o whole n s t) (hfollows : Follows o whole x bound t rest r) :
    Follows o whole x bound s rest r := by
  obtain ⟨k, pos, hrest, harrives⟩ := hfollows
  exact ⟨n + k, pos, hwalk.trans hrest, harrives.mono (Nat.le_add_left ..)⟩

/-- A statement that is not finished is left in the same way with other chunks behind it. -/
theorem relocate (hfollows : Follows o whole x bound s rest r) (hr : r.1 ≠ .finished) :
    Follows o whole x bound s mid r := by
  obtain ⟨n, pos, hwalk, harrives⟩ := hfollows
  refine ⟨n, pos, hwalk, ?_⟩
  cases hending : r.1 with
  | finished => exact absurd hending hr
  | _ =>
    rw [hending] at harrives
    exact harrives

/-- A finished statement goes on behind its chunks. -/
theorem extend (hfollows : Follows o whole x bound s mid r)
    (hmid : ∀ h, ∃ n, Walks o whole n (mid, h) (rest, h)) : Follows o whole x bound s rest r := by
  obtain ⟨e, h⟩ := r
  by_cases he : e = .finished
  · subst he
    obtain ⟨n, pos, hwalk, rfl⟩ := hfollows
    obtain ⟨k, hk⟩ := hmid h
    exact .finished (hwalk.trans hk)
  · exact hfollows.relocate he

theorem andThen {next : History → Ending × History} (hfirst : Follows o whole x bound s mid r)
    (hnext : ∀ h, Follows o whole x bound (mid, h) rest (next h)) :
    Follows o whole x bound s rest (Stmt.andThen r next) := by
  obtain ⟨e, h⟩ := r
  by_cases he : e = .finished
  · subst he
    obtain ⟨n, pos, hwalk, rfl⟩ := hfirst
    exact (hnext h).prepend hwalk
  · have hsame : Stmt.andThen (e, h) next = (e, h) := by
      cases e <;> first | rfl | exact absurd rfl he
    rw [hsame]
    exact hfirst.relocate he

/-- What cannot be fallen through from can also be followed where it could. -/
theorem of_next_none (hfollows : Follows o whole { x with next := none } bound s rest r) :
    Follows o whole x bound s rest r := by
  obtain ⟨n, pos, hwalk, harrives⟩ := hfollows
  refine ⟨n, pos, hwalk, ?_⟩
  generalize r.1 = e at harrives
  cases e with
  | fellThrough =>
    obtain ⟨_, _, hnone, _⟩ := harrives
    cases hnone
  | _ => exact harrives

end Follows

theorem walks_label (l : Label) (rest : List Chunk) (h : History) :
    Walks o whole 1 (label l :: rest, h) (rest, h) := .single rfl

theorem walks_goto {l : Label} {target : List Chunk} (hl : landing whole l = some target)
    (rest : List Chunk) (h : History) : Walks o whole 1 (goto l :: rest, h) (target, h) := by
  refine .single ?_
  rw [advance, hl]
  rfl

theorem walks_leaf (l : Leaf) (code : List Instr) (rest : List Chunk) (h : History) :
    Walks o whole 1 (leaf l code :: rest, h) (rest, h.leaf l) := .single rfl

end Follows

/-! ## Statements without parts -/

/-- Wherever the chunks stand, walks through them follow `run`. -/
def Implements (x : Surroundings) (cs : List Chunk)
    (run : Oracle → Nat → History → Ending × History) : Prop :=
  ∀ o whole rest bound h, Placed whole cs rest →
    Follows o whole x bound (cs ++ rest, h) rest (run o bound h)

variable {x : Surroundings}

theorem implements_nil : Implements x [] fun _ _ h => (.finished, h) :=
  fun _ _ _ _ _ _ => .finished (.refl _)

theorem implements_leaf (l : Leaf) (code : List Instr) :
    Implements x [leaf l code] fun _ _ h => (.finished, h.leaf l) :=
  fun _ _ rest _ h _ => .finished (walks_leaf l code rest h)

theorem implements_leave {l : Label} (hl : x.leave = some l) :
    Implements x [goto l] fun _ _ h => (.left, h) :=
  fun _ _ rest _ _ _ => ⟨0, goto l :: rest, .refl _, l, rest, hl, rfl⟩

theorem implements_again {l : Label} (hl : x.again = some l) :
    Implements x [goto l] fun _ _ h => (.again, h) :=
  fun _ _ rest _ _ _ => ⟨0, goto l :: rest, .refl _, l, rest, hl, rfl⟩

theorem implements_fallthrough {l : Label} (hl : x.next = some l) :
    Implements x [goto l] fun _ _ h => (.fellThrough, h) :=
  fun _ _ rest _ _ _ => ⟨0, goto l :: rest, .refl _, l, rest, hl, rfl⟩

theorem implements_ret : Implements x [ret] fun _ _ h => (.returned, h) :=
  fun _ _ rest _ _ _ => ⟨0, ret :: rest, .refl _, rest, rfl⟩

theorem implements_ret_value (e : Expr) (code : List Instr) :
    Implements x [leaf (.result e) code, ret] fun _ _ h => (.returned, h.leaf (.result e)) :=
  fun _ _ rest _ h _ => ⟨1, ret :: rest, walks_leaf _ code _ h, rest, rfl⟩

/-! ## Sequences and branches -/

variable {cs ds yes no : List Chunk}
  {run run₁ run₂ : Oracle → Nat → History → Ending × History}

theorem implements_append (h₁ : Implements x cs run₁) (h₂ : Implements x ds run₂) :
    Implements x (cs ++ ds) fun o bound h => Stmt.andThen (run₁ o bound h) (run₂ o bound) := by
  intro o whole rest bound h hplaced
  rw [List.append_assoc]
  exact (h₁ o whole _ bound h hplaced.left).andThen
    fun h => h₂ o whole rest bound h hplaced.right

/-- The chunks ask a question, and there is a jump to `target` if the answer is `sense`. -/
def Asks (cs : List Chunk) (sense : Bool) (target : Label)
    (question : Oracle → History → Bool × History) : Prop :=
  ∀ o whole rest dest h, landing whole target = some dest →
    ∃ n, Walks o whole n (cs ++ rest, h)
      (if (question o h).1 = sense then dest else rest, (question o h).2)

theorem asks_test (t : Test) (code : List Instr) (a : Address) (sense : Bool) (target : Label) :
    Asks [test t code a sense target] sense target fun o h => (o h t, h.test t (o h t)) := by
  intro o whole rest dest h hdest
  refine ⟨1, .single ?_⟩
  dsimp only [List.cons_append, List.nil_append, advance]
  by_cases hsense : o h t = sense
  · rw [if_pos hsense, if_pos hsense, hdest, hsense]
    rfl
  · rw [if_neg hsense, if_neg hsense, ← Bool.eq_not.mpr hsense]

theorem asks_nothing (target : Label) : Asks [] false target fun _ h => (true, h) :=
  fun _ _ _ _ _ _ => ⟨0, .refl _⟩

theorem implements_branch {o d : Label} {question : Oracle → History → Bool × History}
    (hask : Asks cs false o question) (hyes : Implements x yes run₁)
    (hno : Implements x no run₂) :
    Implements x (cs ++ yes ++ goto d :: label o :: (no ++ [label d])) fun o bound h =>
      match question o h with
      | (true, h) => run₁ o bound h
      | (false, h) => run₂ o bound h := by
  intro oracle whole rest bound h hplaced
  have ho : landing whole o = some (no ++ label d :: rest) := by
    simpa using hplaced (cs ++ yes ++ [goto d]) o (no ++ [label d]) (by simp)
  have hd : landing whole d = some rest :=
    hplaced (cs ++ yes ++ goto d :: label o :: no) d [] (by simp)
  have hyesPlaced := hplaced.left.right
  have hnoPlaced := (hplaced.right.tail.tail).left
  obtain ⟨n, hwalk⟩ := hask oracle whole (yes ++ goto d :: label o :: (no ++ label d :: rest)) _ h ho
  have hcode : cs ++ yes ++ goto d :: label o :: (no ++ [label d]) ++ rest =
      cs ++ (yes ++ goto d :: label o :: (no ++ label d :: rest)) := by simp
  rw [hcode]
  dsimp only
  generalize question oracle h = answer at hwalk ⊢
  obtain ⟨_ | _, h⟩ := answer
  · refine .prepend hwalk ?_
    exact (hno oracle whole _ bound h hnoPlaced).extend fun h => ⟨1, walks_label d rest h⟩
  · refine .prepend hwalk ?_
    have hbranch := hyes oracle whole _ bound h hyesPlaced
    rw [List.cons_append, List.cons_append, List.append_assoc] at hbranch
    exact hbranch.extend fun h => ⟨1, walks_goto hd _ h⟩

theorem implements_when {o : Label} {question : Oracle → History → Bool × History}
    (hask : Asks cs false o question) (hyes : Implements x yes run) :
    Implements x (cs ++ yes ++ [label o]) fun o bound h =>
      match question o h with
      | (true, h) => run o bound h
      | (false, h) => (.finished, h) := by
  intro oracle whole rest bound h hplaced
  have ho : landing whole o = some rest := hplaced (cs ++ yes) o [] rfl
  obtain ⟨n, hwalk⟩ := hask oracle whole (yes ++ label o :: rest) _ h ho
  have hcode : cs ++ yes ++ [label o] ++ rest = cs ++ (yes ++ label o :: rest) := by simp
  rw [hcode]
  dsimp only
  generalize question oracle h = answer at hwalk ⊢
  obtain ⟨_ | _, h⟩ := answer
  · exact .finished hwalk
  · refine .prepend hwalk ?_
    exact (hyes oracle whole _ bound h hplaced.left.right).extend
      fun h => ⟨1, walks_label o rest h⟩

/-! ## Loops -/

/-- The rounds of a loop. `start` is the place in front of its test, `inside` its body and `behind`
what follows the body. -/
theorem follows_rounds {o : Oracle} {whole start inside behind rest : List Chunk} {bound : Nat}
    {leave again : Label} {question : History → Bool × History}
    {body : History → Ending × History} {next : History → History}
    (hask : ∀ h, ∃ n, Walks o whole n (start, h)
      (if (question h).1 = false then rest else inside, (question h).2))
    (hbody : ∀ h, Follows o whole ⟨some leave, some again, none⟩ bound (inside, h) behind (body h))
    (hbehind : ∀ h, ∃ n, Walks o whole (n + 1) (behind, h) (start, next h))
    (hagain : ∀ more h, ∃ n, Walks o whole (n + 1) (goto again :: more, h) (start, next h))
    (hleave : landing whole leave = some rest) :
    ∀ k ≤ bound, ∀ h, Follows o whole x k (start, h) rest (Stmt.rounds question body next k h) := by
  intro k
  -- Each round takes a step at least, which pays for one of the rounds that are left.
  induction k with
  | zero => exact fun _ h => ⟨0, start, .refl _, Nat.le_refl 0⟩
  | succ k ih =>
    intro hk h
    have hround : ∀ {s : Spot} {h : History} {n : Nat}, Walks o whole (n + 1) s (start, next h) →
        Follows o whole x (k + 1) s rest (Stmt.rounds question body next k (next h)) := by
      intro s h n hwalk
      obtain ⟨m, pos, hrest, harrives⟩ := ih (Nat.le_of_succ_le hk) (next h)
      refine ⟨n + 1 + m, pos, hwalk.trans hrest, ?_⟩
      generalize (Stmt.rounds question body next k (next h)).1 = e at harrives
      cases e with
      | cutOff =>
        have hle : k ≤ m := harrives
        show k + 1 ≤ n + 1 + m
        omega
      | _ => exact harrives
    obtain ⟨n, hwalk⟩ := hask h
    rw [Stmt.rounds]
    generalize question h = answer at hwalk ⊢
    obtain ⟨_ | _, h⟩ := answer
    · exact .finished hwalk
    · refine .prepend hwalk ?_
      obtain ⟨m, pos, hinside, harrives⟩ := hbody h
      dsimp only
      generalize body h = r at hinside harrives ⊢
      obtain ⟨e, h⟩ := r
      cases e with
      | finished =>
        obtain rfl : pos = behind := harrives
        obtain ⟨l, hl⟩ := hbehind h
        exact (hround hl).prepend hinside
      | again =>
        obtain ⟨_, more, ⟨⟩, rfl⟩ := harrives
        obtain ⟨l, hl⟩ := hagain more h
        exact (hround hl).prepend hinside
      | left =>
        obtain ⟨_, more, ⟨⟩, rfl⟩ := harrives
        exact .finished (hinside.trans (walks_goto hleave more h))
      | fellThrough =>
        obtain ⟨_, _, hnone, _⟩ := harrives
        cases hnone
      | returned => exact ⟨m, pos, hinside, harrives⟩
      | cutOff => exact ⟨m, pos, hinside, Nat.le_trans hk harrives⟩

/-- A loop whose body is followed by nothing; `continue` goes to its test. -/
theorem implements_while {top done : Label} {body : List Chunk}
    {question : Oracle → History → Bool × History}
    (hask : Asks cs false done question)
    (hbody : Implements ⟨some done, some top, none⟩ body run) :
    Implements x (label top :: (cs ++ body ++ [goto top, label done])) fun o bound =>
      Stmt.rounds (question o) (run o bound) (Stmt.between none) bound := by
  intro o whole rest bound h hplaced
  have htop := hplaced.head
  have hdone : landing whole done = some rest :=
    hplaced (label top :: (cs ++ body ++ [goto top])) done [] (by simp)
  have hcode : cs ++ body ++ [goto top, label done] ++ rest =
      cs ++ (body ++ goto top :: label done :: rest) := by simp
  rw [hcode] at htop
  rw [List.cons_append, hcode]
  refine .prepend (walks_label top _ h) ?_
  have hround : ∀ h, Follows o whole ⟨some done, some top, none⟩ bound
      (body ++ goto top :: label done :: rest, h) (goto top :: label done :: rest) (run o bound h) :=
    fun h => hbody o whole _ bound h hplaced.tail.left.right
  refine follows_rounds ?_ hround ?_ ?_ hdone bound (Nat.le_refl _) h
  · exact fun h => hask o whole _ rest h hdone
  · exact fun h => ⟨0, walks_goto htop _ h⟩
  · exact fun more h => ⟨0, walks_goto htop more h⟩

/-- A loop with a step behind its body; `continue` goes to the step. -/
theorem implements_for (top : Label) {done next : Label} {body step : List Chunk}
    {question : Oracle → History → Bool × History} {between : History → History}
    (hask : Asks cs false done question)
    (hbody : Implements ⟨some done, some next, none⟩ body run)
    (hstep : ∀ {o whole} rest h, ∃ n, Walks o whole n (step ++ rest, h) (rest, between h)) :
    Implements x (label top :: (cs ++ body ++ label next :: (step ++ [goto top, label done])))
      fun o bound => Stmt.rounds (question o) (run o bound) between bound := by
  intro o whole rest bound h hplaced
  have htop := hplaced.head
  have hdone : landing whole done = some rest :=
    hplaced (label top :: (cs ++ body ++ label next :: (step ++ [goto top]))) done [] (by simp)
  have hnext : landing whole next = some (step ++ goto top :: label done :: rest) := by
    simpa using hplaced.tail.right.head
  have hcode : cs ++ body ++ label next :: (step ++ [goto top, label done]) ++ rest =
      cs ++ (body ++ label next :: (step ++ goto top :: label done :: rest)) := by simp
  have hplacedBody : Placed whole body (label next :: (step ++ goto top :: label done :: rest)) := by
    simpa using hplaced.tail.left.right
  rw [hcode] at htop
  rw [List.cons_append, hcode]
  refine .prepend (walks_label top _ h) ?_
  -- From the step the way is back to the test, whether the body ended or was continued.
  have hback : ∀ h, ∃ n, Walks o whole (n + 1) (step ++ goto top :: label done :: rest, h)
      (cs ++ (body ++ label next :: (step ++ goto top :: label done :: rest)), between h) := by
    intro h
    obtain ⟨n, hn⟩ := hstep (goto top :: label done :: rest) h
    exact ⟨n, hn.trans (walks_goto htop _ _)⟩
  have hround : ∀ h, Follows o whole ⟨some done, some next, none⟩ bound
      (body ++ label next :: (step ++ goto top :: label done :: rest), h)
      (label next :: (step ++ goto top :: label done :: rest)) (run o bound h) :=
    fun h => hbody o whole _ bound h hplacedBody
  refine follows_rounds ?_ hround ?_ ?_ hdone bound (Nat.le_refl _) h
  · exact fun h => hask o whole _ rest h hdone
  · intro h
    obtain ⟨n, hn⟩ := hback h
    exact ⟨n + 1, .step rfl hn⟩
  · intro more h
    obtain ⟨n, hn⟩ := hback h
    refine ⟨n + 1, ?_⟩
    have hall := (walks_goto (o := o) hnext more h).trans hn
    rwa [Nat.add_comm] at hall

/-! ## Switches -/

/-- The chunks find the first case that is selected and jump to its label. -/
def Selects (cs : List Chunk) (ls : List Label) (cases : List Case) : Prop :=
  ∀ o whole rest h, (∀ l ∈ ls, ∃ pos, landing whole l = some pos) →
    ∃ n pos, Walks o whole n (cs ++ rest, h) (pos, (Stmt.selectCase o cases h).2) ∧
      match (Stmt.selectCase o cases h).1 with
      | some i => ∃ l, ls[i]? = some l ∧ landing whole l = some pos
      | none => pos = rest

theorem asks_firstEqual_nil (target : Label) :
    Asks [] true target fun o => Stmt.firstEqual o [] := by
  intro o whole rest dest h _
  exact ⟨0, .refl _⟩

theorem asks_firstEqual_cons {e : Expr} {es : List Expr} {target : Label} (code : List Instr)
    (a : Address) (hrest : Asks cs true target fun o => Stmt.firstEqual o es) :
    Asks (test (.candidate e) code a true target :: cs) true target
      fun o => Stmt.firstEqual o (e :: es) := by
  intro o whole rest dest h hdest
  obtain ⟨n, hwalk⟩ := asks_test (.candidate e) code a true target o whole (cs ++ rest) dest h hdest
  simp only [Stmt.firstEqual]
  by_cases hequal : o h (.candidate e) = true
  · simp only [hequal, if_true] at hwalk ⊢
    exact ⟨n, hwalk⟩
  · rw [Bool.not_eq_true] at hequal
    simp only [hequal, Bool.false_eq_true, if_false] at hwalk ⊢
    obtain ⟨k, hk⟩ := hrest o whole rest dest (h.test (.candidate e) false) hdest
    exact ⟨n + k, hwalk.trans hk⟩

theorem selects_nil : Selects [] [] [] :=
  fun _ _ rest _ _ => ⟨0, rest, .refl _, rfl⟩

theorem selects_cons {c : Case} {cases : List Case} {l : Label} {ls : List Label}
    (hfirst : Asks cs true l fun o => Stmt.firstEqual o c.values) (hrest : Selects ds ls cases) :
    Selects (cs ++ ds) (l :: ls) (c :: cases) := by
  intro o whole rest h hls
  obtain ⟨dest, hdest⟩ := hls l List.mem_cons_self
  obtain ⟨n, hwalk⟩ := hfirst o whole (ds ++ rest) dest h hdest
  rw [List.append_assoc]
  dsimp only at hwalk
  rcases hanswer : Stmt.firstEqual o c.values h with ⟨_ | _, h'⟩
  · have hselect : Stmt.selectCase o (c :: cases) h =
        ((Stmt.selectCase o cases h').1.map (· + 1), (Stmt.selectCase o cases h').2) := by
      simp only [Stmt.selectCase, hanswer]
    simp only [hanswer] at hwalk
    obtain ⟨k, pos, hk, hpos⟩ := hrest o whole rest h' fun l hl => hls l (List.mem_cons_of_mem _ hl)
    rw [hselect]
    refine ⟨n + k, pos, hwalk.trans hk, ?_⟩
    cases hindex : (Stmt.selectCase o cases h').1 with
    | none =>
      rw [hindex] at hpos
      exact hpos
    | some i =>
      rw [hindex] at hpos
      exact hpos
  · have hselect : Stmt.selectCase o (c :: cases) h = (some 0, h') := by
      simp only [Stmt.selectCase, hanswer]
    simp only [hanswer] at hwalk
    rw [hselect]
    exact ⟨n, dest, hwalk, l, rfl, hdest⟩

/-- The chunks are the bodies of cases: a walk that enters one of them follows the run of the case,
and is behind the switch when it finishes. -/
def Enters (x : Surroundings) (cs : List Chunk) (done : Label) (ls : List Label)
    (cases : List Case) : Prop :=
  ∀ o whole rest target bound h, Placed whole cs rest → landing whole done = some target →
    ∀ i l, ls[i]? = some l → ∃ pos, landing whole l = some pos ∧
      Follows o whole x bound (pos, h) target (Stmt.execCases o bound cases i h)

theorem enters_nil {done : Label} : Enters x [] done [] [] := by
  intro o whole rest target bound h _ _ i l hl
  cases hl

theorem enters_cons {vs : List Expr} {stmts : List Stmt} {span : Span} {cases : List Case}
    {done l : Label} {ls : List Label} {body : List Chunk}
    (hbody : Implements { x with next := ls.head? } body fun o bound => Stmt.execAll o bound stmts)
    (hrest : Enters x ds done ls cases) :
    Enters x (label l :: (body ++ goto done :: ds)) done (l :: ls)
      (.mk vs stmts span :: cases) := by
  intro o whole rest target bound h hplaced hdone i k hk
  have hdsPlaced : Placed whole ds rest := hplaced.tail.right.tail
  cases i with
  | succ i =>
    obtain ⟨pos, hpos, hfollows⟩ := hrest o whole rest target bound h hdsPlaced hdone i k hk
    exact ⟨pos, hpos, hfollows⟩
  | zero =>
    obtain rfl : l = k := Option.some.inj hk
    refine ⟨_, hplaced.head, ?_⟩
    rw [List.append_assoc]
    obtain ⟨n, pos, hwalk, harrives⟩ := hbody o whole _ bound h hplaced.tail.left
    rw [Stmt.execCases]
    dsimp only at hwalk harrives
    generalize Stmt.execAll o bound stmts h = r at hwalk harrives ⊢
    obtain ⟨e, h⟩ := r
    cases e with
    | finished =>
      obtain rfl := harrives
      exact .finished (hwalk.trans (walks_goto hdone _ h))
    | fellThrough =>
      -- There is a case behind, and its label was the target.
      obtain ⟨next, more, hnext, rfl⟩ := harrives
      have hhead : ls[0]? = some next := by
        rw [← List.head?_eq_getElem?]
        exact hnext
      obtain ⟨pos, hpos, hfollows⟩ := hrest o whole rest target bound h hdsPlaced hdone 0 next hhead
      exact (hfollows.prepend (walks_goto hpos more h)).prepend hwalk
    | _ => exact ⟨n, pos, hwalk, harrives⟩

/-- A switch: `behind` is what is run if no case is selected, and starts at the label `other`. -/
theorem implements_switch {subject : Expr} (code : List Instr) {tests bodies behind : List Chunk}
    {done other : Label} {ls : List Label} {cases : List Case}
    (htests : Selects tests ls cases) (hbodies : Enters x bodies done ls cases)
    (hlabels : ∀ l ∈ ls, label l ∈ bodies)
    (hbehind : ∀ o whole rest bound h, Placed whole behind rest →
      landing whole done = some rest ∧ ∃ pos, landing whole other = some pos ∧
        Follows o whole x bound (pos, h) rest (run o bound h)) :
    Implements x (leaf (.subject subject) code :: (tests ++ goto other :: (bodies ++ behind)))
      fun o bound h =>
        match Stmt.selectCase o cases (h.leaf (.subject subject)) with
        | (some i, h) => Stmt.execCases o bound cases i h
        | (none, h) => run o bound h := by
  intro o whole rest bound h hplaced
  have hbodiesPlaced : Placed whole bodies (behind ++ rest) := hplaced.tail.right.tail.left
  have hbehindPlaced : Placed whole behind rest := hplaced.tail.right.tail.right
  have hcode : leaf (.subject subject) code :: (tests ++ goto other :: (bodies ++ behind)) ++ rest =
      leaf (.subject subject) code :: (tests ++ goto other :: (bodies ++ behind ++ rest)) := by simp
  rw [hcode]
  refine .prepend (walks_leaf _ code _ h) ?_
  have hls : ∀ l ∈ ls, ∃ pos, landing whole l = some pos := by
    intro l hl
    obtain ⟨before, after, heq⟩ := List.append_of_mem (hlabels l hl)
    exact ⟨_, hbodiesPlaced before l after heq⟩
  obtain ⟨n, pos, hwalk, hpos⟩ := htests o whole (goto other :: (bodies ++ behind ++ rest))
    (h.leaf (.subject subject)) hls
  dsimp only
  -- Either the tests fall through to the jump behind them, or they end at the label of a body.
  generalize Stmt.selectCase o cases (h.leaf (.subject subject)) = selected at hwalk hpos ⊢
  obtain ⟨_ | i, h⟩ := selected
  · obtain rfl := hpos
    obtain ⟨_, pos, hother, hfollows⟩ := hbehind o whole rest bound h hbehindPlaced
    exact (hfollows.prepend (walks_goto hother _ h)).prepend hwalk
  · obtain ⟨l, hl, hlanding⟩ := hpos
    have hdone := (hbehind o whole rest bound h hbehindPlaced).1
    obtain ⟨pos', hpos', hfollows⟩ := hbodies o whole _ rest bound h hbodiesPlaced hdone i l hl
    obtain rfl : pos = pos' := Option.some.inj (hlanding.symm.trans hpos')
    exact hfollows.prepend hwalk

end Chunk

end ClassLang
