import ClassLang.Proofs.Control.Faithful

/-!
# Paths through the code

The control-flow graph of some code has an edge wherever control may go: a jump on a condition has
both successors, a return has none. A path through the graph need not be that of a run, since the
outcomes of its tests may not go together. But it is that of a walk with an oracle that gives these
outcomes, so what holds for the walks of all oracles holds for all paths.
-/

namespace ClassLang

namespace Machine

/-- The positions that may follow a position of some code. -/
def successors (code : List Instr) : List Instr → List (List Instr)
  | [] | .ret :: _ => []
  | .goto l :: _ => (after? code l).toList
  | .ifTrue _ l :: rest | .ifFalse _ l :: rest => rest :: (after? code l).toList
  | _ :: rest => [rest]

/-- There is a path from one position of the code to another. -/
def HasPath (code : List Instr) : List Instr → List Instr → Prop :=
  Relation.ReflTransGen fun p q => q ∈ successors code p

theorem after?_suffix {code target : List Instr} {l : Label} (h : after? code l = some target) :
    target <:+ code := by
  induction code with
  | nil => cases h
  | cons i code ih =>
    rw [after?] at h
    split at h
    · injection h with h
      exact h ▸ List.suffix_cons i code
    · exact (ih h).trans (List.suffix_cons i code)

/-- Where control goes from an instruction: on, or to the label that it jumps to. -/
theorem mem_successors {code rest p : List Instr} {i : Instr}
    (h : p ∈ successors code (i :: rest)) :
    (i ≠ .ret ∧ (∀ l, i ≠ .goto l) ∧ p = rest) ∨ ∃ l ∈ targets [i], after? code l = some p := by
  have hjump : ∀ l, p ∈ (after? code l).toList → after? code l = some p := by
    intro l hl
    exact Option.mem_toList.mp hl
  cases i with
  | ret => cases h
  | goto l => exact .inr ⟨l, List.mem_singleton_self l, hjump l h⟩
  | ifTrue a l =>
    rcases List.mem_cons.mp h with rfl | h
    · exact .inl ⟨Instr.noConfusion, fun _ => Instr.noConfusion, rfl⟩
    · exact .inr ⟨l, List.mem_singleton_self l, hjump l h⟩
  | ifFalse a l =>
    rcases List.mem_cons.mp h with rfl | h
    · exact .inl ⟨Instr.noConfusion, fun _ => Instr.noConfusion, rfl⟩
    · exact .inr ⟨l, List.mem_singleton_self l, hjump l h⟩
  | _ =>
    obtain rfl := List.mem_singleton.mp h
    exact .inl ⟨Instr.noConfusion, fun _ => Instr.noConfusion, rfl⟩

/-- An instruction in front that does nothing to control does not matter. -/
theorem hasPath_tail {i : Instr} {code : List Instr} (hi : i.isStraight = true)
    (h : HasPath (i :: code) (i :: code) []) : HasPath code code [] := by
  have hafter : ∀ l, after? (i :: code) l = after? code l := by
    intro l
    refine if_neg ?_
    rintro rfl
    cases hi
  have hsame : ∀ p, successors (i :: code) p = successors code p := by
    intro p
    unfold successors
    simp only [hafter]
  unfold HasPath at h ⊢
  simp only [hsame] at h
  rcases Relation.ReflTransGen.cases_head h with heq | ⟨p, hstep, hrest⟩
  · cases heq
  · rcases mem_successors hstep with ⟨_, _, rfl⟩ | ⟨l, hl, _⟩
    · exact hrest
    · cases i <;> first | cases hl; done | cases hi

/-- Code that ends in a return is not left at its end. -/
theorem not_hasPath_nil_of_ret {code : List Instr} (h : code.getLast? = some .ret) :
    ¬ HasPath code code [] := by
  have hstep : ∀ p, HasPath code code p → p <:+ code ∧ p ≠ [] := by
    intro p hpath
    induction hpath with
    | refl =>
      refine ⟨List.suffix_refl code, ?_⟩
      rintro rfl
      cases h
    | @tail p q _ hstep ih =>
      obtain ⟨hsuffix, hne⟩ := ih
      have hlast : ∀ r, r <:+ code → r ≠ [] → r.getLast? = some .ret := by
        rintro r ⟨before, rfl⟩ hr
        rw [List.getLast?_append, List.getLast?_eq_some_getLast hr] at h
        rw [List.getLast?_eq_some_getLast hr]
        exact h
      cases p with
      | nil => exact absurd rfl hne
      | cons i rest =>
        rcases mem_successors hstep with ⟨hret, _, rfl⟩ | ⟨l, _, hl⟩
        · refine ⟨(List.suffix_cons i q).trans hsuffix, ?_⟩
          rintro rfl
          have hi := hlast [i] hsuffix hne
          injection hi with hi
          exact hret hi
        · refine ⟨after?_suffix hl, ?_⟩
          rintro rfl
          -- A label at the very end would be the last instruction.
          have hend : ∀ code : List Instr, after? code l = some [] →
              code.getLast? = some (.label l) := by
            intro code
            induction code with
            | nil => exact fun h => nomatch h
            | cons i code ih =>
              intro h
              rw [after?] at h
              split at h
              · rename_i hi
                injection h with h
                rw [h, hi]
                rfl
              · have hlast := ih h
                rw [List.getLast?_cons, hlast]
                rfl
          rw [hend code hl] at h
          cases h
  intro hpath
  exact (hstep [] hpath).2 rfl

/-- From inside of closed code control goes on inside of it or gets to its end. -/
theorem successors_closed {before inner after q p : List Instr} (hclosed : Closed inner)
    (hnodup : (labels (before ++ inner ++ after)).Nodup) (hq : q <:+ inner) (hne : q ≠ [])
    (hp : p ∈ successors (before ++ inner ++ after) (q ++ after)) :
    ∃ r, r <:+ inner ∧ p = r ++ after := by
  cases q with
  | nil => exact absurd rfl hne
  | cons i q =>
    rw [List.cons_append] at hp
    rcases mem_successors hp with ⟨_, _, rfl⟩ | ⟨l, hl, hafter⟩
    · exact ⟨q, (List.suffix_cons i q).trans hq, rfl⟩
    -- A jump in closed code goes to a label in it, and no label stands twice.
    · have htarget : l ∈ targets inner := by
        obtain ⟨front, rfl⟩ := hq
        rw [targets_append, List.mem_append]
        right
        rw [← List.singleton_append, targets_append, List.mem_append]
        exact .inl hl
      obtain ⟨s, t, rfl⟩ := List.append_of_mem (mem_labels.mp (hclosed.targets l htarget))
      have hs : l ∉ labels (before ++ s) := by
        have hcode : before ++ (s ++ .label l :: t) ++ after =
            before ++ s ++ .label l :: (t ++ after) := by simp
        rw [hcode, labels_append] at hnodup
        intro hmem
        exact (List.nodup_append.mp hnodup).2.2 l hmem l (mem_labels.mpr (by simp)) rfl
      have hfound : after? (before ++ (s ++ .label l :: t) ++ after) l = some (t ++ after) := by
        have hcode : before ++ (s ++ .label l :: t) ++ after =
            before ++ s ++ .label l :: (t ++ after) := by simp
        rw [hcode]
        exact after?_append hs
      rw [hfound] at hafter
      injection hafter with hafter
      exact ⟨t, ⟨s ++ [.label l], by simp⟩, hafter.symm⟩

end Machine

namespace Chunk

/-! ## From paths to walks -/

/-- A walk through the chunks in which each test may go either way. -/
def Passes (whole : List Chunk) : Spot → Spot → Prop :=
  Relation.ReflTransGen fun s t => ∃ o, advance o whole s = some t

/-- The oracle that gives the outcomes that a history has. -/
def replay (h : History) : Oracle := fun past _ =>
  match h[past.length]? with
  | some (.test _ outcome) => outcome
  | _ => true

variable {o : Oracle} {whole : List Chunk} {s t : Spot} {h : History}

theorem replay_eq {past : History} {q : Test} {b : Bool} (hearlier : past.test q b <+: h) :
    replay h past q = b := by
  obtain ⟨more, rfl⟩ := hearlier
  simp [replay, History.test]

theorem advance_replay (hstep : advance o whole s = some t) (hearlier : t.2 <+: h) :
    advance (replay h) whole s = some t := by
  obtain ⟨cs, past⟩ := s
  cases cs with
  | nil => cases hstep
  | cons x rest =>
    cases x with
    | test q code a sense target =>
      rw [advance] at hstep ⊢
      split at hstep
      · obtain ⟨pos, hpos, rfl⟩ := Option.map_eq_some_iff.mp hstep
        rw [if_pos (replay_eq hearlier), hpos]
        rfl
      · injection hstep with hstep
        subst hstep
        have hanswer : replay h past q ≠ sense := by
          rw [replay_eq hearlier]
          cases sense <;> decide
        rw [if_neg hanswer]
    | _ => exact hstep

/-- Every way through the chunks is a walk, for some oracle. -/
theorem walks_of_passes {pos : List Chunk} (hpasses : Passes whole s (pos, h)) :
    ∃ o n, Walks o whole n s (pos, h) := by
  have hreplay : s.2 <+: h ∧ ∃ n, Walks (replay h) whole n s (pos, h) := by
    induction hpasses using Relation.ReflTransGen.head_induction_on with
    | refl => exact ⟨List.prefix_refl h, 0, .refl _⟩
    | head hstep _ ih =>
      obtain ⟨o, hstep⟩ := hstep
      obtain ⟨hearlier, n, hwalk⟩ := ih
      exact ⟨(history_prefix_advance hstep).trans hearlier, n + 1,
        .step (advance_replay hstep hearlier) hwalk⟩
  exact ⟨replay h, hreplay.2⟩

/-! ## From the code to the chunks -/

/-- A position in the code is inside of the first of some chunks. -/
def Within (whole : List Chunk) (p : List Instr) : List Chunk → Prop
  | [] => p = []
  | x :: rest => (x :: rest) <:+ whole ∧
    ∃ q, q <:+ x.code ∧ q ≠ [] ∧ p = q ++ codeOf rest

theorem landing_suffix {cs pos : List Chunk} {l : Label} (hl : landing cs l = some pos) :
    pos <:+ cs := by
  induction cs with
  | nil => cases hl
  | cons x cs ih =>
    cases x with
    | label k =>
      rw [landing] at hl
      split at hl
      · injection hl with hl
        exact hl ▸ List.suffix_cons _ cs
      · exact (ih hl).trans (List.suffix_cons _ cs)
    | _ => exact (ih hl).trans (List.suffix_cons _ cs)

/-- The chunks can be passed up to one that a position in the code is inside of. -/
def LeadsTo (whole : List Chunk) (s : Spot) (p : List Instr) : Prop :=
  ∃ ds h, Passes whole s (ds, h) ∧ Within whole p ds

/-- Only a leaf can be without code, and it is passed. -/
theorem leadsTo_codeOf (cs : List Chunk) (hcs : cs <:+ whole) (h : History) :
    LeadsTo whole (cs, h) (codeOf cs) := by
  induction cs generalizing h with
  | nil => exact ⟨[], h, .refl, rfl⟩
  | cons x rest ih =>
    by_cases hx : x.code = []
    · cases x with
      | leaf l code =>
        have hcode : codeOf (leaf l code :: rest) = codeOf rest := by
          rw [codeOf_cons, hx, List.nil_append]
        obtain ⟨ds, h', hpasses, hwithin⟩ := ih ((List.suffix_cons _ rest).trans hcs) (h.leaf l)
        exact ⟨ds, h', .head ⟨fun _ _ => true, rfl⟩ hpasses, hcode ▸ hwithin⟩
      | test => exact absurd hx (by simp [code])
      | label => cases hx
      | goto => cases hx
      | ret => cases hx
    · exact ⟨x :: rest, h, .refl, hcs, x.code, List.suffix_refl _, hx, codeOf_cons x rest⟩

/-- A step to other chunks is a step to their code. -/
theorem LeadsTo.of_advance {pos : List Chunk} (hpos : pos <:+ whole)
    (hstep : advance o whole s = some (pos, h)) : LeadsTo whole s (codeOf pos) := by
  obtain ⟨ds, h', hpasses, hwithin⟩ := leadsTo_codeOf pos hpos h
  exact ⟨ds, h', .head ⟨o, hstep⟩ hpasses, hwithin⟩

/-- A jump in the code is a jump among the chunks. -/
theorem LeadsTo.of_landing {q : List Instr} {l : Label}
    (htarget : Machine.after? (codeOf whole) l = (landing whole l).map codeOf)
    (hafter : Machine.after? (codeOf whole) l = some q)
    (hstep : advance o whole s = (landing whole l).map (·, h)) : LeadsTo whole s q := by
  rw [htarget] at hafter
  obtain ⟨pos, hpos, rfl⟩ := Option.map_eq_some_iff.mp hafter
  rw [hpos] at hstep
  exact .of_advance (landing_suffix hpos) hstep

/-- The code of the leaf or test is left at its end only. -/
def IsClosed : Chunk → Prop
  | leaf _ code | test _ code _ _ _ => Machine.Closed code
  | _ => True

theorem Compiled.isClosed {f : Option FunctionContext} {x : Chunk} (hx : x.Compiled f) :
    x.IsClosed := by
  cases x with
  | leaf => exact hx.1
  | test => exact hx.1
  | _ => trivial

theorem eq_singleton_of_suffix {α : Type} {r : List α} {a : α} (hr : r <:+ [a]) (hne : r ≠ []) :
    r = [a] := by
  rcases List.suffix_cons_iff.mp hr with hr | hr
  · exact hr
  · exact absurd (List.suffix_nil.mp hr) hne

/-- From inside of a leaf the code goes on in the leaf or behind it. -/
theorem leadsTo_leaf (hnodup : (Machine.labels (codeOf whole)).Nodup) {l : Leaf}
    {code r q : List Instr} {rest : List Chunk} (hsuffix : (leaf l code :: rest) <:+ whole)
    (hclosed : Machine.Closed code) (hr : r <:+ code) (hne : r ≠ [])
    (hq : q ∈ Machine.successors (codeOf whole) (r ++ codeOf rest)) :
    LeadsTo whole (leaf l code :: rest, h) q := by
  obtain ⟨before, hbefore⟩ := hsuffix
  have hcode : codeOf whole = codeOf before ++ code ++ codeOf rest := by
    rw [← hbefore, codeOf_append, codeOf_cons, List.append_assoc]
    rfl
  rw [hcode] at hnodup hq
  obtain ⟨t, ht, rfl⟩ := Machine.successors_closed hclosed hnodup hr hne hq
  by_cases htnil : t = []
  · subst htnil
    have hrest : rest <:+ whole := (List.suffix_cons _ rest).trans ⟨before, hbefore⟩
    exact .of_advance (o := fun _ _ => true) hrest rfl
  · exact ⟨_, h, .refl, ⟨before, hbefore⟩, t, ht, htnil, rfl⟩

/-- From the jump of a test the code goes on behind the test or at its target. -/
theorem leadsTo_testJump {u : Test} {code q : List Instr} {a : Address} {sense : Bool}
    {target : Label} {i : Instr} {rest : List Chunk}
    (hsuffix : (test u code a sense target :: rest) <:+ whole)
    (hi : (if sense then Instr.ifTrue a target else .ifFalse a target) = i)
    (htarget : Machine.after? (codeOf whole) target = (landing whole target).map codeOf)
    (hq : q ∈ Machine.successors (codeOf whole) (i :: codeOf rest)) :
    LeadsTo whole (test u code a sense target :: rest, h) q := by
  rcases Machine.mem_successors hq with ⟨_, _, rfl⟩ | ⟨l, hl, hafter⟩
  · have hstep : advance (fun _ _ => !sense) whole (test u code a sense target :: rest, h) =
        some (rest, h.test u !sense) := if_neg (by simp)
    exact .of_advance ((List.suffix_cons _ rest).trans hsuffix) hstep
  · obtain rfl : l = target := by
      rw [← hi] at hl
      cases sense <;> exact List.mem_singleton.mp hl
    have hstep : advance (fun _ _ => sense) whole (test u code a sense l :: rest, h) =
        (landing whole l).map (·, h.test u sense) := if_pos rfl
    exact .of_landing htarget hafter hstep

/-- From inside of a test the code goes on in the test, behind it or at its target. -/
theorem leadsTo_test (hnodup : (Machine.labels (codeOf whole)).Nodup) {u : Test}
    {code r q : List Instr} {a : Address} {sense : Bool} {target : Label} {rest : List Chunk}
    (hsuffix : (test u code a sense target :: rest) <:+ whole) (hclosed : Machine.Closed code)
    (htarget : Machine.after? (codeOf whole) target = (landing whole target).map codeOf)
    (hr : r <:+ (test u code a sense target).code) (hne : r ≠ [])
    (hq : q ∈ Machine.successors (codeOf whole) (r ++ codeOf rest)) :
    LeadsTo whole (test u code a sense target :: rest, h) q := by
  obtain ⟨r, i, rfl⟩ := (List.eq_nil_or_concat r).resolve_left hne
  obtain ⟨front, hfront⟩ := hr
  rw [List.concat_eq_append] at hfront hq
  rw [← List.append_assoc] at hfront
  obtain ⟨hcode, hi⟩ := List.append_inj' hfront rfl
  injection hi with hi
  by_cases hrnil : r = []
  · subst hrnil
    exact leadsTo_testJump hsuffix hi.symm htarget hq
  · obtain ⟨before, hbefore⟩ := hsuffix
    have hwhole : codeOf whole = codeOf before ++ code ++ (i :: codeOf rest) := by
      rw [← hbefore, codeOf_append, codeOf_cons, Chunk.code, ← hi]
      simp
    have hpos : r ++ [i] ++ codeOf rest = r ++ i :: codeOf rest := by simp
    rw [hwhole] at hnodup hq
    rw [hpos] at hq
    obtain ⟨t, ⟨front', rfl⟩, rfl⟩ :=
      Machine.successors_closed hclosed hnodup ⟨front, hcode⟩ hrnil hq
    refine ⟨_, h, .refl, ⟨before, hbefore⟩, t ++ [i], ?_, by simp, by simp⟩
    exact ⟨front', by rw [Chunk.code, ← hi, List.append_assoc]⟩

/-- An edge in the graph of the code is a way through the chunks. -/
theorem leadsTo_successor (hnodup : (Machine.labels (codeOf whole)).Nodup)
    (hclosed : ∀ x ∈ whole, x.IsClosed)
    (htargets : ∀ l ∈ targets whole,
      Machine.after? (codeOf whole) l = (landing whole l).map codeOf)
    {p q : List Instr} {cs : List Chunk} (hp : Within whole p cs)
    (hq : q ∈ Machine.successors (codeOf whole) p) : LeadsTo whole (cs, h) q := by
  cases cs with
  | nil =>
    obtain rfl : p = [] := hp
    cases hq
  | cons x rest =>
    obtain ⟨hsuffix, r, hr, hne, rfl⟩ := hp
    have hx : x ∈ whole := hsuffix.subset List.mem_cons_self
    -- Labels, jumps and returns are one instruction, so the position is in front of it.
    cases x with
    | leaf l code => exact leadsTo_leaf hnodup hsuffix (hclosed _ hx) hr hne hq
    | test u code a sense target =>
      have htarget : target ∈ targets whole := List.mem_filterMap.mpr ⟨_, hx, rfl⟩
      exact leadsTo_test hnodup hsuffix (hclosed _ hx) (htargets target htarget) hr hne hq
    | label l =>
      obtain rfl := eq_singleton_of_suffix hr hne
      rcases Machine.mem_successors hq with ⟨_, _, rfl⟩ | ⟨k, hk, _⟩
      · exact .of_advance (o := fun _ _ => true) ((List.suffix_cons _ rest).trans hsuffix) rfl
      · cases hk
    | goto l =>
      obtain rfl := eq_singleton_of_suffix hr hne
      rcases Machine.mem_successors hq with ⟨_, hgoto, _⟩ | ⟨k, hk, hafter⟩
      · exact absurd rfl (hgoto l)
      · obtain rfl : k = l := List.mem_singleton.mp hk
        have htarget : k ∈ targets whole := List.mem_filterMap.mpr ⟨_, hx, rfl⟩
        exact .of_landing (o := fun _ _ => true) (htargets k htarget) hafter rfl
    | ret =>
      obtain rfl := eq_singleton_of_suffix hr hne
      cases hq

/-- A path to the end of the code is a walk to the end of the chunks. -/
theorem walks_of_hasPath (hnodup : (Machine.labels (codeOf whole)).Nodup)
    (hclosed : ∀ x ∈ whole, x.IsClosed)
    (htargets : ∀ l ∈ targets whole,
      Machine.after? (codeOf whole) l = (landing whole l).map codeOf)
    (hpath : Machine.HasPath (codeOf whole) (codeOf whole) []) :
    ∃ o n h, Walks o whole n (whole, []) ([], h) := by
  have hpasses : ∀ p, Machine.HasPath (codeOf whole) (codeOf whole) p →
      LeadsTo whole (whole, []) p := by
    intro p hpath
    induction hpath with
    | refl => exact leadsTo_codeOf whole (List.suffix_refl whole) []
    | tail _ hstep ih =>
      obtain ⟨ds, h, hpasses, hwithin⟩ := ih
      obtain ⟨ds', h', hmore, hwithin'⟩ :=
        leadsTo_successor hnodup hclosed htargets hwithin hstep
      exact ⟨ds', h', hpasses.trans hmore, hwithin'⟩
  obtain ⟨ds, h, hpasses, hwithin⟩ := hpasses [] hpath
  cases ds with
  | nil =>
    obtain ⟨o, n, hwalk⟩ := walks_of_passes hpasses
    exact ⟨o, n, h, hwalk⟩
  | cons x rest =>
    obtain ⟨_, q, _, hne, hnil⟩ := hwithin
    exact absurd (List.append_eq_nil_iff.mp hnil.symm).1 hne

end Chunk

end ClassLang
