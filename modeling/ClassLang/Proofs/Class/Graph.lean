import ClassLang.Proofs.Class.Memo
import ClassLang.Proofs.Class.Merge
import Mathlib.Logic.Relation

/-!
# Linearizing a graph of classes

The classes and their direct bases are a graph, which may have cycles. Linearizing a class ends in
any case. If it succeeds, the linearization lists the classes that can be reached, the linearization
of each of them is a part of it in the same order, and the class has the longest one; so no class
that can be reached is on a cycle. If it fails, then because of a cycle that can be reached, or of a
class that can be reached and for whose bases there is no order.
-/

namespace ClassLang.Linearization

/-! ## The graph -/

/-- The class has this direct base. -/
def HasBase (bases : Bases) (c b : TypeHash) : Prop := b ∈ directBases bases c

/-- The class is reached from the other by going to direct bases. -/
def Reaches (bases : Bases) : TypeHash → TypeHash → Prop := Relation.ReflTransGen (HasBase bases)

/-- The class is its own proper ancestor. -/
def OnCycle (bases : Bases) (c : TypeHash) : Prop := Relation.TransGen (HasBase bases) c c

/-! ## The recursion -/

/-- An answer that is no error is remembered. -/
def learn (c : TypeHash) : Except HierarchyError (List TypeHash) → Memo → Memo
  | .ok mro, memo => memo.insert c mro
  | .error _, memo => memo

mutual

/-- Linearizing a class as it goes, with no bound on the recursion: from a memo to an answer and the
memo that is left. -/
inductive Runs (bases : Bases) : List TypeHash → TypeHash → Memo →
    Except HierarchyError (List TypeHash) → Memo → Prop
  | remembered {v : List TypeHash} {c : TypeHash} {memo : Memo} {mro : List TypeHash} :
      memo.find? c = some mro → Runs bases v c memo (.ok mro) memo
  | circular {v : List TypeHash} {c : TypeHash} {memo : Memo} :
      memo.find? c = none → c ∈ v → Runs bases v c memo (.error (.circular c)) memo
  | failed {v : List TypeHash} {c : TypeHash} {memo memo' : Memo} {e : HierarchyError} :
      memo.find? c = none → c ∉ v →
      RunsEach bases (c :: v) (directBases bases c) memo (.error e) memo' →
      Runs bases v c memo (.error e) memo'
  | done {v : List TypeHash} {c : TypeHash} {memo memo' : Memo} {mros : List (List TypeHash)} :
      memo.find? c = none → c ∉ v →
      RunsEach bases (c :: v) (directBases bases c) memo (.ok mros) memo' →
      Runs bases v c memo (extend c (directBases bases c) mros)
        (learn c (extend c (directBases bases c) mros) memo')

/-- Several classes, one after another, until one fails. -/
inductive RunsEach (bases : Bases) : List TypeHash → List TypeHash → Memo →
    Except HierarchyError (List (List TypeHash)) → Memo → Prop
  | nil {v : List TypeHash} {memo : Memo} : RunsEach bases v [] memo (.ok []) memo
  | failed {v cs : List TypeHash} {c : TypeHash} {memo memo' : Memo} {e : HierarchyError} :
      Runs bases v c memo (.error e) memo' → RunsEach bases v (c :: cs) memo (.error e) memo'
  | cons {v cs mro : List TypeHash} {c : TypeHash} {memo memo₁ memo' : Memo}
      {r : Except HierarchyError (List (List TypeHash))} : Runs bases v c memo (.ok mro) memo₁ →
      RunsEach bases v cs memo₁ r memo' → RunsEach bases v (c :: cs) memo ((mro :: ·) <$> r) memo'

end

variable {bases : Bases} {visiting : List TypeHash} {memo : Memo} {c a b x : TypeHash}
  {mro : List TypeHash} {n : Nat}

theorem runsEach_linearizeEach {step : TypeHash → Memo → Except HierarchyError (List TypeHash) × Memo}
    {cs : List TypeHash}
    (hstep : ∀ b ∈ cs, ∀ memo, Runs bases visiting b memo (step b memo).1 (step b memo).2)
    (memo : Memo) :
    RunsEach bases visiting cs memo (linearizeEach step cs memo).1 (linearizeEach step cs memo).2 := by
  induction cs generalizing memo with
  | nil => exact .nil
  | cons b cs ih =>
    obtain ⟨hb, hcs⟩ := List.forall_mem_cons.mp hstep
    have hfirst := hb memo
    rw [linearizeEach]
    rcases hrun : step b memo with ⟨e | mro, memo₁⟩
    · rw [hrun] at hfirst
      exact .failed hfirst
    · rw [hrun] at hfirst
      have hrest := ih hcs memo₁
      dsimp only
      rcases hmore : linearizeEach step cs memo₁ with ⟨e | mros, memo₂⟩
      · rw [hmore] at hrest
        exact .cons hfirst hrest
      · rw [hmore] at hrest
        exact .cons hfirst hrest

/-- The bound is not reached. -/
theorem runs_linearizeWithin : ∀ {n : Nat} {visiting : List TypeHash} (c : TypeHash) (memo : Memo),
    unvisited bases visiting < n → Runs bases visiting c memo
      (linearizeWithin bases n visiting c memo).1 (linearizeWithin bases n visiting c memo).2
  | n + 1, visiting, c, memo, hn => by
    rw [linearizeWithin]
    split
    · rename_i mro hc
      exact .remembered hc
    · rename_i hc
      split
      · rename_i hvisiting
        exact .circular hc (by simpa using hvisiting)
      · rename_i hvisiting
        have hnew : c ∉ visiting := by simpa using hvisiting
        -- Fewer classes are left to be visited below `c`, so the smaller bound does.
        have hstep : ∀ b ∈ directBases bases c, ∀ memo, Runs bases (c :: visiting) b memo
            (linearizeWithin bases n (c :: visiting) b memo).1
            (linearizeWithin bases n (c :: visiting) b memo).2 := fun b hb memo => by
          have hfewer := unvisited_cons_lt hb hnew
          exact runs_linearizeWithin b memo (by omega)
        have hbases := runsEach_linearizeEach hstep memo
        dsimp only
        rcases hrun : linearizeEach (linearizeWithin bases n (c :: visiting)) (directBases bases c) memo
          with ⟨e | mros, memo₁⟩
        · rw [hrun] at hbases
          exact .failed hc hnew hbases
        · rw [hrun] at hbases
          have hdone := Runs.done hc hnew hbases
          dsimp only
          split
          · rename_i e he
            rw [he] at hdone
            exact hdone
          · rename_i mro hmro
            rw [hmro] at hdone
            exact hdone

mutual

/-- There is one way to go on. -/
theorem Runs.unique {v : List TypeHash} {c : TypeHash} {memo memo₁ memo₂ : Memo}
    {r r' : Except HierarchyError (List TypeHash)} :
    Runs bases v c memo r memo₁ → Runs bases v c memo r' memo₂ → r = r' ∧ memo₁ = memo₂
  | .remembered hc, h' => by
    cases h' with
    | remembered hc' => exact ⟨congrArg _ (Option.some.inj (hc.symm.trans hc')), rfl⟩
    | circular hnone | failed hnone | done hnone => simp [hc] at hnone
  | .circular hnone hc, h' => by
    cases h' with
    | remembered hc' => simp [hnone] at hc'
    | circular => exact ⟨rfl, rfl⟩
    | failed _ hnew | done _ hnew => exact absurd hc hnew
  -- The bases come before anything that tells the last two rules apart.
  | .failed hnone hnew hbases, h' => by
    cases h' with
    | remembered hc' => simp [hnone] at hc'
    | circular _ hc => exact absurd hc hnew
    | failed _ _ hbases' =>
      obtain ⟨he, rfl⟩ := hbases.unique hbases'
      injection he with he
      exact ⟨congrArg _ he, rfl⟩
    | done _ _ hbases' => cases (hbases.unique hbases').1
  | .done hnone hnew hbases, h' => by
    cases h' with
    | remembered hc' => simp [hnone] at hc'
    | circular _ hc => exact absurd hc hnew
    | failed _ _ hbases' => cases (hbases.unique hbases').1
    | done _ _ hbases' =>
      obtain ⟨hmros, rfl⟩ := hbases.unique hbases'
      injection hmros with hmros
      exact hmros ▸ ⟨rfl, rfl⟩

theorem RunsEach.unique {v cs : List TypeHash} {memo memo₁ memo₂ : Memo}
    {r r' : Except HierarchyError (List (List TypeHash))} :
    RunsEach bases v cs memo r memo₁ → RunsEach bases v cs memo r' memo₂ → r = r' ∧ memo₁ = memo₂
  | .nil, .nil => ⟨rfl, rfl⟩
  | .failed h, .failed h' => by
    obtain ⟨he, rfl⟩ := h.unique h'
    injection he with he
    exact ⟨congrArg _ he, rfl⟩
  | .failed h, .cons h' _ | .cons h _, .failed h' => by cases (h.unique h').1
  | .cons h hs, .cons h' hs' => by
    obtain ⟨hmro, rfl⟩ := h.unique h'
    injection hmro with hmro
    obtain ⟨rfl, rfl⟩ := hs.unique hs'
    exact ⟨by rw [hmro], rfl⟩

end

/-- Linearizing a class ends, and as the bounded recursion does. -/
theorem runs_linearize (bases : Bases) (c : TypeHash) (memo : Memo)
    (r : Except HierarchyError (List TypeHash)) (memo' : Memo) :
    Runs bases [] c memo r memo' ↔ linearize bases c memo = (r, memo') := by
  have hruns : Runs bases [] c memo (linearize bases c memo).1 (linearize bases c memo).2 :=
    runs_linearizeWithin c memo (unvisited_lt ..)
  refine ⟨fun h => Prod.ext (hruns.unique h).1 (hruns.unique h).2, fun h => ?_⟩
  rw [h] at hruns
  exact hruns

/-! ## Answers without a memo -/

/-- How an answer without a memo came about. -/
theorem order_cases (n : Nat) (visiting : List TypeHash) (c : TypeHash) :
    (c ∈ visiting ∧ order bases (n + 1) visiting c = .error (.circular c)) ∨
    (c ∉ visiting ∧ ∃ b ∈ directBases bases c, ∃ e, order bases n (c :: visiting) b = .error e ∧
      order bases (n + 1) visiting c = .error e) ∨
    (c ∉ visiting ∧ ∃ mros, List.Forall₂ (fun b m => order bases n (c :: visiting) b = .ok m)
      (directBases bases c) mros ∧
        order bases (n + 1) visiting c = extend c (directBases bases c) mros) := by
  rw [order]
  by_cases hc : c ∈ visiting
  · exact .inl ⟨hc, if_pos (by simpa using hc)⟩
  · rw [if_neg (by simpa using hc)]
    cases hbases : (directBases bases c).mapM (order bases n (c :: visiting)) with
    | error e =>
      obtain ⟨b, hb, hfail⟩ := exists_of_mapM_eq_error hbases
      exact .inr (.inl ⟨hc, b, hb, e, hfail, rfl⟩)
    | ok mros => exact .inr (.inr ⟨hc, mros, mapM_eq_ok_iff.mp hbases, rfl⟩)

/-- What succeeds on some way succeeds on its own. -/
theorem order_of_subset : ∀ {n : Nat} {visiting visiting' : List TypeHash} {c : TypeHash}
    {mro : List TypeHash}, order bases n visiting c = .ok mro → visiting' ⊆ visiting →
      order bases n visiting' c = .ok mro
  | n + 1, visiting, visiting', c, mro, h, hsub => by
    rcases order_cases n visiting c with ⟨_, hfail⟩ | ⟨_, _, _, _, _, hfail⟩ | ⟨hc, mros, hbases, hmerge⟩
    · rw [hfail] at h
      cases h
    · rw [hfail] at h
      cases h
    · have hnew : c ∉ visiting' := fun hmem => hc (hsub hmem)
      have hbases' : (directBases bases c).mapM (order bases n (c :: visiting')) = .ok mros :=
        mapM_eq_ok_iff.mpr (hbases.imp fun _ _ hm => order_of_subset hm (List.cons_subset_cons c hsub))
      rw [order, if_neg (by simpa using hnew), hbases']
      exact hmerge.symm.trans h

theorem plainOrder_of_order (hn : unvisited bases visiting < n)
    (h : order bases n visiting c = .ok mro) : plainOrder bases c = .ok mro := by
  rw [order_eq_of_lt hn (unvisited_lt ..)] at h
  exact order_of_subset h (List.nil_subset _)

/-! ## Errors -/

theorem Merging.error {owner : TypeHash} {seqs : List (List TypeHash)}
    {r : Except HierarchyError (List TypeHash)} (h : Merging owner seqs r) :
    ∀ {e}, r = .error e → ∃ left, e = .inconsistent owner left := by
  induction h with
  | done => intro e he; cases he
  | stuck =>
    intro e he
    injection he with he
    exact ⟨_, he.symm⟩
  | @take _ _ r _ _ ih =>
    intro e he
    cases r with
    | ok => cases he
    | error =>
      injection he with he
      exact ih (congrArg _ he)

theorem extend_error {direct : List TypeHash} {mros : List (List TypeHash)} {e : HierarchyError}
    (h : extend c direct mros = .error e) :
    ∃ left, e = .inconsistent c left ∧ merge c (mros ++ [direct]) = .error e := by
  unfold extend at h
  split at h
  · cases h
  · cases hmerge : merge c (mros ++ [direct]) with
    | ok rest =>
      rw [hmerge] at h
      cases h
    | error e' =>
      rw [hmerge] at h
      injection h with h
      have hrun := merging_merge c (mros ++ [direct])
      rw [hmerge] at hrun
      obtain ⟨left, rfl⟩ := hrun.error rfl
      exact ⟨left, h.symm, congrArg _ h⟩

/-- A class that is met again is waiting, or it is on a cycle. -/
theorem order_circular : ∀ {n : Nat} {visiting : List TypeHash} {c : TypeHash},
    unvisited bases visiting < n → order bases n visiting c = .error (.circular x) →
      Reaches bases c x ∧ (x ∈ visiting ∨ OnCycle bases x)
  | n + 1, visiting, c, hn, h => by
    rcases order_cases n visiting c with ⟨hc, hself⟩ | ⟨hnew, b, hb, e, hbase, hfail⟩ |
      ⟨_, mros, _, hmerge⟩
    · rw [hself] at h
      injection h with h
      injection h with h
      exact h ▸ ⟨.refl, .inl hc⟩
    · rw [hfail] at h
      injection h with h
      have hlt := unvisited_cons_lt hb hnew
      obtain ⟨hreach, hx⟩ := order_circular (by omega) (h ▸ hbase)
      refine ⟨.head hb hreach, ?_⟩
      rcases hx with hx | hx
      · rcases List.mem_cons.mp hx with rfl | hx
        · exact .inr (.head' hb hreach)
        · exact .inl hx
      · exact .inr hx
    · rw [hmerge] at h
      obtain ⟨left, heq, -⟩ := extend_error h
      cases heq

/-- The bases of a class for which the merge got stuck can be linearized. -/
theorem order_inconsistent {left : List TypeHash} : ∀ {n : Nat} {visiting : List TypeHash} {c : TypeHash},
    unvisited bases visiting < n → order bases n visiting c = .error (.inconsistent x left) →
      Reaches bases c x ∧ ∃ mros,
        List.Forall₂ (fun b m => plainOrder bases b = .ok m) (directBases bases x) mros ∧
        merge x (mros ++ [directBases bases x]) = .error (.inconsistent x left)
  | n + 1, visiting, c, hn, h => by
    rcases order_cases n visiting c with ⟨hc, hself⟩ | ⟨hnew, b, hb, e, hbase, hfail⟩ |
      ⟨hnew, mros, hmros, hmerge⟩
    · rw [hself] at h
      injection h with h
      cases h
    · rw [hfail] at h
      injection h with h
      have hlt := unvisited_cons_lt hb hnew
      obtain ⟨hreach, hx⟩ := order_inconsistent (by omega) (h ▸ hbase)
      exact ⟨.head hb hreach, hx⟩
    · rw [hmerge] at h
      obtain ⟨left', heq, hstuck⟩ := extend_error h
      injection heq with hx hleft
      subst hx
      refine ⟨.refl, mros, (forall₂_with_mem hmros).imp fun b m ⟨hb, _, hm⟩ => ?_, hstuck⟩
      have hlt := unvisited_cons_lt hb hnew
      exact plainOrder_of_order (by omega) hm

/-! ## Linearizations -/

theorem plainOrder_of_knows (h : Consistent bases memo) (hc : memo.find? c = some mro) :
    plainOrder bases c = .ok mro := by
  rw [← linearize_eq_plainOrder h c, linearize, linearizeWithin, hc]

/-- What holds of every known class if it holds of a class whenever it holds of its bases. -/
theorem Consistent.induction {P : TypeHash → List TypeHash → Prop} (h : Consistent bases memo)
    (step : ∀ {c rest mros}, memo.find? c = some (c :: rest) → c ∉ rest →
      Knows memo (directBases bases c) mros →
      extend c (directBases bases c) mros = .ok (c :: rest) → (∀ m ∈ mros, m.Sublist rest) →
      List.Forall₂ P (directBases bases c) mros → P c (c :: rest)) :
    ∀ {c mro}, memo.find? c = some mro → P c mro := by
  have hlength : ∀ n c mro, mro.length ≤ n → memo.find? c = some mro → P c mro := by
    intro n
    induction n with
    | zero =>
      intro c mro hn hc
      obtain ⟨rest, _, rfl, _⟩ := h.unfold hc
      cases hn
    | succ n ih =>
      intro c mro hn hc
      obtain ⟨rest, mros, rfl, hself, hknows, hext, hkeeps⟩ := h.unfold hc
      refine step hc hself hknows hext hkeeps ?_
      refine (forall₂_with_mem hknows).imp fun b m ⟨_, hm, hb⟩ => ih b m ?_ hb
      exact Nat.le_trans (hkeeps m hm).length_le (Nat.le_of_succ_le_succ hn)
  intro c mro hc
  exact hlength _ c mro (Nat.le_refl _) hc

/-- What is in a linearization can be reached, and the other way round. -/
theorem Consistent.mem_iff (h : Consistent bases memo) :
    ∀ {c mro}, memo.find? c = some mro → (a ∈ mro ↔ Reaches bases c a) := by
  refine h.induction (P := fun c mro => a ∈ mro ↔ Reaches bases c a) ?_
  intro c rest mros hc _ hknows hext hkeeps ih
  obtain ⟨_, heq, _, hmem⟩ := extend_spec hknows.length_eq hext
  obtain ⟨-, rfl⟩ := List.cons.inj heq
  constructor
  · intro ha
    rcases List.mem_cons.mp ha with rfl | ha
    · exact .refl
    · rcases hmem a ha with hb | ⟨m, hm, ham⟩
      · exact .single hb
      · obtain ⟨b, hb, hiff⟩ := exists_right_of_forall₂ ih.flip hm
        exact .head hb (hiff.mp ham)
  · intro ha
    rcases Relation.ReflTransGen.cases_head ha with rfl | ⟨b, hb, hba⟩
    · exact List.mem_cons_self ..
    · obtain ⟨m, hm, hiff⟩ := exists_right_of_forall₂ ih hb
      exact List.mem_cons_of_mem _ ((hkeeps m hm).subset (hiff.mpr hba))

/-- What a linearization of a class is. -/
structure IsLinearization (bases : Bases) (c : TypeHash) (mro : List TypeHash) : Prop where
  head : mro.head? = some c
  nodup : mro.Nodup
  mem : ∀ a, a ∈ mro ↔ Reaches bases c a
  direct : (directBases bases c).Sublist mro
  primary : mro[1]? = (directBases bases c).head?
  ancestors : ∀ b ∈ mro, ∃ m, (linearize bases b .empty).1 = .ok m ∧ m.Sublist mro ∧
    (b ≠ c → m.length < mro.length)

theorem head?_of_knows (h : Consistent bases memo) (hc : memo.find? c = some mro) :
    mro.head? = some c := by
  obtain ⟨rest, _, rfl, _⟩ := h.unfold hc
  rfl

theorem isLinearization_of_knows (h : Consistent bases memo) (hc : memo.find? c = some mro) :
    IsLinearization bases c mro := by
  obtain ⟨rest, mros, rfl, hself, hknows, hext, hkeeps⟩ := h.unfold hc
  refine ⟨rfl, List.nodup_cons.mpr ⟨hself, nodup_of_extend hext⟩, fun a => h.mem_iff hc,
    (direct_sublist_of_extend hext).cons c, head?_of_extend ?_ hext, fun b hb => ?_⟩
  · exact hknows.imp fun b m hm => head?_of_knows h hm
  · obtain ⟨m, hm, hsub⟩ := h.ancestor hc hb
    refine ⟨m, (linearize_eq_plainOrder (consistent_empty bases) b).trans (plainOrder_of_knows h hm),
      hsub, fun hne => Nat.lt_of_le_of_ne hsub.length_le fun heq => hne ?_⟩
    -- A part that is as long is the whole, so it begins with the same class.
    have hhead := head?_of_knows h hm
    rw [hsub.eq_of_length heq] at hhead
    exact (Option.some.inj hhead).symm

/-- Known classes are on no cycle, since bases have the shorter linearizations. -/
theorem not_onCycle_of_knows (h : Consistent bases memo) (hc : memo.find? c = some mro) :
    ¬OnCycle bases c := by
  have hshorter : ∀ {a b}, Relation.TransGen (HasBase bases) a b → ∀ {m}, memo.find? a = some m →
      ∃ k, memo.find? b = some k ∧ k.length < m.length := by
    intro a b hab
    have hbase : ∀ {a b m}, HasBase bases a b → memo.find? a = some m →
        ∃ k, memo.find? b = some k ∧ k.length < m.length := by
      intro a b m hb ha
      obtain ⟨rest, mros, rfl, _, hknows, _, hkeeps⟩ := h.unfold ha
      obtain ⟨k, hk, hbk⟩ := exists_right_of_forall₂ hknows hb
      exact ⟨k, hbk, Nat.lt_succ_of_le (hkeeps k hk).length_le⟩
    induction hab with
    | single hb => exact hbase hb
    | tail _ hb ih =>
      intro m ha
      obtain ⟨k, hk, hlt⟩ := ih ha
      obtain ⟨l, hl, hlt'⟩ := hbase hb hk
      exact ⟨l, hl, Nat.lt_trans hlt' hlt⟩
  intro hcycle
  obtain ⟨k, hk, hlt⟩ := hshorter hcycle hc
  rw [hc] at hk
  injection hk with hk
  exact absurd hlt (hk ▸ Nat.lt_irrefl _)

/-- Linearizing a class ends. If it succeeds, then with a linearization of the class; no class that
can be reached is on a cycle then. If it fails, then with a class that can be reached and is on a
cycle, or with one whose bases, with their linearizations, have no common order. -/
theorem linearize_faithful (bases : Bases) (c : TypeHash) :
    (∀ r memo, Runs bases [] c .empty r memo ↔ linearize bases c .empty = (r, memo)) ∧
    (∀ mro, (linearize bases c .empty).1 = .ok mro → IsLinearization bases c mro) ∧
    (∀ a, Reaches bases c a → OnCycle bases a → ∃ e, (linearize bases c .empty).1 = .error e) ∧
    (∀ x, (linearize bases c .empty).1 = .error (.circular x) →
      Reaches bases c x ∧ OnCycle bases x) ∧
    ∀ x left, (linearize bases c .empty).1 = .error (.inconsistent x left) → Reaches bases c x ∧
      ∃ mros, List.Forall₂ (fun b m => (linearize bases b .empty).1 = .ok m) (directBases bases x) mros ∧
        ¬∃ l : List TypeHash, l.Nodup ∧ ∀ s ∈ mros ++ [directBases bases x], s.Sublist l := by
  have hplain := linearize_eq_plainOrder (consistent_empty bases)
  have hknown := linearize_spec bases c .empty
  have hmemo := hknown.1.consistent (consistent_empty bases)
  refine ⟨runs_linearize bases c .empty, fun mro h => ?_, fun a ha hcycle => ?_, fun x h => ?_,
    fun x left h => ?_⟩
  · exact isLinearization_of_knows hmemo (hknown.2 mro h)
  · cases hr : (linearize bases c .empty).1 with
    | error e => exact ⟨e, rfl⟩
    | ok mro =>
      have hc := hknown.2 mro hr
      -- Every ancestor has a linearization by then, which no class on a cycle has.
      obtain ⟨m, hm, -⟩ := hmemo.ancestor hc ((hmemo.mem_iff hc).mpr ha)
      exact absurd hcycle (not_onCycle_of_knows hmemo hm)
  · rw [hplain] at h
    obtain ⟨hreach, hx⟩ := order_circular (unvisited_lt ..) h
    exact ⟨hreach, hx.resolve_left List.not_mem_nil⟩
  · rw [hplain] at h
    obtain ⟨hreach, mros, hmros, hstuck⟩ := order_inconsistent (unvisited_lt ..) h
    refine ⟨hreach, mros, hmros.imp fun b m hm => (hplain b).trans hm, fun hl => ?_⟩
    -- A common order would have let the merge go on.
    obtain ⟨out, hout⟩ := exists_merge_iff.mpr hl
    rw [hstuck] at hout
    cases hout

/-- `⟨4⟩` has the two bases `⟨2⟩` and `⟨3⟩` with the base `⟨1⟩`, `⟨9⟩` has them the other way round,
and both are bases of `⟨10⟩`. `⟨7⟩` has a base on a cycle. -/
def sampleGraph : Bases :=
  ⟨[(⟨2⟩, [⟨1⟩]), (⟨3⟩, [⟨1⟩]), (⟨4⟩, [⟨2⟩, ⟨3⟩]), (⟨5⟩, [⟨6⟩]), (⟨6⟩, [⟨5⟩]), (⟨7⟩, [⟨1⟩, ⟨6⟩]),
    (⟨9⟩, [⟨3⟩, ⟨2⟩]), (⟨10⟩, [⟨4⟩, ⟨9⟩])]⟩

theorem linearize_faithful_sampleGraph :
    (linearize sampleGraph ⟨4⟩ .empty).1 = .ok [⟨4⟩, ⟨2⟩, ⟨3⟩, ⟨1⟩] ∧
    IsLinearization sampleGraph ⟨4⟩ [⟨4⟩, ⟨2⟩, ⟨3⟩, ⟨1⟩] ∧
    (linearize sampleGraph ⟨7⟩ .empty).1 = .error (.circular ⟨6⟩) ∧
    Reaches sampleGraph ⟨7⟩ ⟨6⟩ ∧ OnCycle sampleGraph ⟨6⟩ ∧
    (linearize sampleGraph ⟨10⟩ .empty).1 = .error (.inconsistent ⟨10⟩ [⟨2⟩, ⟨3⟩]) ∧
    ∃ mros, List.Forall₂ (fun b m => (linearize sampleGraph b .empty).1 = .ok m) [⟨4⟩, ⟨9⟩] mros ∧
      ¬∃ l : List TypeHash, l.Nodup ∧ ∀ s ∈ mros ++ [[⟨4⟩, ⟨9⟩]], s.Sublist l := by
  obtain ⟨-, hdiamond, -, -, -⟩ := linearize_faithful sampleGraph ⟨4⟩
  obtain ⟨-, -, -, hcycle, -⟩ := linearize_faithful sampleGraph ⟨7⟩
  obtain ⟨-, -, -, -, hstuck⟩ := linearize_faithful sampleGraph ⟨10⟩
  obtain ⟨hreach, honcycle⟩ := hcycle ⟨6⟩ rfl
  exact ⟨rfl, hdiamond _ rfl, rfl, hreach, honcycle, rfl, (hstuck ⟨10⟩ [⟨2⟩, ⟨3⟩] rfl).2⟩

end ClassLang.Linearization
