import ClassLang.Proofs.Class.Linearization

/-!
# The memo changes no answer

Every class that the memo knows was linearized without an error, and so were its ancestors, which
the memo knows too. So an answer from the memo is the one that is found without it, on the same
path: a class that waits for its bases is not known yet, and no class that is known has it as an
ancestor. Answers that are errors leave the memo in such a state as well. The bound on the recursion
does not matter, since each step down from a class with bases leaves one class less that can be met.
-/

namespace ClassLang

/-- Partners are members of their lists. -/
theorem forall₂_with_mem {α β : Type} {R : α → β → Prop} {as : List α} {bs : List β}
    (h : List.Forall₂ R as bs) : List.Forall₂ (fun a b => a ∈ as ∧ b ∈ bs ∧ R a b) as bs := by
  induction h with
  | nil => exact .nil
  | cons hab _ ih =>
    refine .cons ⟨List.mem_cons_self .., List.mem_cons_self .., hab⟩ (ih.imp fun a b ⟨ha, hb, h⟩ => ?_)
    exact ⟨List.mem_cons_of_mem _ ha, List.mem_cons_of_mem _ hb, h⟩

namespace Linearization

variable {bases : Bases} {visiting : List TypeHash} {memo : Memo} {c a : TypeHash}
  {mro : List TypeHash} {n m : Nat}

/-! ## What the memo knows -/

/-- The memo knows the ancestors of a class, and their linearizations are parts of its own. -/
theorem Consistent.ancestor (h : Consistent bases memo) :
    ∀ {c mro}, memo.find? c = some mro → a ∈ mro → ∃ m, memo.find? a = some m ∧ m.Sublist mro := by
  have hlength : ∀ n c mro, mro.length ≤ n → memo.find? c = some mro → a ∈ mro →
      ∃ m, memo.find? a = some m ∧ m.Sublist mro := by
    intro n
    induction n with
    | zero =>
      intro c mro hn _ ha
      rw [List.length_eq_zero_iff.mp (Nat.le_zero.mp hn)] at ha
      exact absurd ha List.not_mem_nil
    | succ n ih =>
      intro c mro hn hc ha
      obtain ⟨mros, hknows, hext⟩ := h c mro hc
      obtain ⟨rest, rfl, hkeeps, hmem⟩ := extend_spec hknows.length_eq hext
      rcases List.mem_cons.mp ha with rfl | ha
      · exact ⟨_, hc, .refl _⟩
      · rcases hmem a ha with hbase | ⟨m, hm, ham⟩
        · obtain ⟨m, hm, ham⟩ := exists_right_of_forall₂ hknows hbase
          exact ⟨m, ham, (hkeeps m hm).cons c⟩
        · obtain ⟨b, _, hb⟩ := exists_right_of_forall₂ hknows.flip hm
          have hle := (hkeeps m hm).length_le
          rw [List.length_cons] at hn
          obtain ⟨k, hk, hsub⟩ := ih b m (by omega) hb ham
          exact ⟨k, hk, (hsub.trans (hkeeps m hm)).cons c⟩
  intro c mro hc ha
  exact hlength _ c mro (Nat.le_refl _) hc ha

/-- What the memo knows of a class: its linearization begins with it, goes on with parts that the
memo knows of its bases, and the class is in none of these. -/
theorem Consistent.unfold (h : Consistent bases memo) (hc : memo.find? c = some mro) :
    ∃ rest mros, mro = c :: rest ∧ c ∉ rest ∧ Knows memo (directBases bases c) mros ∧
      extend c (directBases bases c) mros = .ok mro ∧ ∀ m ∈ mros, m.Sublist rest := by
  obtain ⟨mros, hknows, hext⟩ := h c mro hc
  obtain ⟨rest, rfl, hkeeps, hmem⟩ := extend_spec hknows.length_eq hext
  refine ⟨rest, mros, rfl, fun hself => ?_, hknows, hext, hkeeps⟩
  -- Otherwise the whole linearization were a part of what is behind its first class.
  have hpart : (c :: rest).Sublist rest := by
    rcases hmem c hself with hbase | ⟨m, hm, hcm⟩
    · obtain ⟨m, hm, hcm⟩ := exists_right_of_forall₂ hknows hbase
      rw [hc] at hcm
      injection hcm with hcm
      exact hcm ▸ hkeeps m hm
    · obtain ⟨b, _, hb⟩ := exists_right_of_forall₂ hknows.flip hm
      obtain ⟨k, hk, hsub⟩ := h.ancestor hb hcm
      rw [hc] at hk
      injection hk with hk
      exact (hk ▸ hsub).trans (hkeeps m hm)
  exact absurd hpart.length_le (by simp)

/-! ## Linearizing without a memo -/

/-- Linearize a class whose descendants on the way here are `visiting`, with nothing remembered. -/
def order (bases : Bases) : Nat → List TypeHash → TypeHash → Except HierarchyError (List TypeHash)
  | 0, _, c => .error (.circular c)
  | bound + 1, visiting, c =>
    if visiting.contains c then .error (.circular c)
    else do
      let mros ← (directBases bases c).mapM (order bases bound (c :: visiting))
      extend c (directBases bases c) mros

theorem mapM_congr {α β ε : Type} {f g : α → Except ε β} {as : List α} (h : ∀ a ∈ as, f a = g a) :
    as.mapM f = as.mapM g := by
  induction as with
  | nil => rfl
  | cons a as ih =>
    obtain ⟨ha, has⟩ := List.forall_mem_cons.mp h
    rw [List.mapM_cons, List.mapM_cons, ha, ih has]

theorem mapM_eq_ok_iff {α β ε : Type} {f : α → Except ε β} {as : List α} {bs : List β} :
    as.mapM f = .ok bs ↔ List.Forall₂ (fun a b => f a = .ok b) as bs := by
  induction as generalizing bs with
  | nil => cases bs <;> simp [pure, Except.pure]
  | cons a as ih =>
    rw [List.mapM_cons]
    cases hfirst : f a with
    | error e => cases bs <;> simp [bind, Except.bind, hfirst]
    | ok b =>
      cases hrest : as.mapM f with
      | error e => cases bs <;> simp [bind, Except.bind, ← ih, hrest, hfirst]
      | ok rest => cases bs <;> simp [bind, Except.bind, pure, Except.pure, ← ih, hrest, hfirst]

theorem exists_of_mapM_eq_error {α β ε : Type} {f : α → Except ε β} {as : List α} {e : ε}
    (h : as.mapM f = .error e) : ∃ a ∈ as, f a = .error e := by
  induction as with
  | nil => cases h
  | cons a as ih =>
    rw [List.mapM_cons] at h
    cases hfirst : f a with
    | error e' =>
      rw [hfirst] at h
      injection h with h
      exact ⟨a, List.mem_cons_self .., h ▸ hfirst⟩
    | ok b =>
      cases hrest : as.mapM f with
      | error e' =>
        rw [hfirst, hrest] at h
        injection h with h
        obtain ⟨d, hd, hfail⟩ := ih (h ▸ hrest)
        exact ⟨d, List.mem_cons_of_mem _ hd, hfail⟩
      | ok rest =>
        rw [hfirst, hrest] at h
        cases h

/-! ## The bound on the recursion -/

/-- How many classes with bases can still be met. -/
def unvisited (bases : Bases) (visiting : List TypeHash) : Nat :=
  (bases.keys.filter (· ∉ visiting)).length

theorem mem_keys_of_mem_directBases {b : TypeHash} (h : b ∈ directBases bases c) :
    c ∈ bases.keys := by
  have hlookup : ∀ es : List (TypeHash × List TypeHash), Table.lookup c es ≠ none →
      c ∈ es.map (·.1) := by
    intro es
    induction es with
    | nil => exact fun h => absurd rfl h
    | cons e es ih =>
      intro hsome
      rw [Table.lookup] at hsome
      by_cases he : e.1 = c
      · exact List.mem_map.mpr ⟨e, List.mem_cons_self .., he⟩
      · rw [if_neg he] at hsome
        exact List.mem_cons_of_mem _ (ih hsome)
  refine hlookup bases.entries fun hnone => ?_
  rw [directBases, Table.find?, hnone] at h
  exact absurd h List.not_mem_nil

/-- A class with bases that is met for the first time leaves one class less. -/
theorem unvisited_cons_lt {b : TypeHash} (hb : b ∈ directBases bases c) (hc : c ∉ visiting) :
    unvisited bases (c :: visiting) < unvisited bases visiting := by
  have hsplit : (bases.keys.filter (· ∉ c :: visiting)) =
      (bases.keys.filter (· ∉ visiting)).filter (· ≠ c) := by
    rw [List.filter_filter]
    exact List.filter_congr fun a _ => by simp [not_or]
  have hmem : c ∈ bases.keys.filter (· ∉ visiting) :=
    List.mem_filter.mpr ⟨mem_keys_of_mem_directBases hb, by simpa using hc⟩
  rw [unvisited, unvisited, hsplit]
  exact List.length_filter_lt_length_iff_exists.mpr ⟨c, hmem, by simp⟩

/-- A larger bound makes no difference. -/
theorem order_eq_of_lt : ∀ {n m : Nat} {visiting : List TypeHash} {c : TypeHash},
    unvisited bases visiting < n → unvisited bases visiting < m →
      order bases n visiting c = order bases m visiting c
  | n + 1, m + 1, visiting, c, hn, hm => by
    rw [order, order]
    by_cases hc : visiting.contains c = true
    · rw [if_pos hc, if_pos hc]
    · have hnew : c ∉ visiting := by simpa using hc
      rw [if_neg hc, if_neg hc, mapM_congr fun b hb => ?_]
      have hlt := unvisited_cons_lt hb hnew
      exact order_eq_of_lt (by omega) (by omega)

/-- What the memo knows is found without it if no ancestor waits for its bases. -/
theorem order_of_knows (h : Consistent bases memo) : ∀ {n : Nat} {visiting : List TypeHash}
    {c : TypeHash} {mro : List TypeHash}, memo.find? c = some mro → (∀ a ∈ mro, a ∉ visiting) →
      mro.length ≤ n → order bases n visiting c = .ok mro
  | n, visiting, c, mro, hc, hwait, hn => by
    obtain ⟨rest, mros, rfl, hself, hknows, hext, hkeeps⟩ := h.unfold hc
    cases n with
    | zero => cases hn
    | succ n =>
      rw [order, if_neg (by simpa using hwait c (List.mem_cons_self ..))]
      have hbases : (directBases bases c).mapM (order bases n (c :: visiting)) = .ok mros := by
        refine mapM_eq_ok_iff.mpr ((forall₂_with_mem hknows).imp fun b m ⟨_, hm, hb⟩ => ?_)
        have hsub := hkeeps m hm
        refine order_of_knows h hb (fun a ha hmem => ?_) ?_
        · rcases List.mem_cons.mp hmem with rfl | hmem
          · exact hself (hsub.subset ha)
          · exact hwait a (List.mem_cons_of_mem _ (hsub.subset ha)) hmem
        · exact Nat.le_trans hsub.length_le (Nat.le_of_succ_le_succ hn)
      rw [hbases]
      exact hext

/-! ## Linearizing with a memo -/

/-- The classes that wait for their bases are not remembered yet. -/
def Waits (visiting : List TypeHash) (memo : Memo) : Prop := ∀ v ∈ visiting, memo.find? v = none

theorem Waits.grows {memo' : Memo} (h : Waits visiting memo)
    (hgrows : Grows bases visiting memo memo') : Waits visiting memo' :=
  fun v hv => hgrows.waits v hv (h v hv)

theorem linearizeEach_eq {step : TypeHash → Memo → Except HierarchyError (List TypeHash) × Memo}
    {f : TypeHash → Except HierarchyError (List TypeHash)} (hstep : Answers bases visiting step)
    {cs : List TypeHash} (heq : ∀ b ∈ cs, ∀ memo, Consistent bases memo → Waits visiting memo →
      (step b memo).1 = f b) (hmemo : Consistent bases memo) (hwait : Waits visiting memo) :
    (linearizeEach step cs memo).1 = cs.mapM f := by
  induction cs generalizing memo with
  | nil => rfl
  | cons b cs ih =>
    obtain ⟨hb, hcs⟩ := List.forall_mem_cons.mp heq
    have hfirst := hb memo hmemo hwait
    obtain ⟨hgrows, -⟩ := hstep b memo
    rw [linearizeEach, List.mapM_cons, ← hfirst]
    rcases hrun : step b memo with ⟨e | mro, memo₁⟩
    · rfl
    · rw [hrun] at hgrows
      have hrest := ih hcs (hgrows.consistent hmemo) (hwait.grows hgrows)
      dsimp only
      rw [← hrest]
      rcases linearizeEach step cs memo₁ with ⟨e | mros, memo₂⟩ <;> rfl

/-- With a memo the answer is the same. -/
theorem linearizeWithin_eq_order : ∀ {n : Nat} {visiting : List TypeHash} {c : TypeHash} {memo : Memo},
    unvisited bases visiting < n → Consistent bases memo → Waits visiting memo →
      (linearizeWithin bases n visiting c memo).1 = order bases n visiting c
  | n + 1, visiting, c, memo, hn, hmemo, hwait => by
    cases hc : memo.find? c with
    | some mro =>
      -- None of the ancestors is waiting: those that wait are not in the memo, the ancestors are.
      have hknown : order bases (n + 1 + mro.length) visiting c = .ok mro := by
        refine order_of_knows hmemo hc (fun a ha hmem => ?_) (Nat.le_add_left ..)
        obtain ⟨m, hm, -⟩ := hmemo.ancestor hc ha
        rw [hwait a hmem] at hm
        cases hm
      rw [order_eq_of_lt hn (by omega : _ < n + 1 + mro.length), hknown, linearizeWithin, hc]
    | none =>
      rw [linearizeWithin, hc, order]
      dsimp only
      by_cases hvisiting : visiting.contains c = true
      · rw [if_pos hvisiting, if_pos hvisiting]
      · have hnew : c ∉ visiting := by simpa using hvisiting
        -- `c` waits while its bases are linearized and is not in the memo either.
        have hbases : (linearizeEach (linearizeWithin bases n (c :: visiting)) (directBases bases c)
            memo).1 = (directBases bases c).mapM (order bases n (c :: visiting)) := by
          refine linearizeEach_eq (linearizeWithin_answers bases n (c :: visiting))
            (fun b hb memo hmemo hwait => ?_) hmemo (List.forall_mem_cons.mpr ⟨hc, hwait⟩)
          have hlt := unvisited_cons_lt hb hnew
          exact linearizeWithin_eq_order (by omega) hmemo hwait
        rw [if_neg hvisiting, if_neg hvisiting, ← hbases]
        rcases linearizeEach (linearizeWithin bases n (c :: visiting)) (directBases bases c) memo
          with ⟨e | mros, memo₁⟩
        · rfl
        · show _ = extend c (directBases bases c) mros
          dsimp only
          cases extend c (directBases bases c) mros <;> rfl

/-- The linearization of a class, with nothing on the way and nothing remembered. -/
def plainOrder (bases : Bases) (c : TypeHash) : Except HierarchyError (List TypeHash) :=
  order bases (bases.entries.length + 2) [] c

theorem unvisited_lt (bases : Bases) (visiting : List TypeHash) :
    unvisited bases visiting < bases.entries.length + 2 := by
  have hle := List.length_filter_le (· ∉ visiting) bases.keys
  rw [Table.keys, List.length_map] at hle
  exact Nat.lt_add_right 1 (Nat.lt_succ_of_le hle)

theorem linearize_eq_plainOrder (hmemo : Consistent bases memo) (c : TypeHash) :
    (linearize bases c memo).1 = plainOrder bases c :=
  linearizeWithin_eq_order (unvisited_lt ..) hmemo fun _ hv => absurd hv List.not_mem_nil

/-! ## Calls that share a memo -/

/-- The answers to several calls, each of which knows what those before it have remembered. -/
def answers (bases : Bases) : List TypeHash → Memo → List (Except HierarchyError (List TypeHash))
  | [], _ => []
  | c :: cs, memo => (linearize bases c memo).1 :: answers bases cs (linearize bases c memo).2

theorem answers_eq (bases : Bases) (calls : List TypeHash) (hmemo : Consistent bases memo) :
    answers bases calls memo = calls.map (plainOrder bases) := by
  induction calls generalizing memo with
  | nil => rfl
  | cons c calls ih =>
    have hnext := (linearize_spec bases c memo).1.consistent hmemo
    rw [answers, List.map_cons, linearize_eq_plainOrder hmemo, ih hnext]

/-- Calls that share a memo are answered as if each were the first one, whether they succeed or
not. -/
theorem memo_transparent (bases : Bases) (calls : List TypeHash) :
    answers bases calls .empty = calls.map fun c => (linearize bases c .empty).1 := by
  rw [answers_eq bases calls (consistent_empty bases)]
  exact List.map_congr_left fun c _ => (linearize_eq_plainOrder (consistent_empty bases) c).symm

/-- Two classes are bases of each other, and a third one has a base that the first call, which
fails, leaves in the memo. -/
example : answers ⟨[(⟨1⟩, [⟨9⟩, ⟨2⟩]), (⟨2⟩, [⟨1⟩]), (⟨3⟩, [⟨9⟩])]⟩ [⟨1⟩, ⟨3⟩, ⟨2⟩, ⟨9⟩] .empty =
    [.error (.circular ⟨1⟩), .ok [⟨3⟩, ⟨9⟩], .error (.circular ⟨2⟩), .ok [⟨9⟩]] := rfl

end Linearization

end ClassLang
