import ClassLang.Class.Linearization
import Mathlib.Data.List.Forall2

/-!
# What a merge keeps, and what the memo remembers

A merge that succeeds contains every sequence that went into it, in order, and nothing else:
every step takes one class away from the front of the sequences and puts it in front of the
result. So the linearization of a class is longer than that of each of its bases.

The memo only ever grows, and what it remembers about a class is what the class adds to the
linearizations of its bases, which it remembers too. A class that waits for its bases is not
entered before they are done, or it would be its own ancestor.
-/

namespace ClassLang

/-- Each member of the first list has a partner in the second. -/
theorem exists_right_of_forall₂ {α β : Type} {R : α → β → Prop} {as : List α} {bs : List β}
    (h : List.Forall₂ R as bs) {a : α} (ha : a ∈ as) : ∃ b ∈ bs, R a b := by
  induction h with
  | nil => exact absurd ha List.not_mem_nil
  | @cons a' b' _ _ hab _ ih =>
    rcases List.mem_cons.mp ha with rfl | ha
    · exact ⟨b', List.mem_cons_self .., hab⟩
    · obtain ⟨b, hb, hR⟩ := ih ha
      exact ⟨b, List.mem_cons_of_mem _ hb, hR⟩

namespace Linearization

/-! ## Merging -/

theorem mem_heads {seqs : List (List TypeHash)} {c : TypeHash} :
    c ∈ heads seqs ↔ ∃ rest, c :: rest ∈ seqs := by
  simp only [heads, List.mem_filterMap]
  constructor
  · rintro ⟨s, hs, hc⟩
    cases s with
    | nil => simp at hc
    | cons d rest =>
      simp only [List.head?_cons, Option.some.injEq] at hc
      exact ⟨rest, hc ▸ hs⟩
  · rintro ⟨rest, h⟩
    exact ⟨_, h, rfl⟩

theorem eq_nil_of_heads_eq_nil {seqs : List (List TypeHash)} (h : heads seqs = [])
    {s : List TypeHash} (hs : s ∈ seqs) : s = [] := by
  cases s with
  | nil => rfl
  | cons c rest =>
    have hc : c ∈ heads seqs := mem_heads.mpr ⟨rest, hs⟩
    rw [h] at hc
    exact absurd hc (List.not_mem_nil)

theorem mem_heads_of_nextHead? {seqs : List (List TypeHash)} {c : TypeHash}
    (h : nextHead? seqs = some c) : c ∈ heads seqs :=
  List.mem_of_find?_eq_some h

theorem length_dropHead_le (c : TypeHash) (s : List TypeHash) :
    (dropHead c s).length ≤ s.length := by
  cases s with
  | nil => exact Nat.le_refl _
  | cons d rest =>
    rw [dropHead]
    split
    · exact Nat.le_succ _
    · exact Nat.le_refl _

theorem remaining_cons (s : List TypeHash) (seqs : List (List TypeHash)) :
    remaining (s :: seqs) = s.length + remaining seqs := by
  simp [remaining]

theorem remaining_map_dropHead_le (c : TypeHash) (seqs : List (List TypeHash)) :
    remaining (seqs.map (dropHead c)) ≤ remaining seqs := by
  induction seqs with
  | nil => exact Nat.le_refl _
  | cons s seqs ih =>
    rw [List.map_cons, remaining_cons, remaining_cons]
    have := length_dropHead_le c s
    omega

/-- Taking a head away leaves less to merge. -/
theorem remaining_map_dropHead_lt {c : TypeHash} {seqs : List (List TypeHash)}
    (hc : c ∈ heads seqs) : remaining (seqs.map (dropHead c)) < remaining seqs := by
  obtain ⟨rest, hrest⟩ := mem_heads.mp hc
  induction seqs with
  | nil => exact absurd hrest List.not_mem_nil
  | cons s seqs ih =>
    rw [List.map_cons, remaining_cons, remaining_cons]
    rcases List.mem_cons.mp hrest with rfl | hmem
    · have hle := remaining_map_dropHead_le c seqs
      simp only [dropHead, if_true, List.length_cons]
      omega
    · have hlt := ih (mem_heads.mpr ⟨rest, hmem⟩) hmem
      have := length_dropHead_le c s
      omega

/-- A merge that succeeds is over, or takes a head and goes on. -/
theorem mergeWithin_cases {owner : TypeHash} {n : Nat} {seqs : List (List TypeHash)}
    {out : List TypeHash} (hn : remaining seqs < n) (h : mergeWithin owner n seqs = .ok out) :
    (heads seqs = [] ∧ out = []) ∨
    ∃ m c rest, n = m + 1 ∧ nextHead? seqs = some c ∧ out = c :: rest ∧
      remaining (seqs.map (dropHead c)) < m ∧
      mergeWithin owner m (seqs.map (dropHead c)) = .ok rest := by
  cases n with
  | zero => omega
  | succ m =>
    unfold mergeWithin at h
    split at h
    · rename_i hheads
      injection h with h
      exact .inl ⟨hheads, h.symm⟩
    · split at h
      · cases h
      · rename_i c hc
        cases hrest : mergeWithin owner m (seqs.map (dropHead c)) with
        | error e =>
          rw [hrest] at h
          cases h
        | ok rest =>
          rw [hrest] at h
          injection h with h
          have hlt := remaining_map_dropHead_lt (mem_heads_of_nextHead? hc)
          exact .inr ⟨m, c, rest, rfl, hc, h.symm, by omega, hrest⟩

/-- Putting a class in front of what contains the rest of a sequence contains the sequence. -/
theorem sublist_cons_of_dropHead {c : TypeHash} {s out : List TypeHash}
    (h : (dropHead c s).Sublist out) : s.Sublist (c :: out) := by
  cases s with
  | nil => exact List.nil_sublist _
  | cons d rest =>
    rw [dropHead] at h
    split at h
    · rename_i hd
      exact hd ▸ h.cons_cons d
    · exact h.cons c

theorem sublist_of_mergeWithin {owner : TypeHash} :
    ∀ {n : Nat} {seqs : List (List TypeHash)} {out : List TypeHash}, remaining seqs < n →
      mergeWithin owner n seqs = .ok out → ∀ s ∈ seqs, s.Sublist out
  | n, seqs, out, hn, h, s, hs => by
    rcases mergeWithin_cases hn h with ⟨hheads, _⟩ | ⟨m, c, rest, rfl, _, rfl, hm, hrest⟩
    · rw [eq_nil_of_heads_eq_nil hheads hs]
      exact List.nil_sublist _
    · exact sublist_cons_of_dropHead
        (sublist_of_mergeWithin hm hrest _ (List.mem_map_of_mem hs))

theorem mem_of_mem_dropHead {c a : TypeHash} {s : List TypeHash} (h : a ∈ dropHead c s) :
    a ∈ s := by
  cases s with
  | nil => exact h
  | cons d rest =>
    rw [dropHead] at h
    split at h
    · exact List.mem_cons_of_mem _ h
    · exact h

theorem mem_of_mem_mergeWithin {owner : TypeHash} :
    ∀ {n : Nat} {seqs : List (List TypeHash)} {out : List TypeHash}, remaining seqs < n →
      mergeWithin owner n seqs = .ok out → ∀ a ∈ out, ∃ s ∈ seqs, a ∈ s
  | n, seqs, out, hn, h, a, ha => by
    rcases mergeWithin_cases hn h with ⟨_, rfl⟩ | ⟨m, c, rest, rfl, hc, rfl, hm, hrest⟩
    · exact absurd ha List.not_mem_nil
    · rcases List.mem_cons.mp ha with rfl | ha
      · obtain ⟨tail, htail⟩ := mem_heads.mp (mem_heads_of_nextHead? hc)
        exact ⟨_, htail, List.mem_cons_self ..⟩
      · obtain ⟨s, hs, has⟩ := mem_of_mem_mergeWithin hm hrest a ha
        obtain ⟨t, ht, rfl⟩ := List.mem_map.mp hs
        exact ⟨t, ht, mem_of_mem_dropHead has⟩

/-- A merge contains every sequence that went into it. -/
theorem sublist_of_merge {owner : TypeHash} {seqs : List (List TypeHash)} {out : List TypeHash}
    (h : merge owner seqs = .ok out) {s : List TypeHash} (hs : s ∈ seqs) : s.Sublist out :=
  sublist_of_mergeWithin (Nat.lt_succ_self _) h s hs

/-- A merge contains nothing but what went into it. -/
theorem mem_of_mem_merge {owner : TypeHash} {seqs : List (List TypeHash)} {out : List TypeHash}
    (h : merge owner seqs = .ok out) {a : TypeHash} (ha : a ∈ out) : ∃ s ∈ seqs, a ∈ s :=
  mem_of_mem_mergeWithin (Nat.lt_succ_self _) h a ha

/-- What a step takes stands in no tail. -/
theorem not_mem_tail_of_nextHead? {c : TypeHash} {seqs : List (List TypeHash)}
    (hc : nextHead? seqs = some c) {s : List TypeHash} (hs : s ∈ seqs) : c ∉ s.tail := by
  have hnone := List.find?_some hc
  simp only [inSomeTail, Bool.not_eq_true', List.any_eq_false, List.contains_iff_mem] at hnone
  exact hnone s hs

/-- What a step takes is nowhere in what is left. -/
theorem not_mem_of_nextHead? {c : TypeHash} {seqs : List (List TypeHash)}
    (hc : nextHead? seqs = some c) {s : List TypeHash} (hs : s ∈ seqs.map (dropHead c)) :
    c ∉ s := by
  obtain ⟨t, ht, rfl⟩ := List.mem_map.mp hs
  -- Dropping it where it is a head is enough.
  have htail := not_mem_tail_of_nextHead? hc ht
  cases t with
  | nil => exact List.not_mem_nil
  | cons d rest =>
    rw [dropHead]
    split
    · exact htail
    · rename_i hne
      intro hmem
      rcases List.mem_cons.mp hmem with rfl | hmem
      · exact hne rfl
      · exact htail hmem

theorem nodup_of_mergeWithin {owner : TypeHash} :
    ∀ {n : Nat} {seqs : List (List TypeHash)} {out : List TypeHash}, remaining seqs < n →
      mergeWithin owner n seqs = .ok out → out.Nodup
  | n, seqs, out, hn, h => by
    rcases mergeWithin_cases hn h with ⟨_, rfl⟩ | ⟨m, c, rest, rfl, hc, rfl, hm, hrest⟩
    · exact List.nodup_nil
    · refine List.nodup_cons.mpr ⟨?_, nodup_of_mergeWithin hm hrest⟩
      intro hmem
      obtain ⟨s, hs, hcs⟩ := mem_of_mem_mergeWithin hm hrest c hmem
      exact not_mem_of_nextHead? hc hs hcs

/-- A merge contains no class twice. -/
theorem nodup_of_merge {owner : TypeHash} {seqs : List (List TypeHash)} {out : List TypeHash}
    (h : merge owner seqs = .ok out) : out.Nodup :=
  nodup_of_mergeWithin (Nat.lt_succ_self _) h

/-! ## One class in front of its bases -/

/-- A class without bases stands alone, and one with bases in front of a merge of their
linearizations and their list. -/
theorem extend_cases {c : TypeHash} {direct mro : List TypeHash} {mros : List (List TypeHash)}
    (h : extend c direct mros = .ok mro) :
    (direct = [] ∧ mro = [c]) ∨
    ∃ rest, direct ≠ [] ∧ mro = c :: rest ∧ merge c (mros ++ [direct]) = .ok rest := by
  unfold extend at h
  split at h
  · rename_i hdirect
    injection h with h
    exact .inl ⟨hdirect, h.symm⟩
  · rename_i hdirect
    cases hmerge : merge c (mros ++ [direct]) with
    | error e =>
      rw [hmerge] at h
      cases h
    | ok rest =>
      rw [hmerge] at h
      injection h with h
      exact .inr ⟨rest, hdirect, h.symm, rfl⟩

/-- A class comes first in its linearization, behind it come the linearizations of its bases,
and nothing that is neither in one of these nor a base. -/
theorem extend_spec {c : TypeHash} {direct : List TypeHash} {mros : List (List TypeHash)}
    {mro : List TypeHash} (hlen : direct.length = mros.length)
    (h : extend c direct mros = .ok mro) :
    ∃ rest, mro = c :: rest ∧ (∀ m ∈ mros, m.Sublist rest) ∧
      ∀ a ∈ rest, a ∈ direct ∨ ∃ m ∈ mros, a ∈ m := by
  rcases extend_cases h with ⟨rfl, rfl⟩ | ⟨rest, -, rfl, hmerge⟩
  · have hmros : mros = [] := List.length_eq_zero_iff.mp hlen.symm
    refine ⟨[], rfl, ?_, ?_⟩
    · simp [hmros]
    · simp
  · refine ⟨rest, rfl, ?_, ?_⟩
    · intro m hm
      exact sublist_of_merge hmerge (List.mem_append_left _ hm)
    · intro a ha
      obtain ⟨s, hs, has⟩ := mem_of_mem_merge hmerge ha
      rcases List.mem_append.mp hs with hs | hs
      · exact .inr ⟨s, hs, has⟩
      · rw [List.mem_singleton.mp hs] at has
        exact .inl has

/-- The direct bases keep their order. -/
theorem direct_sublist_of_extend {c : TypeHash} {direct mro : List TypeHash}
    {mros : List (List TypeHash)} (h : extend c direct mros = .ok mro) :
    direct.Sublist (mro.drop 1) := by
  rcases extend_cases h with ⟨rfl, rfl⟩ | ⟨rest, -, rfl, hmerge⟩
  · exact List.nil_sublist _
  · exact sublist_of_merge hmerge (by simp)

/-- Behind a class no ancestor comes twice. -/
theorem nodup_of_extend {c : TypeHash} {direct mro : List TypeHash} {mros : List (List TypeHash)}
    (h : extend c direct mros = .ok mro) : (mro.drop 1).Nodup := by
  rcases extend_cases h with ⟨-, rfl⟩ | ⟨rest, -, rfl, hmerge⟩
  · exact List.nodup_nil
  · exact nodup_of_merge hmerge

/-- Behind a class comes its first base. A merge starts with a head, so with a base, and every
base but the first stands in the tail of the list of bases. -/
theorem head?_of_extend {c : TypeHash} {direct mro : List TypeHash} {mros : List (List TypeHash)}
    (hheads : List.Forall₂ (fun b m => m.head? = some b) direct mros)
    (h : extend c direct mros = .ok mro) : mro[1]? = direct.head? := by
  rcases extend_cases h with ⟨rfl, rfl⟩ | ⟨rest, hdirect, rfl, hmerge⟩
  · rfl
  · rcases mergeWithin_cases (Nat.lt_succ_self _) hmerge with
      ⟨hnil, _⟩ | ⟨_, x, more, _, hx, rfl, _⟩
    · exact absurd (eq_nil_of_heads_eq_nil hnil (List.mem_append_right _ (.head _))) hdirect
    · obtain ⟨b, bs, rfl⟩ := List.exists_cons_of_ne_nil hdirect
      -- What is taken first is the head of a list, and all heads are bases.
      have hbase : x ∈ b :: bs := by
        obtain ⟨tail, htail⟩ := mem_heads.mp (mem_heads_of_nextHead? hx)
        rcases List.mem_append.mp htail with hmem | hmem
        · obtain ⟨d, hd, hhead⟩ := exists_right_of_forall₂ hheads.flip hmem
          injection hhead with hhead
          exact hhead ▸ hd
        · rw [← List.mem_singleton.mp hmem]
          exact List.mem_cons_self ..
      -- It is in no tail, so not behind the first base in the list of bases.
      have hfirst : x ∉ bs := not_mem_tail_of_nextHead? hx (List.mem_append_right _ (.head _))
      rcases List.mem_cons.mp hbase with rfl | hlater
      · rfl
      · exact absurd hlater hfirst

/-! ## The memo -/

/-- The memo knows the linearization of each of the given classes. -/
def Knows (memo : Memo) (cs : List TypeHash) (mros : List (List TypeHash)) : Prop :=
  List.Forall₂ (fun c m => memo.find? c = some m) cs mros

/-- What is remembered about a class is what it adds to the linearizations of its bases. -/
def Consistent (bases : Bases) (memo : Memo) : Prop :=
  ∀ c mro, memo.find? c = some mro →
    ∃ mros, Knows memo (directBases bases c) mros ∧ extend c (directBases bases c) mros = .ok mro

/-- How the memo may change while the classes in `visiting` wait for their bases. -/
structure Grows (bases : Bases) (visiting : List TypeHash) (memo memo' : Memo) : Prop where
  consistent : Consistent bases memo → Consistent bases memo'
  keeps : ∀ c mro, memo.find? c = some mro → memo'.find? c = some mro
  waits : ∀ c ∈ visiting, memo.find? c = none → memo'.find? c = none

theorem Grows.refl (bases : Bases) (visiting : List TypeHash) (memo : Memo) :
    Grows bases visiting memo memo := ⟨id, fun _ _ h => h, fun _ _ h => h⟩

theorem Grows.trans {bases : Bases} {visiting : List TypeHash} {m₁ m₂ m₃ : Memo}
    (h₁ : Grows bases visiting m₁ m₂) (h₂ : Grows bases visiting m₂ m₃) :
    Grows bases visiting m₁ m₃ where
  consistent h := h₂.consistent (h₁.consistent h)
  keeps c mro h := h₂.keeps c mro (h₁.keeps c mro h)
  waits c hc h := h₂.waits c hc (h₁.waits c hc h)

/-- What a step says about a class is what it remembers. -/
def Answers (bases : Bases) (visiting : List TypeHash)
    (step : TypeHash → Memo → Except HierarchyError (List TypeHash) × Memo) : Prop :=
  ∀ c memo, Grows bases visiting memo (step c memo).2 ∧
    ∀ mro, (step c memo).1 = .ok mro → (step c memo).2.find? c = some mro

theorem linearizeEach_spec {bases : Bases} {visiting : List TypeHash}
    {step : TypeHash → Memo → Except HierarchyError (List TypeHash) × Memo}
    (hstep : Answers bases visiting step) (cs : List TypeHash) (memo : Memo) :
    Grows bases visiting memo (linearizeEach step cs memo).2 ∧
      ∀ mros, (linearizeEach step cs memo).1 = .ok mros →
        Knows (linearizeEach step cs memo).2 cs mros := by
  induction cs generalizing memo with
  | nil =>
    refine ⟨Grows.refl .., ?_⟩
    intro mros h
    injection h with h
    subst h
    exact List.Forall₂.nil
  | cons c cs ih =>
    obtain ⟨hgrows, hknown⟩ := hstep c memo
    unfold linearizeEach
    rcases hc : step c memo with ⟨e | mro, memo₁⟩
    · rw [hc] at hgrows
      refine ⟨hgrows, ?_⟩
      intro mros h
      cases h
    · rw [hc] at hgrows hknown
      obtain ⟨hgrows', hknows⟩ := ih memo₁
      dsimp only
      rcases hcs : linearizeEach step cs memo₁ with ⟨e | mros, memo₂⟩
      · rw [hcs] at hgrows'
        refine ⟨hgrows.trans hgrows', ?_⟩
        intro mros h
        cases h
      · rw [hcs] at hgrows' hknows
        refine ⟨hgrows.trans hgrows', ?_⟩
        intro mros' h
        injection h with h
        subst h
        -- The later classes only add to the memo, so the first one is still known.
        exact List.Forall₂.cons (hgrows'.keeps _ _ (hknown mro rfl)) (hknows mros rfl)

/-- Entering a class that is not remembered yet, once its bases are. -/
theorem Grows.insert {bases : Bases} {visiting : List TypeHash} {memo : Memo} {c : TypeHash}
    {mro : List TypeHash} {mros : List (List TypeHash)} (hc : memo.find? c = none)
    (hvisiting : c ∉ visiting) (hknows : Knows memo (directBases bases c) mros)
    (hmro : extend c (directBases bases c) mros = .ok mro) :
    Grows bases visiting memo (memo.insert c mro) := by
  have hkeeps : ∀ d m, memo.find? d = some m → (memo.insert c mro).find? d = some m := by
    intro d m hd
    have hne : c ≠ d := by
      rintro rfl
      rw [hc] at hd
      cases hd
    rw [Table.find?_insert_of_ne _ hne]
    exact hd
  refine ⟨?_, hkeeps, ?_⟩
  · intro hcons d m hd
    by_cases hdc : c = d
    · subst hdc
      rw [Table.find?_insert_self] at hd
      injection hd with hd
      subst hd
      exact ⟨mros, List.Forall₂.imp hkeeps hknows, hmro⟩
    · rw [Table.find?_insert_of_ne _ hdc] at hd
      obtain ⟨ns, hns, hext⟩ := hcons d m hd
      exact ⟨ns, List.Forall₂.imp hkeeps hns, hext⟩
  · intro v hv hnone
    have hne : c ≠ v := fun h => hvisiting (h ▸ hv)
    rw [Table.find?_insert_of_ne _ hne]
    exact hnone

theorem linearizeWithin_answers (bases : Bases) :
    ∀ (bound : Nat) (visiting : List TypeHash),
      Answers bases visiting (linearizeWithin bases bound visiting)
  | 0, visiting, c, memo => by
    refine ⟨Grows.refl .., ?_⟩
    intro mro h
    cases h
  | bound + 1, visiting, c, memo => by
    unfold linearizeWithin
    split
    · rename_i done hdone
      refine ⟨Grows.refl .., ?_⟩
      intro mro h
      injection h with h
      exact h ▸ hdone
    · rename_i hnone
      split
      · refine ⟨Grows.refl .., ?_⟩
        intro mro h
        cases h
      · rename_i hvisiting
        have hnot : c ∉ visiting := by simpa using hvisiting
        -- While the bases are linearized, `c` waits with the classes that wait for it.
        obtain ⟨hgrows, hknows⟩ := linearizeEach_spec
          (linearizeWithin_answers bases bound (c :: visiting)) (directBases bases c) memo
        dsimp only
        rcases hbases : linearizeEach (linearizeWithin bases bound (c :: visiting))
          (directBases bases c) memo with ⟨e | mros, memo₁⟩
        all_goals
          rw [hbases] at hgrows hknows
          have hgrows' : Grows bases visiting memo memo₁ :=
            ⟨hgrows.consistent, hgrows.keeps, fun v hv => hgrows.waits v (.tail _ hv)⟩
        · refine ⟨hgrows', ?_⟩
          intro mro h
          cases h
        · dsimp only
          split
          · refine ⟨hgrows', ?_⟩
            intro mro h
            cases h
          · rename_i mro hmro
            have hc : memo₁.find? c = none := hgrows.waits c (.head _) hnone
            refine ⟨hgrows'.trans (.insert hc hnot (hknows mros rfl) hmro), ?_⟩
            intro m h
            injection h with h
            subst h
            exact Table.find?_insert_self ..

/-- Linearizing a class keeps the memo consistent, forgets nothing, and remembers the answer. -/
theorem linearize_spec (bases : Bases) (c : TypeHash) (memo : Memo) :
    Grows bases [] memo (linearize bases c memo).2 ∧
      ∀ mro, (linearize bases c memo).1 = .ok mro →
        (linearize bases c memo).2.find? c = some mro :=
  linearizeWithin_answers bases _ [] c memo

theorem consistent_empty (bases : Bases) : Consistent bases .empty := by
  intro c mro h
  cases h

end Linearization

end ClassLang
