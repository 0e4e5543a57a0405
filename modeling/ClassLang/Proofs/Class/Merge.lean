import ClassLang.Proofs.Class.Linearization

/-!
# A merge finds an order whenever there is one

A merge takes, again and again, the first head that stands in no tail. It gets stuck only if no
order without repetition keeps all sequences: in such an order one of the heads comes before all
others, and what stands in a tail comes behind the head of that sequence, so this head can be taken.
It is taken from all sequences at once, and what is left of them is kept by the same order. So the
merge goes on until nothing is left.
-/

namespace ClassLang.Linearization

variable {owner c : TypeHash} {seqs : List (List TypeHash)} {out l : List TypeHash}

/-! ## What a step takes -/

/-- The class is the first listed head that stands in no tail. -/
structure IsNext (seqs : List (List TypeHash)) (c : TypeHash) : Prop where
  free : ∀ s ∈ seqs, c ∉ s.tail
  first : ∃ before rest after, seqs = before ++ (c :: rest) :: after ∧
    ∀ d more, d :: more ∈ before → ∃ s ∈ seqs, d ∈ s.tail

theorem inSomeTail_iff : inSomeTail seqs c = true ↔ ∃ s ∈ seqs, c ∈ s.tail := by
  simp [inSomeTail]

theorem nextHead?_eq_some_iff : nextHead? seqs = some c ↔ IsNext seqs c := by
  have hfree : (!inSomeTail seqs c) = true ↔ ∀ s ∈ seqs, c ∉ s.tail := by
    simp [inSomeTail]
  unfold nextHead?
  rw [List.find?_eq_some_iff_append, hfree]
  constructor
  · rintro ⟨htail, as, bs, hheads, has⟩
    refine ⟨htail, ?_⟩
    -- The place of the head among the heads is that of its sequence among the sequences.
    obtain ⟨before, more, rfl, hbefore, hmore⟩ := List.filterMap_eq_append_iff.mp hheads
    obtain ⟨empties, s, after, rfl, hempties, hs, -⟩ := List.filterMap_eq_cons_iff.mp hmore
    cases s with
    | nil => cases hs
    | cons d rest =>
      injection hs with hs
      subst hs
      refine ⟨before ++ empties, rest, after, by simp, fun e tail he => ?_⟩
      rcases List.mem_append.mp he with he | he
      · have hmem : e ∈ as := hbefore ▸ mem_heads.mpr ⟨tail, he⟩
        exact inSomeTail_iff.mp (by simpa using has e hmem)
      · cases hempties _ he
  · rintro ⟨htail, before, rest, after, rfl, hfirst⟩
    refine ⟨htail, heads before, heads after, ?_, fun d hd => ?_⟩
    · simp [heads]
    · obtain ⟨more, hmore⟩ := mem_heads.mp hd
      simpa using inSomeTail_iff.mpr (hfirst d more hmore)

theorem heads_eq_nil_iff : heads seqs = [] ↔ ∀ s ∈ seqs, s = [] := by
  refine ⟨fun h s hs => eq_nil_of_heads_eq_nil h hs, fun h => ?_⟩
  refine List.eq_nil_iff_forall_not_mem.mpr fun d hd => ?_
  obtain ⟨rest, hrest⟩ := mem_heads.mp hd
  cases h _ hrest

theorem nextHead?_eq_none_iff : nextHead? seqs = none ↔ ∀ c, ¬IsNext seqs c := by
  refine ⟨fun h c hc => ?_, fun h => Option.eq_none_iff_forall_ne_some.mpr fun c hc => ?_⟩
  · rw [nextHead?_eq_some_iff.mpr hc] at h
    cases h
  · exact h c (nextHead?_eq_some_iff.mp hc)

/-- What is taken is taken wherever it occurs. -/
theorem dropHead_eq_filter : ∀ {s : List TypeHash}, c ∉ s.tail → dropHead c s = s.filter (· ≠ c)
  | [], _ => rfl
  | d :: rest, h => by
    have hrest : rest.filter (· ≠ c) = rest :=
      List.filter_eq_self.mpr fun e he => decide_eq_true fun heq => h (heq ▸ he)
    rw [dropHead, List.filter_cons, hrest]
    by_cases hd : d = c <;> simp [hd]

/-! ## The run of a merge -/

/-- A merge as it goes, with no bound on its steps. -/
inductive Merging (owner : TypeHash) :
    List (List TypeHash) → Except HierarchyError (List TypeHash) → Prop
  | done {left : List (List TypeHash)} : (∀ s ∈ left, s = []) → Merging owner left (.ok [])
  | stuck {left : List (List TypeHash)} : (∃ s ∈ left, s ≠ []) → (∀ c, ¬IsNext left c) →
      Merging owner left (.error (.inconsistent owner (distinct (heads left))))
  | take {left : List (List TypeHash)} {c : TypeHash} {r : Except HierarchyError (List TypeHash)} :
      IsNext left c → Merging owner (left.map (dropHead c)) r → Merging owner left ((c :: ·) <$> r)

/-- The bound is large enough for the run to end. -/
theorem merging_mergeWithin : ∀ {n : Nat} {seqs : List (List TypeHash)}, remaining seqs < n →
    Merging owner seqs (mergeWithin owner n seqs)
  | n + 1, seqs, hn => by
    unfold mergeWithin
    by_cases hheads : heads seqs = []
    · rw [if_pos hheads]
      exact .done (heads_eq_nil_iff.mp hheads)
    · rw [if_neg hheads]
      cases hnext : nextHead? seqs with
      | none =>
        refine .stuck ?_ (nextHead?_eq_none_iff.mp hnext)
        simpa only [heads_eq_nil_iff, not_forall, exists_prop] using hheads
      | some c =>
        have hlt := remaining_map_dropHead_lt (mem_heads_of_nextHead? hnext)
        exact .take (nextHead?_eq_some_iff.mp hnext) (merging_mergeWithin (by omega))

theorem merging_merge (owner : TypeHash) (seqs : List (List TypeHash)) :
    Merging owner seqs (merge owner seqs) := merging_mergeWithin (Nat.lt_succ_self _)

theorem IsNext.unique {d : TypeHash} (hc : IsNext seqs c) (hd : IsNext seqs d) : c = d :=
  Option.some.inj ((nextHead?_eq_some_iff.mpr hc).symm.trans (nextHead?_eq_some_iff.mpr hd))

theorem IsNext.exists_ne_nil (h : IsNext seqs c) : ∃ s ∈ seqs, s ≠ [] := by
  obtain ⟨before, rest, after, rfl, -⟩ := h.first
  exact ⟨c :: rest, by simp, List.cons_ne_nil _ _⟩

/-- A run has one end. -/
theorem Merging.unique {r r' : Except HierarchyError (List TypeHash)} (h : Merging owner seqs r)
    (h' : Merging owner seqs r') : r = r' := by
  induction h generalizing r' with
  | done hnil =>
    cases h' with
    | done => rfl
    | stuck hleft => exact absurd hnil (by simpa using hleft)
    | take hnext => exact absurd hnil (by simpa using hnext.exists_ne_nil)
  | stuck hleft hnone =>
    cases h' with
    | done hnil => exact absurd hnil (by simpa using hleft)
    | stuck => rfl
    | take hnext => exact absurd hnext (hnone _)
  | take hnext hrest ih =>
    cases h' with
    | done hnil => exact absurd hnil (by simpa using hnext.exists_ne_nil)
    | stuck _ hnone => exact absurd hnext (hnone _)
    | take hnext' hrest' =>
      obtain rfl := hnext.unique hnext'
      rw [ih hrest']

/-! ## What a merge takes -/

/-- What a merge that succeeds says about an order of all classes of the sequences. Each class of
the order was next when those before it had been taken. -/
structure Merged (seqs : List (List TypeHash)) (out : List TypeHash) : Prop where
  nodup : out.Nodup
  covers : ∀ c, c ∈ out ↔ ∃ s ∈ seqs, c ∈ s
  keeps : ∀ s ∈ seqs, s.Sublist out
  next : ∀ before c after, out = before ++ c :: after →
    IsNext (seqs.map fun s => s.filter (· ∉ before)) c

theorem Merging.next {r : Except HierarchyError (List TypeHash)} (h : Merging owner seqs r) :
    ∀ {out}, r = .ok out → ∀ before c after, out = before ++ c :: after →
      IsNext (seqs.map fun s => s.filter (· ∉ before)) c := by
  induction h with
  | done =>
    intro out hout before c after heq
    injection hout with hout
    rw [← hout] at heq
    simp at heq
  | stuck =>
    intro out hout
    cases hout
  | @take seqs c r hnext hrest ih =>
    intro out hout before d after heq
    cases r with
    | error => cases hout
    | ok rest =>
      injection hout with hout
      rw [← hout] at heq
      cases before with
      | nil =>
        obtain ⟨rfl, -⟩ := List.cons.inj heq
        simpa using hnext
      | cons b before =>
        obtain ⟨rfl, hrest⟩ := List.cons.inj heq
        -- The head that was taken is in no tail, so dropping it is filtering it out.
        have hleft : (seqs.map (dropHead c)).map (fun s => s.filter (· ∉ before)) =
            seqs.map fun s => s.filter (· ∉ c :: before) := by
          rw [List.map_map]
          refine List.map_congr_left fun s hs => ?_
          rw [Function.comp_apply, dropHead_eq_filter (hnext.free s hs), List.filter_filter]
          simp [not_or, Bool.and_comm]
        exact hleft ▸ ih rfl before d after hrest

theorem merged_of_merge (h : merge owner seqs = .ok out) : Merged seqs out where
  nodup := nodup_of_merge h
  covers _ := ⟨mem_of_mem_merge h, fun ⟨_, hs, hc⟩ => (sublist_of_merge h hs).subset hc⟩
  keeps _ hs := sublist_of_merge h hs
  next := (merging_merge owner seqs).next h

/-! ## Whether there is an order -/

/-- The order has no repetition and keeps that of all sequences. -/
def Orders (seqs : List (List TypeHash)) (l : List TypeHash) : Prop :=
  l.Nodup ∧ ∀ s ∈ seqs, s.Sublist l

/-- A sequence whose head is not in the first part of the order is kept by the second. -/
theorem sublist_right_of_not_mem {d : TypeHash} {rest as bs : List TypeHash} (hd : d ∉ as)
    (h : (d :: rest).Sublist (as ++ bs)) : (d :: rest).Sublist bs := by
  induction as with
  | nil => exact h
  | cons a as ih =>
    have hne : d ≠ a := fun heq => hd (heq ▸ List.mem_cons_self ..)
    rw [List.cons_append] at h
    cases h with
    | cons _ h => exact ih (fun hmem => hd (List.mem_cons_of_mem _ hmem)) h
    | cons_cons => exact absurd rfl hne

/-- The head that comes first in an order can be taken. -/
theorem Orders.exists_next (h : Orders seqs l) (hleft : ∃ s ∈ seqs, s ≠ []) :
    ∃ c, IsNext seqs c := by
  obtain ⟨hnodup, hkeeps⟩ := h
  obtain ⟨s, hs, hne⟩ := hleft
  obtain ⟨d, rest, rfl⟩ := List.exists_cons_of_ne_nil hne
  have hsome : (l.find? (· ∈ heads seqs)).isSome = true := by
    refine List.find?_isSome.mpr ⟨d, (hkeeps _ hs).subset (List.mem_cons_self ..), ?_⟩
    exact decide_eq_true (mem_heads.mpr ⟨rest, hs⟩)
  obtain ⟨c, hc⟩ := Option.isSome_iff_exists.mp hsome
  obtain ⟨hhead, as, bs, rfl, has⟩ := List.find?_eq_some_iff_append.mp hc
  -- A class in a tail comes behind the head of its sequence, which is not before `c`.
  have hfree : ∀ s ∈ seqs, c ∉ s.tail := by
    intro s hs hmem
    cases s with
    | nil => cases hmem
    | cons e rest =>
      have he : e ∉ as := fun hmem => by simpa [mem_heads.mpr ⟨rest, hs⟩] using has e hmem
      have hbehind := sublist_right_of_not_mem he (hkeeps _ hs)
      have hbs : c ∈ bs := (List.cons_sublist_cons'.mp hbehind).elim
        (fun h => h.subset (List.mem_cons_of_mem _ hmem)) fun h => h.2.subset hmem
      exact (List.nodup_cons.mp (List.nodup_append.mp hnodup).2.1).1 hbs
  have hnext : (nextHead? seqs).isSome = true := by
    refine List.find?_isSome.mpr ⟨c, of_decide_eq_true hhead, ?_⟩
    simpa [inSomeTail] using hfree
  obtain ⟨c, hc⟩ := Option.isSome_iff_exists.mp hnext
  exact ⟨c, nextHead?_eq_some_iff.mp hc⟩

/-- An order of the sequences is an order of what is left of them. -/
theorem Orders.dropHead (h : Orders seqs l) (c : TypeHash) :
    Orders (seqs.map (dropHead c)) l := by
  refine ⟨h.1, fun s hs => ?_⟩
  obtain ⟨t, ht, rfl⟩ := List.mem_map.mp hs
  refine List.Sublist.trans ?_ (h.2 t ht)
  cases t with
  | nil => exact .refl _
  | cons d rest =>
    rw [Linearization.dropHead]
    split
    · exact List.sublist_cons_self ..
    · exact .refl _

theorem Merging.exists_ok {r : Except HierarchyError (List TypeHash)} (h : Merging owner seqs r)
    (hl : Orders seqs l) : ∃ out, r = .ok out := by
  induction h with
  | done => exact ⟨[], rfl⟩
  | stuck hleft hnone =>
    obtain ⟨c, hc⟩ := hl.exists_next hleft
    exact absurd hc (hnone c)
  | take hnext hrest ih =>
    obtain ⟨out, rfl⟩ := ih (hl.dropHead _)
    exact ⟨_, rfl⟩

theorem exists_merge_iff : (∃ out, merge owner seqs = .ok out) ↔ ∃ l, Orders seqs l :=
  ⟨fun ⟨out, h⟩ => ⟨out, nodup_of_merge h, fun _ hs => sublist_of_merge h hs⟩,
    fun ⟨_, hl⟩ => (merging_merge owner seqs).exists_ok hl⟩

/-- A merge ends. It succeeds exactly if the classes can be ordered without repetition as all
sequences have them, and then it gives such an order of exactly these classes, in which each class
is the first head that could be taken when those before it had been. -/
theorem merge_canonical (owner : TypeHash) (seqs : List (List TypeHash)) :
    (∀ r, Merging owner seqs r ↔ merge owner seqs = r) ∧
    ((∃ out, merge owner seqs = .ok out) ↔
      ∃ l : List TypeHash, l.Nodup ∧ ∀ s ∈ seqs, s.Sublist l) ∧
    ∀ out, merge owner seqs = .ok out → Merged seqs out := by
  refine ⟨fun r => ⟨fun h => (merging_merge owner seqs).unique h, ?_⟩, exists_merge_iff, fun out h => ?_⟩
  · rintro rfl
    exact merging_merge owner seqs
  · exact merged_of_merge h

/-- Two classes with three roots, the roots of the second among those of the first: the head of the
second sequence is in a tail until the first root is taken. -/
theorem merge_canonical_roots :
    merge ⟨0⟩ [[⟨4⟩, ⟨1⟩, ⟨2⟩, ⟨3⟩, ⟨9⟩], [⟨5⟩, ⟨2⟩, ⟨3⟩, ⟨9⟩], [], [⟨4⟩, ⟨5⟩]] =
      .ok [⟨4⟩, ⟨1⟩, ⟨5⟩, ⟨2⟩, ⟨3⟩, ⟨9⟩] ∧
    Merged [[⟨4⟩, ⟨1⟩, ⟨2⟩, ⟨3⟩, ⟨9⟩], [⟨5⟩, ⟨2⟩, ⟨3⟩, ⟨9⟩], [], [⟨4⟩, ⟨5⟩]]
      [⟨4⟩, ⟨1⟩, ⟨5⟩, ⟨2⟩, ⟨3⟩, ⟨9⟩] :=
  ⟨rfl, (merge_canonical ⟨0⟩ _).2.2 _ rfl⟩

end ClassLang.Linearization
