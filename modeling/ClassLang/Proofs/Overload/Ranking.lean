import ClassLang.Proofs.Lowering.Overload
import Mathlib.Algebra.GroupWithZero.Nat
import Mathlib.Data.List.Forall2
import Mathlib.Data.List.Induction
import Mathlib.Data.List.Nodup

/-!
# The best candidate of a call

A candidate is kept unless an earlier one has its parameter list, and what is kept has different
parameter lists. Of the ways in which candidates accept the arguments the cheaper is better, and of
equally cheap ones the one with more exact conversions. A call is resolved exactly when one kept
candidate accepts the arguments better than every other that accepts them. This mentions the kept
candidates that accept the arguments and nothing else; so it does not matter in which order
candidates come, as long as those with the same parameter list stay in order, nor whether there are
others that do not accept the arguments.
-/

namespace ClassLang.Overload

variable {κ : Type} {r : Registry} {args : List Ty} {name : String} {span : Span}
  {c d : Candidate κ} {cs cs' : List (Candidate κ)} {f g : Fit κ}

/-! ## Accepting the arguments -/

/-- The candidate accepts the arguments: it has a parameter for each of them to which it converts.
The costs are added up, as far as costs go. -/
structure Accepts (r : Registry) (args : List Ty) (c : Candidate κ) (f : Fit κ) : Prop where
  key : f.key = c.key
  params : f.params = c.params
  arity : c.params.length = args.length
  conversions : List.Forall₂ (fun pair v => r.conversion? pair.1 pair.2 = some v)
    (args.zip c.params) f.conversions
  cost : f.cost = min (f.conversions.map (·.cost)).sum costLimit

theorem totalCost_eq (vs : List Conversion) :
    totalCost vs = min (vs.map (·.cost)).sum costLimit := by
  have hfrom : ∀ start, vs.foldl (fun sum v => min (sum + v.cost) costLimit) (min start costLimit) =
      min (start + (vs.map (·.cost)).sum) costLimit := by
    induction vs with
    | nil => exact fun start => rfl
    | cons v vs ih =>
      intro start
      have hstep : min (min start costLimit + v.cost) costLimit = min (start + v.cost) costLimit := by
        omega
      rw [List.foldl_cons, hstep, ih, List.map_cons, List.sum_cons, Nat.add_assoc]
  have hzero := hfrom 0
  rwa [Nat.zero_add, Nat.min_eq_left (Nat.zero_le _)] at hzero

theorem conversions?_eq_some_iff : ∀ {args params : List Ty} {vs : List Conversion},
    conversions? r args params = some vs ↔
      List.Forall₂ (fun pair v => r.conversion? pair.1 pair.2 = some v) (args.zip params) vs
  | [], params, vs => by simp [conversions?, eq_comm]
  | a :: args, [], vs => by simp [conversions?, eq_comm]
  | a :: args, p :: params, vs => by
    simp only [conversions?, Option.bind_eq_bind, Option.bind_eq_some_iff, Option.pure_def,
      Option.some.injEq, List.zip_cons_cons, List.forall₂_cons_left_iff,
      conversions?_eq_some_iff]
    constructor
    · rintro ⟨v, hv, vs, hvs, rfl⟩
      exact ⟨v, vs, hv, hvs, rfl⟩
    · rintro ⟨v, vs, hv, hvs, rfl⟩
      exact ⟨v, hv, vs, hvs, rfl⟩

theorem fit?_eq_some_iff : fit? r args c = some f ↔ Accepts r args c f := by
  unfold fit?
  constructor
  · intro h
    split at h
    · rename_i harity
      obtain ⟨vs, hvs, rfl⟩ := Option.map_eq_some_iff.mp h
      exact ⟨rfl, rfl, harity, conversions?_eq_some_iff.mp hvs, totalCost_eq vs⟩
    · cases h
  · rintro ⟨hkey, hparams, harity, hvs, hcost⟩
    rw [if_pos harity, conversions?_eq_some_iff.mpr hvs, Option.map_some, ← hkey, ← hparams,
      totalCost_eq, ← hcost]

/-- The candidates that accept the arguments. -/
def accepting (r : Registry) (args : List Ty) (cs : List (Candidate κ)) : List (Candidate κ) :=
  cs.filter fun c => (fit? r args c).isSome

/-- A candidate accepts the arguments in one way at most. -/
theorem Accepts.unique (h : Accepts r args c f) (h' : Accepts r args c g) : f = g :=
  Option.some.inj ((fit?_eq_some_iff.mpr h).symm.trans (fit?_eq_some_iff.mpr h'))

/-- Whether a candidate accepts the arguments, and at which cost, depends on its parameters
alone. -/
theorem Accepts.of_params (h : Accepts r args c f) (hparams : d.params = c.params) :
    Accepts r args d { f with key := d.key } where
  key := rfl
  params := h.params.trans hparams.symm
  arity := hparams ▸ h.arity
  conversions := hparams ▸ h.conversions
  cost := h.cost

/-! ## Kept candidates -/

/-- No earlier candidate has the parameter list of this one. -/
def Kept (cs : List (Candidate κ)) (c : Candidate κ) : Prop :=
  cs.find? (fun d => d.params = c.params) = some c

theorem Kept.mem (h : Kept cs c) : c ∈ cs := List.mem_of_find?_eq_some h

/-- For every candidate one with the same parameter list is kept. -/
theorem exists_kept (hc : c ∈ cs) : ∃ d, Kept cs d ∧ d.params = c.params := by
  cases hfind : cs.find? (fun d => d.params = c.params) with
  | none =>
    have hnone := List.find?_eq_none.mp hfind c hc
    simp at hnone
  | some d =>
    have hparams : d.params = c.params := by simpa using List.find?_some hfind
    exact ⟨d, by rw [Kept, hparams, hfind], hparams⟩

theorem kept_append_singleton_iff :
    Kept (cs ++ [d]) c ↔ Kept cs c ∨ (∀ e ∈ cs, e.params ≠ c.params) ∧ d = c := by
  unfold Kept
  rw [List.find?_append]
  cases hfind : cs.find? (fun e => e.params = c.params) with
  | none =>
    have hnone : ∀ e ∈ cs, e.params ≠ c.params := by simpa using hfind
    simp only [Option.none_or, reduceCtorEq, false_or, and_iff_right hnone]
    by_cases hd : d = c
    · simp [hd]
    · simp [hd]
  | some e =>
    have hsome : ¬∀ e ∈ cs, e.params ≠ c.params := fun hall =>
      hall e (List.mem_of_find?_eq_some hfind) (by simpa using List.find?_some hfind)
    simp only [Option.some_or, hsome, false_and, or_false]

theorem distinct_append_singleton (cs : List (Candidate κ)) (c : Candidate κ) :
    distinct (cs ++ [c]) =
      if (distinct cs).any (·.params = c.params) then distinct cs else distinct cs ++ [c] := by
  unfold distinct
  rw [List.foldl_append]
  rfl

/-- What is kept is what no earlier candidate has the parameter list of. -/
theorem mem_distinct_iff : c ∈ distinct cs ↔ Kept cs c := by
  induction cs using List.reverseRecOn generalizing c with
  | nil => simp [distinct, Kept]
  | append_singleton cs x ih =>
    rw [distinct_append_singleton, kept_append_singleton_iff]
    have hseen : (distinct cs).any (·.params = x.params) = true ↔ ∃ e ∈ cs, e.params = x.params := by
      rw [List.any_eq_true]
      constructor
      · rintro ⟨e, he, hparams⟩
        exact ⟨e, (ih.mp he).mem, of_decide_eq_true hparams⟩
      · rintro ⟨e, he, hparams⟩
        obtain ⟨k, hk, hke⟩ := exists_kept he
        exact ⟨k, ih.mpr hk, decide_eq_true (hke.trans hparams)⟩
    split
    · rename_i hany
      obtain ⟨e, he, hparams⟩ := hseen.mp hany
      rw [ih, or_iff_left]
      rintro ⟨hnone, rfl⟩
      exact hnone e he hparams
    · rename_i hany
      have hnew : ∀ e ∈ cs, e.params ≠ x.params := fun e he heq => hany (hseen.mpr ⟨e, he, heq⟩)
      rw [List.mem_append, ih, List.mem_singleton, eq_comm]
      refine or_congr_right ⟨?_, And.right⟩
      rintro rfl
      exact ⟨hnew, rfl⟩

/-- What is kept has different parameter lists. -/
theorem nodup_params_distinct (cs : List (Candidate κ)) :
    ((distinct cs).map (·.params)).Nodup := by
  induction cs using List.reverseRecOn with
  | nil => exact .nil
  | append_singleton cs x ih =>
    rw [distinct_append_singleton]
    split
    · exact ih
    · rename_i hnew
      rw [List.map_append, List.map_singleton, List.nodup_append]
      refine ⟨ih, List.nodup_singleton _, ?_⟩
      intro ps hps qs hqs heq
      obtain ⟨c, hc, rfl⟩ := List.mem_map.mp hps
      rw [List.mem_singleton.mp hqs] at heq
      exact hnew (List.any_eq_true.mpr ⟨c, hc, decide_eq_true heq⟩)

/-! ## The ranking -/

/-- One way to accept the arguments is better than another: it costs less, or the same with more
exact conversions. -/
def Better (f g : Fit κ) : Prop := f.cost < g.cost ∨ f.cost = g.cost ∧ exactCount g < exactCount f

/-- What is best cannot be bettered. -/
theorem best_eq_filter {fits : List (Fit κ)} (hf : f ∈ fits) (h : ∀ g ∈ fits, ¬Better g f) :
    best fits = fits.filter fun g => g.cost = f.cost ∧ exactCount g = exactCount f := by
  unfold Better at h
  have hleast : (fits.map (·.cost)).min?.getD 0 = f.cost := by
    have hmin : (fits.map (·.cost)).min? = some f.cost := by
      refine List.min?_eq_some_iff.mpr ⟨List.mem_map_of_mem hf, ?_⟩
      intro n hn
      obtain ⟨g, hg, rfl⟩ := List.mem_map.mp hn
      have := h g hg
      omega
    rw [hmin, Option.getD_some]
  have hmost : ((fits.filter (·.cost = f.cost)).map exactCount).max?.getD 0 = exactCount f := by
    have hmax : ((fits.filter (·.cost = f.cost)).map exactCount).max? = some (exactCount f) := by
      refine List.max?_eq_some_iff.mpr ⟨List.mem_map_of_mem (List.mem_filter.mpr ⟨hf, by simp⟩), ?_⟩
      intro n hn
      obtain ⟨g, hg, rfl⟩ := List.mem_map.mp hn
      obtain ⟨hg, hcost⟩ := List.mem_filter.mp hg
      have hcost := of_decide_eq_true hcost
      have := h g hg
      omega
    rw [hmax, Option.getD_some]
  unfold best
  dsimp only
  rw [hleast, hmost, List.filter_filter]
  refine List.filter_congr fun g _ => ?_
  rw [Bool.and_comm, Bool.decide_and]

/-- Something cannot be bettered, unless there is nothing. -/
theorem exists_not_better {fits : List (Fit κ)} (h : fits ≠ []) :
    ∃ f ∈ fits, ∀ g ∈ fits, ¬Better g f := by
  induction fits with
  | nil => exact absurd rfl h
  | cons f fits ih =>
    by_cases hnil : fits = []
    · subst hnil
      refine ⟨f, List.mem_singleton_self f, List.forall_mem_singleton.mpr ?_⟩
      unfold Better
      omega
    · obtain ⟨b, hb, hbest⟩ := ih hnil
      by_cases hf : Better f b
      · refine ⟨f, List.mem_cons_self, List.forall_mem_cons.mpr ⟨?_, fun g hg => ?_⟩⟩
        · unfold Better
          omega
        · have := hbest g hg
          unfold Better at *
          omega
      · exact ⟨b, List.mem_cons_of_mem f hb, List.forall_mem_cons.mpr ⟨hf, hbest⟩⟩

/-- Just one is best if it is better than all others. -/
theorem best_eq_singleton_iff {fits : List (Fit κ)} :
    best fits = [f] ↔
      ∃ before after, fits = before ++ f :: after ∧ ∀ g ∈ before ++ after, Better f g := by
  constructor
  · intro h
    have hne : fits ≠ [] := by
      rintro rfl
      cases h
    obtain ⟨b, hb, hbest⟩ := exists_not_better hne
    -- All that are best are as good as any of them, so no other one is as good as `f`.
    rw [best_eq_filter hb hbest, List.filter_eq_cons_iff] at h
    obtain ⟨before, after, rfl, hbefore, hf, hafter⟩ := h
    refine ⟨before, after, rfl, fun g hg => ?_⟩
    have hrest : ¬(g.cost = b.cost ∧ exactCount g = exactCount b) := by
      rcases List.mem_append.mp hg with hg | hg
      · simpa using hbefore g hg
      · simpa using List.filter_eq_nil_iff.mp hafter g hg
    have hf := of_decide_eq_true hf
    have hg : g ∈ before ++ f :: after := by
      rcases List.mem_append.mp hg with hg | hg <;> simp [hg]
    have := hbest g hg
    unfold Better at *
    omega
  · rintro ⟨before, after, rfl, hbetter⟩
    have hothers : ∀ g ∈ before ++ after, ¬(g.cost = f.cost ∧ exactCount g = exactCount f) := by
      intro g hg
      have := hbetter g hg
      unfold Better at this
      omega
    rw [best_eq_filter (f := f) (by simp)]
    · rw [List.filter_append, List.filter_cons_of_pos (by simp),
        List.filter_eq_nil_iff.mpr fun g hg => ?_, List.filter_eq_nil_iff.mpr fun g hg => ?_]
      · rfl
      · simpa using hothers g (List.mem_append_right _ hg)
      · simpa using hothers g (List.mem_append_left _ hg)
    · intro g hg
      by_cases hgf : g ∈ before ++ after
      · have := hbetter g hgf
        unfold Better at *
        omega
      · have hg : g = f := by
          simp only [List.mem_append, List.mem_cons, not_or] at hg hgf
          tauto
        unfold Better
        rw [hg]
        omega

/-! ## Resolving -/

theorem resolveSingle_eq_ok_iff :
    resolveSingle r name c args span = .ok f ↔ fit? r args c = some f := by
  unfold resolveSingle
  split
  · cases fit? r args c <;> simp
  · rename_i harity
    simp [fit?, harity]

theorem resolveSeveral_eq_ok_iff :
    resolveSeveral r name cs args span = .ok f ↔ best (cs.filterMap (fit? r args)) = [f] := by
  unfold resolveSeveral
  split
  · rename_i winner hbest
    simp [hbest]
  · rename_i hbest
    simp [hbest]
  · rename_i hone _
    constructor
    · intro h
      cases h
    · intro h
      exact absurd h (hone f)

/-- However many candidates there are, the best one is looked for among those that are kept. -/
theorem resolve_eq_ok_iff :
    resolve r name cs args span = .ok f ↔ best ((distinct cs).filterMap (fit? r args)) = [f] := by
  unfold resolve
  split
  · rename_i hnone
    rw [hnone]
    simp [best]
  · rename_i only hone
    rw [hone, resolveSingle_eq_ok_iff, best_eq_singleton_iff]
    constructor
    · intro h
      exact ⟨[], [], List.filterMap_cons_some h, List.forall_mem_nil _⟩
    · rintro ⟨before, after, heq, _⟩
      have hf : f ∈ [only].filterMap (fit? r args) := heq ▸ by simp
      obtain ⟨d, hd, hfit⟩ := List.mem_filterMap.mp hf
      exact List.mem_singleton.mp hd ▸ hfit
  · exact resolveSeveral_eq_ok_iff

/-- Of the kept candidates that accept the arguments there is a best one. -/
def Chosen (r : Registry) (args : List Ty) (cs : List (Candidate κ)) (f : Fit κ) : Prop :=
  ∃ c, Kept cs c ∧ Accepts r args c f ∧
    ∀ d g, Kept cs d → d ≠ c → Accepts r args d g → Better f g

theorem resolve_eq_ok_iff_chosen :
    resolve r name cs args span = .ok f ↔ Chosen r args cs f := by
  rw [resolve_eq_ok_iff, best_eq_singleton_iff]
  constructor
  · rintro ⟨before, after, heq, hbetter⟩
    obtain ⟨first, rest, hdistinct, hfirst, hrest⟩ := List.filterMap_eq_append_iff.mp heq
    obtain ⟨skipped, c, last, rfl, hskipped, hc, hlast⟩ := List.filterMap_eq_cons_iff.mp hrest
    have hmem : c ∈ distinct cs := hdistinct ▸ by simp
    refine ⟨c, mem_distinct_iff.mp hmem, fit?_eq_some_iff.mp hc, ?_⟩
    intro d g hd hne hg
    have hd := mem_distinct_iff.mpr hd
    have hg := fit?_eq_some_iff.mpr hg
    refine hbetter g (List.mem_append.mpr ?_)
    simp only [hdistinct, List.mem_append, List.mem_cons, hne, false_or] at hd
    rcases hd with hd | hd | hd
    · exact .inl (hfirst ▸ List.mem_filterMap.mpr ⟨d, hd, hg⟩)
    · rw [hskipped d hd] at hg
      cases hg
    · exact .inr (hlast ▸ List.mem_filterMap.mpr ⟨d, hd, hg⟩)
  · rintro ⟨c, hc, hf, hbetter⟩
    obtain ⟨first, last, hsplit⟩ := List.append_of_mem (mem_distinct_iff.mpr hc)
    refine ⟨first.filterMap (fit? r args), last.filterMap (fit? r args), ?_, ?_⟩
    · rw [hsplit, List.filterMap_append, List.filterMap_cons_some (fit?_eq_some_iff.mpr hf)]
    · intro g hg
      rw [← List.filterMap_append] at hg
      obtain ⟨d, hd, hg⟩ := List.mem_filterMap.mp hg
      -- No candidate is kept twice.
      have hnodup := (nodup_params_distinct cs).of_map
      rw [hsplit, List.nodup_middle, List.nodup_cons] at hnodup
      have hne : d ≠ c := by
        rintro rfl
        exact hnodup.1 hd
      have hmem : d ∈ distinct cs := by
        rw [hsplit]
        rcases List.mem_append.mp hd with hd | hd <;> simp [hd]
      exact hbetter d g (mem_distinct_iff.mp hmem) hne (fit?_eq_some_iff.mp hg)

/-- The choice depends on nothing but the kept candidates that accept the arguments. -/
theorem Chosen.congr (h : ∀ c f, Accepts r args c f → (Kept cs' c ↔ Kept cs c)) :
    Chosen r args cs' f ↔ Chosen r args cs f := by
  unfold Chosen
  constructor
  · rintro ⟨c, hc, hf, hbetter⟩
    exact ⟨c, (h c f hf).mp hc, hf, fun d g hd hne hg => hbetter d g ((h d g hg).mpr hd) hne hg⟩
  · rintro ⟨c, hc, hf, hbetter⟩
    exact ⟨c, (h c f hf).mpr hc, hf, fun d g hd hne hg => hbetter d g ((h d g hg).mp hd) hne hg⟩

/-- Candidates that stay in order among those with the same parameter list are kept as before. -/
theorem kept_iff_of_filter_params (h : ∀ ps, cs'.filter (·.params = ps) = cs.filter (·.params = ps)) :
    Kept cs' c ↔ Kept cs c := by
  unfold Kept
  rw [← List.head?_filter, ← List.head?_filter, h c.params]

/-- A candidate that accepts the arguments is kept or not, whatever other candidates do not accept
them. -/
theorem kept_iff_of_accepting (h : accepting r args cs' = accepting r args cs)
    (hc : Accepts r args c f) : Kept cs' c ↔ Kept cs c := by
  have hfind : ∀ cs : List (Candidate κ), cs.find? (fun d => d.params = c.params) =
      (accepting r args cs).find? fun d => d.params = c.params := by
    intro cs
    rw [accepting, List.find?_filter]
    refine congrArg (List.find? · cs) (funext fun d => ?_)
    by_cases hd : d.params = c.params
    · simp [hd, fit?_eq_some_iff.mpr (hc.of_params hd)]
    · simp [hd]
  unfold Kept
  rw [hfind cs', hfind cs, h]

/-- Of candidates with different parameter lists all are kept. -/
theorem kept_iff_mem (h : (cs.map (·.params)).Nodup) : Kept cs c ↔ c ∈ cs := by
  refine ⟨Kept.mem, fun hc => ?_⟩
  obtain ⟨d, hd, heq⟩ := exists_kept hc
  exact List.inj_on_of_nodup_map h hd.mem hc heq ▸ hd

/-- A call is resolved exactly when of the kept candidates that accept the arguments one is better
than all others, and then this one is chosen, with its conversions. So the choice does not change
when candidates are rearranged, as long as those with the same parameter list stay in order, nor
when candidates come or go that do not accept the arguments. -/
theorem resolve_picks_best (r : Registry) (name : String) (args : List Ty) (span : Span)
    (cs : List (Candidate κ)) (f : Fit κ) :
    (resolve r name cs args span = .ok f ↔ ∃ c, Kept cs c ∧ Accepts r args c f ∧
      ∀ d g, Kept cs d → d ≠ c → Accepts r args d g → Better f g) ∧
    (∀ cs' : List (Candidate κ), cs'.Perm cs → (cs.map (·.params)).Nodup →
      (resolve r name cs' args span = .ok f ↔ resolve r name cs args span = .ok f)) ∧
    (∀ cs' : List (Candidate κ),
      (∀ ps, cs'.filter (·.params = ps) = cs.filter (·.params = ps)) →
      (resolve r name cs' args span = .ok f ↔ resolve r name cs args span = .ok f)) ∧
    ∀ cs' : List (Candidate κ), accepting r args cs' = accepting r args cs →
      (resolve r name cs' args span = .ok f ↔ resolve r name cs args span = .ok f) := by
  simp only [resolve_eq_ok_iff_chosen]
  refine ⟨.rfl, fun cs' hperm hnodup => ?_, fun cs' h => ?_, fun cs' h => ?_⟩
  · have hnodup' := (hperm.map (·.params)).nodup_iff.mpr hnodup
    refine Chosen.congr fun c f _ => ?_
    rw [kept_iff_mem hnodup, kept_iff_mem hnodup', hperm.mem_iff]
  · exact Chosen.congr fun c f _ => kept_iff_of_filter_params h
  · exact Chosen.congr fun c f hc => kept_iff_of_accepting h hc

/-- For two characters the first two candidates cost the same, but the second has an exact
conversion; the third does not accept them, and the last repeats the parameters of the second. -/
def sampleCandidates : List (Candidate Nat) :=
  [⟨0, [.int, .int]⟩, ⟨1, [.char, .float]⟩, ⟨2, [.int]⟩, ⟨3, [.char, .float]⟩]

theorem resolve_picks_best_sampleCandidates :
    let winner : Fit Nat := ⟨1, [.char, .float], [.identity, .intToFloat], 2⟩
    (∃ c, Kept sampleCandidates c ∧ Accepts (.initial 8) [.char, .char] c winner ∧
      ∀ d g, Kept sampleCandidates d → d ≠ c → Accepts (.initial 8) [.char, .char] d g →
        Better winner g) ∧
    resolve (.initial 8) "f" (sampleCandidates.eraseIdx 2) [.char, .char] .unknown = .ok winner ∧
    resolve (.initial 8) "f" (sampleCandidates.take 3).reverse [.char, .char] .unknown =
      .ok winner := by
  obtain ⟨hbest, -, -, hadded⟩ := resolve_picks_best (.initial 8) "f" [.char, .char] .unknown
    sampleCandidates ⟨1, [.char, .float], [.identity, .intToFloat], 2⟩
  obtain ⟨-, hpermuted, -, -⟩ := resolve_picks_best (.initial 8) "f" [.char, .char] .unknown
    (sampleCandidates.take 3) ⟨1, [.char, .float], [.identity, .intToFloat], 2⟩
  refine ⟨hbest.mp rfl, (hadded _ rfl).mpr rfl, (hpermuted _ (List.reverse_perm _) ?_).mpr rfl⟩
  decide

end ClassLang.Overload
