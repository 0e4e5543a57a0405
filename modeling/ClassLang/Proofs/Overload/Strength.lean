import Mathlib.Algebra.Order.BigOperators.Group.List
import Mathlib.Algebra.Order.Group.Nat
import ClassLang.Proofs.Overload.Ranking
import ClassLang.Proofs.Dispatch.Vtable
import ClassLang.Proofs.Ty.Conversion

/-!
# Strong and weak candidates

Every weak conversion costs at least as much as narrowing does. Costs are added up over the
arguments, and an upcast costs more the further away the ancestor is; so a candidate that accepts
every argument by a strong conversion need not be the cheapest one. It is better than all candidates
with a weak conversion as long as it costs less than one narrowing, and else only a candidate that
is better by the ranking of totals can be chosen in its place.
-/

namespace ClassLang

/-! ## What weak conversions cost -/

namespace Conversion

/-- The cost of narrowing, the cheapest of the weak conversions. -/
def weakCost : Nat := intNarrow.cost

theorem betweenPrims?_weak {p q : Prim} {v : Conversion} (h : betweenPrims? p q = some v)
    (hweak : v.isStrong = false) : weakCost ≤ v.cost := by
  unfold betweenPrims? at h
  split at h <;> cases h <;> first | decide | cases hweak

end Conversion

open Conversion

namespace Registry

variable {r : Registry} {a b : Ty} {v : Conversion}

theorem plainConversion?_weak (h : r.plainConversion? a b = some v) (hweak : v.isStrong = false) :
    weakCost ≤ v.cost := by
  unfold plainConversion? at h
  split at h
  · exact betweenPrims?_weak h hweak
  · split at h
    · cases h
      cases hweak
    · split at h
      · cases h
        decide
      · obtain ⟨n, _, rfl⟩ := Option.map_eq_some_iff.mp h
        cases hweak
  · split at h <;> cases h
    cases hweak
  · split at h <;> cases h
    cases hweak
  · split at h <;> cases h
    decide
  · split at h <;> cases h
    decide
  all_goals cases h
  all_goals decide

/-- No weak conversion is cheaper than narrowing. -/
theorem conversion?_weak (h : r.conversion? a b = some v) (hweak : v.isStrong = false) :
    weakCost ≤ v.cost := by
  unfold conversion? conversionAlong? at h
  split at h
  · cases h
    cases hweak
  · split at h
    · split at h <;> cases h
      cases hweak
    · exact plainConversion?_weak h hweak

end Registry

namespace Overload

variable {κ : Type} {r : Registry} {args : List Ty} {name : String} {span : Span}
  {c d : Candidate κ} {cs : List (Candidate κ)} {f g m s : Fit κ}

/-! ## Candidates with a weak conversion -/

/-- Every argument is converted without a warning. -/
def Strong (f : Fit κ) : Prop := ∀ v ∈ f.conversions, v.isStrong = true

instance (f : Fit κ) : Decidable (Strong f) :=
  inferInstanceAs (Decidable (∀ v ∈ f.conversions, v.isStrong = true))

theorem Accepts.weakCost_le (h : Accepts r args c f) (hweak : ¬Strong f) : weakCost ≤ f.cost := by
  obtain ⟨v, hv, hvweak⟩ : ∃ v ∈ f.conversions, v.isStrong = false := by
    simpa [Strong] using hweak
  obtain ⟨pair, _, hpair⟩ := exists_right_of_forall₂ h.conversions.flip hv
  have hcost : weakCost ≤ v.cost := Registry.conversion?_weak hpair hvweak
  have hsum : v.cost ≤ (f.conversions.map (·.cost)).sum :=
    List.single_le_sum (fun _ _ => Nat.zero_le _) _ (List.mem_map_of_mem hv)
  have hlimit : weakCost ≤ costLimit := by decide
  rw [h.cost]
  omega

/-- What is chosen is as good as any candidate that accepts the arguments, or accepts them by the
same conversions. -/
theorem better_or_same_of_resolve (hm : resolve r name cs args span = .ok m) (hc : c ∈ cs)
    (hs : Accepts r args c s) : Better m s ∨ m.conversions = s.conversions := by
  obtain ⟨d, hd, hfit, hbetter⟩ := resolve_eq_ok_iff_chosen.mp hm
  obtain ⟨e, he, hparams⟩ := exists_kept hc
  have hse := hs.of_params hparams
  by_cases hed : e = d
  · subst hed
    exact .inr (congrArg (·.conversions) (hfit.unique hse))
  · have hbest := hbetter e _ he hed hse
    exact .inl hbest

/-- If a candidate accepts every argument by a strong conversion, then so does what is chosen,
unless it costs at least as much as a narrowing and is still better than that candidate. This cannot
happen when the candidate costs less than a narrowing. -/
theorem strong_or_better (hc : c ∈ cs) (hs : Accepts r args c s) (hstrong : Strong s)
    (hm : resolve r name cs args span = .ok m) :
    (Strong m ∨ weakCost ≤ m.cost ∧ Better m s) ∧ (s.cost < weakCost → Strong m) := by
  have hor : Strong m ∨ weakCost ≤ m.cost ∧ Better m s := by
    by_cases hsafe : Strong m
    · exact .inl hsafe
    · obtain ⟨d, _, hfit, _⟩ := resolve_eq_ok_iff_chosen.mp hm
      refine .inr ⟨hfit.weakCost_le hsafe, ?_⟩
      rcases better_or_same_of_resolve hm hc hs with hbetter | hsame
      · exact hbetter
      · exact absurd (fun v hv => hstrong v (hsame ▸ hv)) hsafe
  refine ⟨hor, fun hcheap => hor.resolve_right ?_⟩
  rintro ⟨hcost, hless | ⟨heq, _⟩⟩ <;> omega

/-- The first candidate takes pointers to anything, the second one pointers to integers only, but it
wants a character last. -/
def laxAndExact : List (Candidate Nat) :=
  [⟨0, [.pointer .void, .int]⟩, ⟨1, [.pointer .int, .char]⟩]

theorem strong_or_better_laxAndExact :
    let lax : Fit Nat := ⟨0, [.pointer .void, .int], [.toVoidPointer, .identity], 50⟩
    resolve (.initial 8) "f" laxAndExact [.pointer .int, .int] .unknown = .ok lax ∧ Strong lax := by
  have hm : resolve (.initial 8) "f" laxAndExact [.pointer .int, .int] .unknown =
      .ok ⟨0, [.pointer .void, .int], [.toVoidPointer, .identity], 50⟩ := rfl
  have hfit : Accepts (.initial 8) [.pointer .int, .int] ⟨0, [.pointer .void, .int]⟩
      ⟨0, [.pointer .void, .int], [.toVoidPointer, .identity], 50⟩ := fit?_eq_some_iff.mp rfl
  have hcheap := strong_or_better (.head _) hfit (by decide) hm
  exact ⟨hm, hcheap.2 (by decide)⟩

set_option maxRecDepth 100000 in
/-- Three conversions to pointers to anything cost more than one narrowing. -/
theorem weak_beats_strong :
    ¬∀ (o : Options) (p : Program) (r : Registry) (name : String) (cs : List (Candidate Nat))
      (args : List Ty) (span : Span) (c : Candidate Nat) (s m : Fit Nat),
      Registration.accepted? o p = some r → c ∈ cs → Accepts r args c s → Strong s →
      resolve r name cs args span = .ok m → Strong m := by
  intro h
  have hrun : (Registration.accepted? {} Dispatch.diamond).isSome := by decide +kernel
  obtain ⟨r, hr⟩ := Option.isSome_iff_exists.mp hrun
  have hfit : Accepts r [.pointer .int, .pointer .int, .pointer .int, .int]
      ⟨0, [.pointer .void, .pointer .void, .pointer .void, .int]⟩
      ⟨0, [.pointer .void, .pointer .void, .pointer .void, .int],
        [.toVoidPointer, .toVoidPointer, .toVoidPointer, .identity], 150⟩ := fit?_eq_some_iff.mp rfl
  have hm : resolve r "f" [⟨0, [.pointer .void, .pointer .void, .pointer .void, .int]⟩,
        ⟨1, [.pointer .int, .pointer .int, .pointer .int, .char]⟩]
      [.pointer .int, .pointer .int, .pointer .int, .int] .unknown =
      .ok ⟨1, [.pointer .int, .pointer .int, .pointer .int, .char],
        [.identity, .identity, .identity, .intNarrow], 100⟩ := rfl
  have hall := h {} Dispatch.diamond r "f" _ _ .unknown _ _ _ hr (.head _) hfit (by decide) hm
  exact absurd (hall .intNarrow (by decide)) (by decide)

end Overload

end ClassLang
