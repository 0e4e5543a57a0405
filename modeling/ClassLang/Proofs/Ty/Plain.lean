import ClassLang.Proofs.Class.Ancestors
import ClassLang.Proofs.Ty.Conversion

/-!
# Strong conversions compose

On types without template parameters and without template arguments, a strong conversion
followed by another one is a strong conversion. Template arguments are left out because a class
may inherit one generic class with different arguments on different ways, and then it is only
seen with the first.

Parameters of callables are converted the other way round, so the induction is on a conversion
in either direction. Backwards is forwards with the types exchanged, which leaves one direction
to look at wherever one of the types is not a callable.
-/

namespace ClassLang

/-! ## Plain types -/

namespace Ty

mutual

/-- Whether neither template parameters nor template arguments occur in the type. -/
def isPlain : Ty → Bool
  | param .. | applied .. => false
  | pointer inner | array inner => inner.isPlain
  | callable _ ps r => r.isPlain && allPlain ps
  | _ => true

/-- Whether all of the types are plain. -/
def allPlain : List Ty → Bool
  | [] => true
  | t :: ts => t.isPlain && allPlain ts

end

mutual

/-- There is nothing to replace in a plain type. -/
theorem substitute_of_isPlain (names : List String) (args : List Ty) :
    ∀ t : Ty, t.isPlain = true → t.substitute names args = t
  | prim _, _ | classRef _, _ | intrinsic .., _ => rfl
  | pointer t, h => by
    rw [substitute, substitute_of_isPlain names args t h]
  | array t, h => by
    rw [substitute, substitute_of_isPlain names args t h]
  | callable k ps res, h => by
    obtain ⟨hres, hps⟩ := Bool.and_eq_true_iff.mp h
    rw [substitute, substitute_of_isPlain names args res hres,
      substituteAll_of_allPlain names args ps hps]
  | param .., h | applied .., h => by cases h

theorem substituteAll_of_allPlain (names : List String) (args : List Ty) :
    ∀ ts : List Ty, allPlain ts = true → substituteAll names args ts = ts
  | [], _ => rfl
  | t :: ts, h => by
    obtain ⟨ht, hts⟩ := Bool.and_eq_true_iff.mp h
    rw [substituteAll, substitute_of_isPlain names args t ht,
      substituteAll_of_allPlain names args ts hts]

end

end Ty

/-- A plain type is the same in the terms of every class. -/
theorem Class.inOwnTerms_of_isPlain (c ancestor : Class) {t : Ty} (ht : t.isPlain = true) :
    c.inOwnTerms ancestor t = t := by
  unfold inOwnTerms
  split
  · exact Ty.substitute_of_isPlain _ _ t ht
  · rfl

namespace Registry

/-! ## Directions -/

theorem conversionAlong?_of_not_callable (r : Registry) (d : Direction) {a b : Ty}
    (h : a.isCallable = false ∨ b.isCallable = false) :
    r.conversionAlong? d a b = if a = b then some .identity else r.plainAlong? d a b := by
  rcases h with ha | hb
  · exact r.conversionAlong?_plain d b ha
  · unfold conversionAlong?
    cases a with
    | callable k ps res =>
      cases b with
      | callable k' ps' res' => cases hb
      | _ => cases d <;> rfl
    | _ => cases d <;> rfl

theorem plainAlong?_reverse (r : Registry) (d : Direction) (a b : Ty) :
    r.plainAlong? d.reverse b a = r.plainAlong? d a b := by
  cases d <;> rfl

/-- Whether there is a strong conversion between `a` and `b` in a given direction. -/
def strongAlong (r : Registry) (d : Direction) (a b : Ty) : Bool :=
  isStrong (r.conversionAlong? d a b)

theorem strongAlong_self (r : Registry) (d : Direction) (t : Ty) : r.strongAlong d t t = true := by
  unfold strongAlong conversionAlong?
  rw [if_pos rfl]
  rfl

theorem strongAlong_of_not_callable (r : Registry) (d : Direction) {a b : Ty}
    (h : a.isCallable = false ∨ b.isCallable = false) :
    r.strongAlong d a b = true ↔ a = b ∨ isStrong (r.plainAlong? d a b) = true := by
  unfold strongAlong
  rw [r.conversionAlong?_of_not_callable d h]
  by_cases hab : a = b
  · rw [if_pos hab]
    exact iff_of_true rfl (.inl hab)
  · rw [if_neg hab, or_iff_right hab]

/-- What a strong conversion between callables comes down to. -/
theorem strongAlong_callable (r : Registry) (d : Direction) {k k' : CallKind} {ps ps' : List Ty}
    {res res' : Ty} :
    r.strongAlong d (.callable k ps res) (.callable k' ps' res') = true ↔
      k = k' ∧ ps.length = ps'.length ∧ r.paramsAlong d.reverse (k == .method) ps ps' = true ∧
        r.strongAlong d res res' = true := by
  by_cases heq : Ty.callable k ps res = .callable k' ps' res'
  · rw [heq]
    injection heq with hk hps hres
    subst hk hps hres
    exact iff_of_true (r.strongAlong_self d _)
      ⟨rfl, rfl, r.paramsAlong_self _ _ ps, r.strongAlong_self d res⟩
  · unfold strongAlong
    rw [conversionAlong?, if_neg heq]
    split
    · rename_i hall
      refine iff_of_true rfl ?_
      simpa [and_assoc] using hall
    · rename_i hall
      refine iff_of_false (by simp [isStrong]) ?_
      simpa [and_assoc] using hall

theorem paramsAlong_cons (r : Registry) (d : Direction) (skip : Bool) {a b : Ty}
    {as bs : List Ty} : r.paramsAlong d skip (a :: as) (b :: bs) = true ↔
      (skip = true ∨ r.strongAlong d a b = true) ∧ r.paramsAlong d false as bs = true := by
  rw [paramsAlong, Bool.and_eq_true, Bool.or_eq_true]
  rfl

mutual

/-- Converting backwards is converting forwards with the types exchanged. -/
theorem strongAlong_reverse (r : Registry) : ∀ (d : Direction) (a b : Ty),
    r.strongAlong d.reverse b a = true ↔ r.strongAlong d a b = true
  | d, .callable k ps res, .callable k' ps' res' => by
    rw [strongAlong_callable, strongAlong_callable, strongAlong_reverse r d res,
      paramsAlong_reverse r d.reverse _ ps]
    constructor
    · rintro ⟨rfl, hlen, hps, hres⟩
      exact ⟨rfl, hlen.symm, hps, hres⟩
    · rintro ⟨rfl, hlen, hps, hres⟩
      exact ⟨rfl, hlen.symm, hps, hres⟩
  | d, .prim p, b | d, .pointer t, b | d, .array t, b | d, .classRef k, b | d, .applied k as, b
  | d, .param n k, b | d, .intrinsic n t, b => by
    rw [r.strongAlong_of_not_callable d (.inl rfl),
      r.strongAlong_of_not_callable d.reverse (.inr rfl), r.plainAlong?_reverse, eq_comm]
  | d, .callable k ps res, .prim p | d, .callable k ps res, .pointer t
  | d, .callable k ps res, .array t | d, .callable k ps res, .classRef h
  | d, .callable k ps res, .applied h as | d, .callable k ps res, .param n h
  | d, .callable k ps res, .intrinsic n t => by
    rw [r.strongAlong_of_not_callable d (.inr rfl),
      r.strongAlong_of_not_callable d.reverse (.inl rfl), r.plainAlong?_reverse, eq_comm]

theorem paramsAlong_reverse (r : Registry) : ∀ (d : Direction) (skip : Bool) (as bs : List Ty),
    r.paramsAlong d.reverse skip bs as = true ↔ r.paramsAlong d skip as bs = true
  | d, skip, [], bs => by cases bs <;> exact Iff.rfl
  | d, skip, a :: as, [] => Iff.rfl
  | d, skip, a :: as, b :: bs => by
    rw [paramsAlong_cons, paramsAlong_cons, strongAlong_reverse r d a b,
      paramsAlong_reverse r d false as bs]

end

/-! ## Composition -/

/-- The strong conversions between types that are not both callables. -/
theorem isStrong_plainConversion? (r : Registry) (a b : Ty) :
    isStrong (r.plainConversion? a b) = true ↔
      (∃ p q, a = .prim p ∧ b = .prim q ∧ isStrong (Conversion.betweenPrims? p q) = true) ∨
      (a.isPointerLike = true ∧ b = .voidPointer) ∨
      ∃ x y, a = .pointer x ∧ b = .pointer y ∧ x.isVoid = false ∧ y.isVoid = false ∧
        (r.upcastDistance? x y).isSome = true := by
  have hvoid : ∀ t : Ty, t.isVoid = true ↔ t = .void := fun t => by simp [Ty.isVoid]
  have hup : ∀ o : Option Nat, isStrong (o.map .upcast) = o.isSome := by
    intro o
    cases o <;> rfl
  constructor
  · intro h
    -- One case for each row of the definition; only three of them can be strong.
    unfold plainConversion? at h
    split at h
    · exact .inl ⟨_, _, rfl, rfl, h⟩
    · rename_i x y
      by_cases hy : y.isVoid = true
      · exact .inr (.inl ⟨rfl, by rw [(hvoid y).mp hy]; rfl⟩)
      · rw [if_neg hy] at h
        by_cases hx : x.isVoid = true
        · rw [if_pos hx] at h
          cases h
        · rw [if_neg hx, hup] at h
          exact .inr (.inr ⟨x, y, rfl, rfl, by simpa using hx, by simpa using hy, h⟩)
    all_goals try split at h
    all_goals first
      | cases h; done
      | (rename_i hy
         exact .inr (.inl ⟨rfl, congrArg Ty.pointer ((hvoid _).mp hy)⟩))
  · rintro (⟨p, q, rfl, rfl, h⟩ | ⟨ha, rfl⟩ | ⟨x, y, rfl, rfl, hx, hy, h⟩)
    · exact h
    · cases a with
      | prim p => cases ha
      | _ => first | rfl | cases ha
    · rw [plainConversion?, hx, hy]
      exact (hup _).trans h

/-- A plain class type converts to its ancestors. -/
theorem upcastDistance?_isSome_iff (r : Registry) {x y : Ty} (hx : x.isPlain = true)
    (hy : y.isPlain = true) : (r.upcastDistance? x y).isSome = true ↔
      ∃ h k c, x = .classRef h ∧ y = .classRef k ∧ r.class? h = some c ∧ k ∈ c.mro := by
  cases x with
  | param n h => cases hx
  | applied h as => cases hx
  | classRef h =>
    cases y with
    | param n h => cases hy
    | applied h as => cases hy
    | classRef k =>
      cases hc : r.class? h <;>
        simp [upcastDistance?, Ty.classHash?, Ty.args, hc, List.findIdx?_isSome]
    | _ => simp [upcastDistance?, Ty.classHash?]
  | _ =>
    cases y with
    | param n h => cases hy
    | _ => simp [upcastDistance?, Ty.classHash?]

theorem upcast_trans {r : Registry} (hr : Registration.Hierarchy r) {x y z : Ty}
    (hx : x.isPlain = true) (hy : y.isPlain = true) (hz : z.isPlain = true)
    (hxy : (r.upcastDistance? x y).isSome = true) (hyz : (r.upcastDistance? y z).isSome = true) :
    (r.upcastDistance? x z).isSome = true := by
  rw [r.upcastDistance?_isSome_iff hx hy] at hxy
  rw [r.upcastDistance?_isSome_iff hy hz] at hyz
  rw [r.upcastDistance?_isSome_iff hx hz]
  obtain ⟨h, k, c, rfl, rfl, hc, hk⟩ := hxy
  obtain ⟨k', l, e, heq, rfl, he, hl⟩ := hyz
  injection heq with heq
  subst heq
  exact ⟨h, l, c, rfl, rfl, hc, hr.mro_trans hc hk he hl⟩

theorem betweenPrims?_trans {p q s : Prim}
    (hpq : isStrong (Conversion.betweenPrims? p q) = true)
    (hqs : isStrong (Conversion.betweenPrims? q s) = true) :
    p = s ∨ isStrong (Conversion.betweenPrims? p s) = true := by
  revert hpq hqs
  cases p <;> cases q <;> cases s <;> decide

theorem plainConversion?_trans {r : Registry} (hr : Registration.Hierarchy r) {a b c : Ty}
    (ha : a.isPlain = true) (hb : b.isPlain = true) (hc : c.isPlain = true)
    (hab : isStrong (r.plainConversion? a b) = true)
    (hbc : isStrong (r.plainConversion? b c) = true) :
    a = c ∨ isStrong (r.plainConversion? a c) = true := by
  rw [isStrong_plainConversion?] at hab hbc ⊢
  rcases hab with ⟨p, q, rfl, rfl, hpq⟩ | ⟨hptr, rfl⟩ | ⟨x, y, rfl, rfl, hx, hy, hxy⟩
  · rcases hbc with ⟨q', s, heq, rfl, hqs⟩ | ⟨hptr, _⟩ | ⟨_, _, heq, _⟩
    · injection heq with heq
      subst heq
      rcases betweenPrims?_trans hpq hqs with rfl | hps
      · exact .inl rfl
      · exact .inr (.inl ⟨p, s, rfl, rfl, hps⟩)
    · cases hptr
    · cases heq
  · rcases hbc with ⟨_, _, heq, _⟩ | ⟨_, rfl⟩ | ⟨x, _, heq, _, hx, _⟩
    · cases heq
    · exact .inr (.inr (.inl ⟨hptr, rfl⟩))
    · injection heq with heq
      rw [← heq] at hx
      cases hx
  · rcases hbc with ⟨_, _, heq, _⟩ | ⟨_, rfl⟩ | ⟨y', z, heq, rfl, _, hz, hyz⟩
    · cases heq
    · exact .inr (.inr (.inl ⟨rfl, rfl⟩))
    · injection heq with heq
      subst heq
      exact .inr (.inr (.inr ⟨x, z, rfl, rfl, hx, hz, upcast_trans (x := x) (y := y) (z := z) hr
        ha hb hc hxy hyz⟩))

/-- Strong conversions compose when one of the types is not a callable. -/
theorem strongAlong_trans_plain {r : Registry} (hr : Registration.Hierarchy r) {a b c : Ty}
    (ha : a.isPlain = true) (hb : b.isPlain = true) (hc : c.isPlain = true)
    (hcall : a.isCallable = false ∨ b.isCallable = false ∨ c.isCallable = false)
    (hab : r.strongAlong .forward a b = true) (hbc : r.strongAlong .forward b c = true) :
    r.strongAlong .forward a c = true := by
  -- Nothing but a callable converts to one, and callables convert to `*void` otherwise.
  have hto : ∀ {x y : Ty}, x.isCallable = false → y.isCallable = true →
      r.strongAlong .forward x y ≠ true := by
    intro x y hx hy h
    rcases (r.strongAlong_of_not_callable .forward (.inl hx)).mp h with rfl | h
    · rw [hx] at hy
      cases hy
    · rcases (r.isStrong_plainConversion? x y).mp h with
        ⟨_, _, _, rfl, _⟩ | ⟨_, rfl⟩ | ⟨_, _, _, rfl, _⟩ <;> cases hy
  have hfrom : ∀ {x y : Ty}, x.isCallable = true → y.isCallable = false →
      r.strongAlong .forward x y = true → y = .voidPointer := by
    intro x y hx hy h
    rcases (r.strongAlong_of_not_callable .forward (.inr hy)).mp h with rfl | h
    · rw [hx] at hy
      cases hy
    · rcases (r.isStrong_plainConversion? x y).mp h with
        ⟨_, _, rfl, _⟩ | ⟨_, rfl⟩ | ⟨_, _, rfl, _⟩
      · cases hx
      · rfl
      · cases hx
  cases hbc' : b.isCallable with
  | true =>
    cases hac : a.isCallable with
    | false => exact absurd hab (hto hac hbc')
    | true =>
      have hcc : c.isCallable = false := by
        rcases hcall with h | h | h
        · rw [hac] at h
          cases h
        · rw [hbc'] at h
          cases h
        · exact h
      have hvoid := hfrom hbc' hcc hbc
      subst hvoid
      refine (r.strongAlong_of_not_callable .forward (.inr rfl)).mpr (.inr ?_)
      refine (r.isStrong_plainConversion? a _).mpr (.inr (.inl ⟨?_, rfl⟩))
      cases a with
      | callable k ps res => rfl
      | _ => cases hac
  | false =>
    have hcc : c.isCallable = false := by
      by_contra hcc
      exact hto hbc' (by simpa using hcc) hbc
    rw [r.strongAlong_of_not_callable .forward (.inr hbc')] at hab
    rw [r.strongAlong_of_not_callable .forward (.inr hcc)] at hbc ⊢
    rcases hab with rfl | hab
    · exact hbc
    · rcases hbc with rfl | hbc
      · exact .inr hab
      · exact plainConversion?_trans hr ha hb hc hab hbc

theorem strongAlong_trans_of_not_callable {r : Registry} (hr : Registration.Hierarchy r)
    (d : Direction) {a b c : Ty} (ha : a.isPlain = true) (hb : b.isPlain = true)
    (hc : c.isPlain = true)
    (hcall : a.isCallable = false ∨ b.isCallable = false ∨ c.isCallable = false)
    (hab : r.strongAlong d a b = true) (hbc : r.strongAlong d b c = true) :
    r.strongAlong d a c = true := by
  cases d with
  | forward => exact strongAlong_trans_plain hr ha hb hc hcall hab hbc
  | backward =>
    have hba := (r.strongAlong_reverse .forward b a).mp hab
    have hcb := (r.strongAlong_reverse .forward c b).mp hbc
    refine (r.strongAlong_reverse .forward c a).mpr ?_
    exact strongAlong_trans_plain hr hc hb ha (by tauto) hcb hba

mutual

/-- On plain types strong conversions compose, in either direction. -/
theorem strongAlong_trans {r : Registry} (hr : Registration.Hierarchy r) :
    ∀ (d : Direction) (a b c : Ty), a.isPlain = true → b.isPlain = true → c.isPlain = true →
      r.strongAlong d a b = true → r.strongAlong d b c = true → r.strongAlong d a c = true
  | d, .callable k ps res, b, c => by
    intro ha hb hc hab hbc
    by_cases hcall : b.isCallable = false ∨ c.isCallable = false
    · exact strongAlong_trans_of_not_callable hr d ha hb hc (.inr hcall) hab hbc
    · obtain ⟨hbcall, hccall⟩ : b.isCallable = true ∧ c.isCallable = true := by simpa using hcall
      cases b with
      | callable k' ps' res' =>
        cases c with
        | callable k'' ps'' res'' =>
          obtain ⟨hra, hpa⟩ := Bool.and_eq_true_iff.mp ha
          obtain ⟨hrb, hpb⟩ := Bool.and_eq_true_iff.mp hb
          obtain ⟨hrc, hpc⟩ := Bool.and_eq_true_iff.mp hc
          rw [strongAlong_callable] at hab hbc ⊢
          obtain ⟨rfl, hlen, hps, hres⟩ := hab
          obtain ⟨rfl, hlen', hps', hres'⟩ := hbc
          exact ⟨rfl, hlen.trans hlen',
            paramsAlong_trans hr d.reverse _ ps ps' ps'' hpa hpb hpc hlen hlen' hps hps',
            strongAlong_trans hr d res res' res'' hra hrb hrc hres hres'⟩
        | _ => cases hccall
      | _ => cases hbcall
  | d, .prim p, b, c | d, .pointer t, b, c | d, .array t, b, c | d, .classRef k, b, c
  | d, .applied k as, b, c | d, .param n k, b, c | d, .intrinsic n t, b, c =>
    fun ha hb hc => strongAlong_trans_of_not_callable hr d ha hb hc (.inl rfl)

theorem paramsAlong_trans {r : Registry} (hr : Registration.Hierarchy r) :
    ∀ (d : Direction) (skip : Bool) (as bs cs : List Ty), Ty.allPlain as = true →
      Ty.allPlain bs = true → Ty.allPlain cs = true → as.length = bs.length →
      bs.length = cs.length → r.paramsAlong d skip as bs = true →
      r.paramsAlong d skip bs cs = true → r.paramsAlong d skip as cs = true
  | d, skip, [], bs, cs => fun _ _ _ _ _ _ _ => rfl
  | d, skip, a :: as, b :: bs, c :: cs => by
    intro ha hb hc hlen hlen' hab hbc
    obtain ⟨ha, has⟩ := Bool.and_eq_true_iff.mp ha
    obtain ⟨hb, hbs⟩ := Bool.and_eq_true_iff.mp hb
    obtain ⟨hc, hcs⟩ := Bool.and_eq_true_iff.mp hc
    rw [paramsAlong_cons] at hab hbc ⊢
    refine ⟨?_, paramsAlong_trans hr d false as bs cs has hbs hcs (Nat.succ.inj hlen)
      (Nat.succ.inj hlen') hab.2 hbc.2⟩
    rcases hab.1 with hskip | hab
    · exact .inl hskip
    · rcases hbc.1 with hskip | hbc
      · exact .inl hskip
      · exact .inr (strongAlong_trans hr d a b c ha hb hc hab hbc)
  | d, skip, a :: as, [], cs => fun _ _ _ hlen => by cases hlen
  | d, skip, a :: as, b :: bs, [] => fun _ _ _ _ hlen => by cases hlen

end

theorem convertsStrongly_trans {r : Registry} (hr : Registration.Hierarchy r) {a b c : Ty}
    (ha : a.isPlain = true) (hb : b.isPlain = true) (hc : c.isPlain = true)
    (hab : r.convertsStrongly a b = true) (hbc : r.convertsStrongly b c = true) :
    r.convertsStrongly a c = true :=
  strongAlong_trans hr .forward a b c ha hb hc hab hbc

end Registry

end ClassLang
