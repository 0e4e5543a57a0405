import ClassLang.Proofs.Registration.Hierarchy

/-!
# Conversions depend on the hierarchy alone

Whether a type converts to another is decided by linearizations, template parameters and
inherited template arguments, all of which are known before the first class is laid out. So a
conversion that was checked while method tables were being built is still one at the end.
-/

namespace ClassLang.Registry

open Registration

variable {r r' : Registry}

/-- A question about what `π` shows of a class has the same answer in registries that show the
same. -/
theorem class?_bind_congr {α : Type} {π : Class → Class} {k : TypeHash}
    (h : (r'.class? k).map π = (r.class? k).map π) (f : Class → Option α)
    (hf : ∀ c, f (π c) = f c) : (r'.class? k).bind f = (r.class? k).bind f := by
  have hbind : ∀ o : Option Class, o.bind f = (o.map π).bind f := by
    intro o
    cases o with
    | none => rfl
    | some c => exact (hf c).symm
  rw [hbind, h, ← hbind]

/-- Distances depend on linearizations, template parameters and inherited template arguments. -/
theorem upcastDistance?_congr_of {π : Class → Class}
    (h : ∀ k, (r'.class? k).map π = (r.class? k).map π) (hmro : ∀ c, (π c).mro = c.mro)
    (hargs : ∀ c, (π c).argsSeenAs? = c.argsSeenAs?) (source target : Ty) :
    r'.upcastDistance? source target = r.upcastDistance? source target := by
  cases target with
  | param n b => rfl
  | _ =>
    cases hs : source.classHash? with
    | none => simp only [upcastDistance?, hs, Option.bind_eq_bind, Option.bind_none]
    | some k =>
      simp only [upcastDistance?, hs, Option.bind_eq_bind, Option.bind_some]
      exact class?_bind_congr (h k) _ fun c => by rw [hmro, hargs]

theorem upcastDistance?_congr (h : SameHeaders r r') (source target : Ty) :
    r'.upcastDistance? source target = r.upcastDistance? source target :=
  upcastDistance?_congr_of h (fun _ => rfl) (fun _ => rfl) source target

theorem plainConversion?_congr (h : SameHeaders r r') (a b : Ty) :
    r'.plainConversion? a b = r.plainConversion? a b := by
  unfold plainConversion?
  split <;> first | rfl | rw [upcastDistance?_congr h]

/-- The conversion between two types that are not both callable. -/
def plainAlong? (r : Registry) : Direction → Ty → Ty → Option Conversion
  | .forward, a, b => r.plainConversion? a b
  | .backward, a, b => r.plainConversion? b a

theorem conversionAlong?_plain (r : Registry) (d : Direction) {a : Ty} (b : Ty)
    (ha : a.isCallable = false) :
    r.conversionAlong? d a b = if a = b then some .identity else r.plainAlong? d a b := by
  unfold conversionAlong?
  cases a with
  | callable k ps res => cases ha
  | _ => cases d <;> rfl

theorem plainAlong?_congr (h : SameHeaders r r') (d : Direction) (a b : Ty) :
    r'.plainAlong? d a b = r.plainAlong? d a b := by
  cases d <;> exact plainConversion?_congr h _ _

mutual

theorem conversionAlong?_congr (h : SameHeaders r r') : ∀ (d : Direction) (a b : Ty),
    r'.conversionAlong? d a b = r.conversionAlong? d a b
  | d, .callable k ps res, b => by
    unfold conversionAlong?
    split
    · rfl
    · split
      · rename_i heq _
        injection heq with hk hps hres
        subst hk hps hres
        rw [paramsAlong_congr h _ _ ps, conversionAlong?_congr h d res]
      · rw [plainConversion?_congr h, plainConversion?_congr h]
  | d, .prim p, b | d, .pointer t, b | d, .array t, b | d, .classRef k, b | d, .applied k as, b
  | d, .param n k, b | d, .intrinsic n t, b => by
    rw [conversionAlong?_plain r' d b rfl, conversionAlong?_plain r d b rfl,
      plainAlong?_congr h]

theorem paramsAlong_congr (h : SameHeaders r r') : ∀ (d : Direction) (skip : Bool)
    (as bs : List Ty), r'.paramsAlong d skip as bs = r.paramsAlong d skip as bs
  | d, skip, [], bs => by
    cases bs <;> rfl
  | d, skip, a :: as, [] => rfl
  | d, skip, a :: as, b :: bs => by
    unfold paramsAlong
    rw [conversionAlong?_congr h d a, paramsAlong_congr h d false as]

end

theorem convertsStrongly_congr (h : SameHeaders r r') (a b : Ty) :
    r'.convertsStrongly a b = r.convertsStrongly a b :=
  congrArg isStrong (conversionAlong?_congr h .forward a b)

/-! ## Every type converts to itself -/

theorem paramsAlong_self (r : Registry) (d : Direction) (skip : Bool) (ts : List Ty) :
    r.paramsAlong d skip ts ts = true := by
  induction ts generalizing skip with
  | nil => rfl
  | cons t ts ih =>
    unfold paramsAlong
    unfold conversionAlong?
    rw [if_pos rfl, ih]
    simp [isStrong, Conversion.identity]

/-- Two method types with the same parameters convert as their results do. -/
theorem convertsStrongly_callable (r : Registry) (kind : CallKind) (ps : List Ty) (a b : Ty) :
    r.convertsStrongly (.callable kind ps a) (.callable kind ps b) = r.convertsStrongly a b := by
  unfold convertsStrongly conversion?
  by_cases hab : a = b
  · subst hab
    unfold conversionAlong?
    rw [if_pos rfl, if_pos rfl]
  · rw [conversionAlong?, if_neg (by simpa using hab)]
    simp only [paramsAlong_self, decide_true, Bool.true_and]
    cases isStrong (r.conversionAlong? .forward a b) <;> rfl

end ClassLang.Registry
