import ClassLang.Proofs.Integer.Values
import ClassLang.Proofs.Ty.Conversion

/-!
# Conversions and operators on integers

The steps that have no control flow of their own: converting a value, choosing where a result
goes, and the operators. Each of them reads its operands before it writes its result, so the
result may go where an operand is.
-/

namespace ClassLang.Lowering

open CompileM Machine

variable {u : Arithmetic} {s : Scopes} {limit : Nat} {dest : Option Slot} {c c' : Compilation}

/-! ## Where results go -/

/-- A place for a result: fresh storage, or a destination of its type. -/
def Writable (top : Nat) (dest : Option Slot) (a : Address) (p : Prim) : Prop :=
  (∃ n, a = .frame n ∧ top ≤ n) ∨ ∃ d ∈ dest, d.type = .prim p ∧ d.address = a

theorem Writable.mono {top top' : Nat} {a : Address} {p : Prim} (h : Writable top' dest a p)
    (hle : top ≤ top') : Writable top dest a p := by
  rcases h with ⟨n, ha, hn⟩ | hd
  · exact .inl ⟨n, ha, Nat.le_trans hle hn⟩
  · exact .inr hd

theorem holds_top (n : Nat) (p : Prim) : (Address.frame n).holds (n + p.size) p :=
  Address.holds_frame (Nat.le_refl _)

/-- A result goes to fresh storage or to the destination, without any code. -/
theorem resultAddress_spec {p : Prim} {a : Address} (hp : p.isIntegral = true)
    (hdest : Offered c.frame.top dest) (h : Yields (resultAddress (.prim p) dest) c a c') :
    Adds c c' [] [] [] ∧ Integral c'.frame.top ⟨.prim p, a⟩ p ∧
      Writable c.frame.top dest a p := by
  have halloc : ∀ {a c'}, Yields (allocFor (.prim p)) c a c' →
      Adds c c' [] [] [] ∧ Integral c'.frame.top ⟨.prim p, a⟩ p ∧
        Writable c.frame.top dest a p := by
    intro a c' h
    rw [yields_allocFor] at h
    obtain ⟨rfl, rfl⟩ := h
    exact ⟨adds_alloc c _, ⟨rfl, hp, holds_top _ p⟩, .inl ⟨_, rfl, Nat.le_refl _⟩⟩
  unfold resultAddress at h
  cases dest with
  | none => exact halloc h
  | some d =>
    simp only [yields_bind, yields_get, and_assoc, exists_and_left, exists_eq_left] at h
    split at h
    · rename_i hcond
      have htype : d.type = .prim p := of_decide_eq_true (Bool.and_eq_true_iff.mp hcond).2
      rw [yields_pure] at h
      obtain ⟨rfl, rfl⟩ := h
      obtain ⟨q, hq⟩ := hdest d rfl
      have heq : q = p := Ty.prim.inj (hq.type.symm.trans htype)
      subst heq
      exact ⟨.nil _, ⟨rfl, hp, hq.holds⟩, .inr ⟨d, rfl, htype, rfl⟩⟩
    · exact halloc h

/-! ## Conversions -/

/-- The code that converts one integral type to another. -/
def convertCode (p q : Prim) (dst src : Address) : List Instr :=
  if p.size = q.size then moveCode dst src q.size
  else if p = .int then [.convert .intToChar dst src]
  else [.convert .charToInt dst src]

theorem labels_moveCode (dst src : Address) (n : Nat) : labels (moveCode dst src n) = [] := by
  unfold moveCode
  split <;> rfl

theorem labels_convertCode (p q : Prim) (dst src : Address) :
    labels (convertCode p q dst src) = [] := by
  unfold convertCode
  split
  · exact labels_moveCode ..
  · split <;> rfl

theorem yields_checkConversion {t t' : Ty} {span : Span} {k : Conversion}
    (h : Yields (checkConversion t t' span) c k c') :
    c.registry.conversion? t t' = some k ∧ Adds c c' [] [] [] ∧ c'.frame = c.frame ∧
      c'.literals = c.literals := by
  simp only [checkConversion, yields_bind, yields_get, and_assoc, exists_and_left,
    exists_eq_left] at h
  split at h
  · exact absurd h yields_fail.mp
  · rename_i k' hk
    split at h
    · simp only [yields_bind, yields_pure] at h
      obtain ⟨_, c₁, hwarn, rfl, rfl⟩ := h
      exact ⟨hk, adds_warn hwarn⟩
    · rw [yields_pure] at h
      obtain ⟨rfl, rfl⟩ := h
      exact ⟨hk, .nil _, rfl, rfl⟩

theorem prim_cases {p : Prim} (h : p.isIntegral = true) : p = .int ∨ p = .char ∨ p = .byte := by
  cases p <;> simp_all [Prim.isIntegral]

/-- What converts one integral type to another. -/
theorem conversion_kind {r : Registry} {p q : Prim} {k : Conversion}
    (hp : p.isIntegral = true) (hq : q.isIntegral = true)
    (hk : r.conversion? (.prim p) (.prim q) = some k) :
    k.kind = if p = q then .identity else if p.size = q.size then .charByte
      else if p = .int then .intNarrow else .intWiden := by
  unfold Registry.conversion? at hk
  rw [Registry.conversionAlong?_plain _ _ _ rfl] at hk
  rcases prim_cases hp with rfl | rfl | rfl <;> rcases prim_cases hq with rfl | rfl | rfl <;>
    exact congrArg Conversion.kind (Option.some.inj hk).symm

/-- Conversions between integral types are strong unless they cut off bytes. -/
theorem convertsStrongly_integral (r : Registry) {p q : Prim} (hp : p.isIntegral = true)
    (hq : q.isIntegral = true) :
    r.convertsStrongly (.prim p) (.prim q) = true ↔ p.size ≤ q.size := by
  unfold Registry.convertsStrongly Registry.conversion?
  rw [Registry.conversionAlong?_plain _ _ _ rfl]
  rcases prim_cases hp with rfl | rfl | rfl <;> rcases prim_cases hq with rfl | rfl | rfl <;>
    first
      | exact iff_of_true rfl (by decide)
      | exact iff_of_false Bool.false_ne_true (by decide)

theorem yields_convertInto {p q : Prim} {value slot : Slot} {k : Conversion} {v : Unit}
    (hp : p.isIntegral = true) (hq : q.isIntegral = true) (hvalue : value.type = .prim p)
    (hslot : slot.type = .prim q) (hk : c.registry.conversion? (.prim p) (.prim q) = some k)
    (h : Yields (convertInto value slot k) c v c') :
    c' = c.add (convertCode p q slot.address value.address) := by
  have hlen : ∀ t : Prim, c.registry.length (.prim t) = t.size := fun _ => rfl
  simp only [convertInto, hvalue, hslot, hlen, conversion_kind hp hq hk, yields_bind,
    yields_lengthOf, and_assoc, exists_and_left, exists_eq_left] at h
  unfold convertCode
  by_cases hpq : p = q
  · subst hpq
    simpa using h
  · rw [if_neg hpq] at h
    by_cases hsize : p.size = q.size
    · rw [if_pos hsize] at h ⊢
      exact yields_move.mp h
    · rw [if_neg hsize] at h ⊢
      split at h <;> split <;> simp_all

/-- Converted code leaves the value, as far as the new type can hold it. -/
theorem runs_convertCode {top : Nat} {p q : Prim} {dst : Address} (src : Address)
    (hp : p.isIntegral = true) (hq : q.isIntegral = true) (hdst : Writable top dest dst q)
    (m : Store) :
    ∃ m', Runs u (convertCode p q dst src) m m' ∧ m'.value q dst = q.fit (m.value p src) ∧
      m.Spares top dest m' := by
  unfold convertCode
  split
  · rename_i hsize
    have hfit := m.fit_value src hq (Nat.le_of_eq hsize)
    -- Types of the same size have the same values in memory.
    have hvalue : m.value p src = m.value q src := by
      unfold Store.value
      rw [hsize]
    unfold moveCode
    split
    · have hread := m.read_write dst (m.read src q.size)
      rw [m.length_read] at hread
      refine ⟨_, .effect rfl, ?_, Store.spares_write (m.length_read ..) hdst⟩
      rw [hfit, hvalue, Store.value, hread]
      rfl
    · rename_i hsame
      have heq : dst = src := by
        by_contra hne
        refine hsame ⟨hne, ?_⟩
        rcases prim_cases hq with rfl | rfl | rfl <;> decide
      subst heq
      exact ⟨m, .nil m, by rw [hfit, hvalue], Store.Spares.refl _ _ _⟩
  · rename_i hsize
    split
    · rename_i hint
      subst hint
      -- From eight bytes to one: the target is `char` or `byte`, which are encoded alike.
      have hchar : ∀ v, q.encode v = Prim.char.encode v := by
        intro v
        rcases prim_cases hq with rfl | rfl | rfl
        · exact absurd rfl hsize
        · rfl
        · rfl
      refine ⟨_, .effect rfl, ?_, Store.spares_write ?_ hdst⟩
      · dsimp only [Machine.conversion, id]
        rw [← hchar, Store.value_write_encode]
      · dsimp only [Machine.conversion, id]
        rw [← hchar, Prim.length_encode]
    · rename_i hint
      -- From one byte to eight: the target can only be `int`.
      have hq : q = .int := by
        rcases prim_cases hp with rfl | rfl | rfl
        · exact absurd rfl hint
        all_goals
          rcases prim_cases hq with rfl | rfl | rfl
          · rfl
          all_goals exact absurd rfl hsize
      subst hq
      have hchar : m.value .char src = m.value p src := by
        rcases prim_cases hp with rfl | rfl | rfl
        · exact absurd rfl hint
        · rfl
        · rfl
      refine ⟨_, .effect rfl, ?_, Store.spares_write (Prim.length_encode ..) hdst⟩
      dsimp only [Machine.conversion, id]
      rw [Store.value_write_encode, hchar]

/-! ## Steps with one operand -/

/-- The piece of code makes `f` of the value at `src` and leaves it in `slot`. Below `top` it
changes nothing but the destination. -/
structure Maps (u : Arithmetic) (dest : Option Slot) (top : Nat) (c c' : Compilation)
    (piece : List Instr) (src : Address) (p : Prim) (slot : Slot) (q : Prim)
    (f : Int64 → Int64) : Prop where
  adds : Adds c c' piece [] []
  integral : Integral c'.frame.top slot q
  runs : ∀ m, ∃ m', Runs u piece m m' ∧
    m'.value q slot.address = f (m.value p src) ∧ m.Spares top dest m'

theorem Computes.map {c₁ : Compilation} {s₁ s₂ : List Instr} {src slot : Slot} {p q : Prim}
    {top : Nat} {value : (String → Int64) → Int64} {f : Int64 → Int64}
    (h₁ : Computes u s limit dest c c₁ s₁ src p value)
    (h₂ : Maps u dest top c₁ c' s₂ src.address p slot q f) (htop : c.frame.top ≤ top) :
    Computes u s limit dest c c' (s₁ ++ s₂) slot q (fun env => f (value env)) where
  adds := h₁.adds.trans h₂.adds
  integral := h₂.integral
  runs m hm := by
    obtain ⟨m₁, hruns₁, hvalue₁, hspares₁⟩ := h₁.runs m (h₂.adds.inStore hm)
    obtain ⟨m₂, hruns₂, hvalue₂, hspares₂⟩ := h₂.runs m₁
    exact ⟨m₂, hruns₁.trans hruns₂, by rw [hvalue₂, hvalue₁], hspares₁.trans hspares₂ htop⟩

theorem Maps.trans {c₁ : Compilation} {s₁ s₂ : List Instr} {src : Address} {mid slot : Slot}
    {p q t : Prim} {top top' : Nat} {f g : Int64 → Int64} (h₁ : Maps u none top c c₁ s₁ src p mid q f)
    (h₂ : Maps u dest top' c₁ c' s₂ mid.address q slot t g) (htop : top ≤ top') :
    Maps u dest top c c' (s₁ ++ s₂) src p slot t (fun v => g (f v)) where
  adds := h₁.adds.trans h₂.adds
  integral := h₂.integral
  runs m := by
    obtain ⟨m₁, hruns₁, hvalue₁, hspares₁⟩ := h₁.runs m
    obtain ⟨m₂, hruns₂, hvalue₂, hspares₂⟩ := h₂.runs m₁
    exact ⟨m₂, hruns₁.trans hruns₂, by rw [hvalue₂, hvalue₁],
      (hspares₁.offer dest).trans hspares₂ htop⟩

/-- A value that stays where it is. -/
theorem Maps.stay {top : Nat} {slot : Slot} {p : Prim} (hadds : Adds c c' [] [] [])
    (h : Integral c.frame.top slot p) : Maps u dest top c c' [] slot.address p slot p id :=
  ⟨hadds, h.mono hadds.top, fun m => ⟨m, .nil m, rfl, .refl _ _ m⟩⟩

/-- Converting a value into a place that is good for results. -/
theorem maps_joinInto {top : Nat} {p q : Prim} {value slot : Slot} {span : Span} {v : Unit}
    (hvalue : Integral c.frame.top value p) (hslot : Integral c.frame.top slot q)
    (hdst : Writable top dest slot.address q) (h : Yields (joinInto value slot span) c v c') :
    ∃ piece, labels piece = [] ∧ c'.frame = c.frame.append piece ∧
      Maps u dest top c c' piece value.address p slot q q.fit := by
  simp only [joinInto, yields_bind] at h
  obtain ⟨k, c₁, hcheck, hconvert⟩ := h
  rw [hvalue.type, hslot.type] at hcheck
  obtain ⟨hk, hadds, hframe, _⟩ := yields_checkConversion hcheck
  rw [← hadds.registry] at hk
  have hc := yields_convertInto hvalue.integral hslot.integral hvalue.type hslot.type hk hconvert
  have hlabels := labels_convertCode p q slot.address value.address
  refine ⟨_, hlabels, by rw [hc, Compilation.add_frame, hframe], ?_⟩
  refine ⟨hadds.trans (.of_frame (n := 0) hc hlabels), ?_, ?_⟩
  · rw [hc, Compilation.add_frame, hframe]
    exact hslot
  · intro m
    exact runs_convertCode _ hvalue.integral hslot.integral hdst m

/-- Leaving a value in its destination. -/
theorem maps_settle {top : Nat} {p q : Prim} {value slot : Slot} {span : Span} {v : Unit}
    (hvalue : Integral c.frame.top value p) (hslot : Integral c.frame.top slot q)
    (hdst : Writable top dest slot.address q) (h : Yields (settle value slot span) c v c') :
    ∃ piece, labels piece = [] ∧ c'.frame = c.frame.append piece ∧
      Maps u dest top c c' piece value.address p slot q q.fit := by
  unfold settle at h
  split at h
  · rename_i heq
    rw [yields_pure] at h
    obtain ⟨_, rfl⟩ := h
    subst heq
    have hpq : p = q := Ty.prim.inj (hvalue.type.symm.trans hslot.type)
    subst hpq
    refine ⟨[], rfl, (Frame.append_nil _).symm, .nil _, hslot, ?_⟩
    intro m
    exact ⟨m, .nil m, (m.fit_value _ hvalue.integral (Nat.le_refl _)).symm, .refl _ _ m⟩
  · exact maps_joinInto hvalue hslot hdst h

/-- An integral value as a word. -/
theorem maps_coerce {p : Prim} {value slot : Slot} {span : Span}
    (hvalue : Integral c.frame.top value p) (h : Yields (coerce value .int span) c slot c') :
    ∃ piece, Maps u none c.frame.top c c' piece value.address p slot .int id := by
  simp only [coerce, yields_bind] at h
  obtain ⟨k, c₁, hcheck, h⟩ := h
  rw [hvalue.type] at hcheck
  obtain ⟨hk, hadds, hframe, _⟩ := yields_checkConversion hcheck
  have hkind := conversion_kind hvalue.integral (q := .int) rfl hk
  split at h
  · rename_i hexact
    rw [yields_pure] at h
    obtain ⟨rfl, rfl⟩ := h
    -- Among integral types a conversion to `int` is the identity from `int` only.
    have hp : p = .int := by
      by_contra hne
      have hidentity : k.kind = .identity := eq_of_beq hexact
      rw [hkind, if_neg hne] at hidentity
      split at hidentity <;> cases hidentity
    subst hp
    exact ⟨[], .stay hadds hvalue⟩
  · simp only [yields_bind, yields_allocFor, yields_pure, and_assoc, exists_and_left,
      exists_eq_left] at h
    obtain ⟨_, c₂, hconvert, rfl, rfl⟩ := h
    rw [← hadds.registry] at hk
    have hlabels := labels_convertCode p .int (.frame c₁.frame.top) value.address
    have hc := yields_convertInto hvalue.integral (q := .int) rfl hvalue.type rfl (by exact hk)
      hconvert
    refine ⟨_, (hadds.trans (adds_alloc c₁ _)).trans (.of_frame (n := 0) hc hlabels), ?_, ?_⟩
    · refine ⟨rfl, rfl, ?_⟩
      rw [hc]
      exact holds_top _ .int
    · intro m
      have hdst : Writable c.frame.top none (.frame c₁.frame.top) .int :=
        .inl ⟨_, rfl, Nat.le_of_eq (by rw [hframe])⟩
      obtain ⟨m', hruns, hvalue', hspares⟩ :=
        runs_convertCode (u := u) value.address hvalue.integral rfl hdst m
      exact ⟨m', hruns, by rw [hvalue', Prim.fit_int]; rfl, hspares⟩

theorem integral_ne_void {top : Nat} {value : Slot} {p : Prim} (h : Integral top value p) :
    value.type.isVoid = false := by
  rw [h.type]
  rcases prim_cases h.integral with rfl | rfl | rfl <;> rfl

theorem maps_condition {p : Prim} {value : Slot} {a : Address} {span : Span}
    (hvalue : Integral c.frame.top value p) (h : Yields (condition value span) c a c') :
    ∃ piece, Maps u none c.frame.top c c' piece value.address p ⟨.int, a⟩ .int id := by
  simp only [condition, integral_ne_void hvalue, Bool.false_eq_true, if_false, yields_bind,
    yields_pure] at h
  obtain ⟨slot, c₁, hcoerce, rfl, rfl⟩ := h
  obtain ⟨piece, hmaps⟩ := maps_coerce (u := u) hvalue hcoerce
  exact ⟨piece, hmaps.adds, ⟨rfl, rfl, hmaps.integral.holds⟩, hmaps.runs⟩

/-- An operator with one operand. -/
theorem maps_applyOne {op : OneOp} {src : Address} {slot : Slot}
    (hdest : Offered c.frame.top dest) (h : Yields (applyOne op src .int dest) c slot c') :
    ∃ piece, Maps u dest c.frame.top c c' piece src .int slot .int (oneOp u op) := by
  simp only [applyOne, yields_bind, yields_emit, yields_pure] at h
  obtain ⟨dst, c₁, hresult, _, c₂, rfl, rfl, rfl⟩ := h
  obtain ⟨hadds, hslot, hdst⟩ := resultAddress_spec (p := .int) rfl hdest hresult
  refine ⟨_, hadds.trans (adds_emit rfl), hslot, ?_⟩
  intro m
  refine ⟨_, .effect rfl, ?_, Store.spares_write (Prim.length_encode ..) hdst⟩
  rw [Store.value_write_encode, Prim.fit_int]
  rfl

theorem maps_applyIntegral {op : OneOp} {op' : UnaryOp} {p : Prim} {value slot : Slot}
    {span : Span} (hvalue : Integral c.frame.top value p) (hdest : Offered c.frame.top dest)
    (h : Yields (applyIntegral op op' value span dest) c slot c') :
    ∃ piece, Maps u dest c.frame.top c c' piece value.address p slot .int (oneOp u op) := by
  have hint : value.type.isIntegral = true := by
    rw [hvalue.type]
    exact hvalue.integral
  simp only [applyIntegral, hint, Bool.not_true, Bool.false_eq_true, if_false, yields_bind] at h
  obtain ⟨word, c₁, hcoerce, hone⟩ := h
  obtain ⟨s₁, hmaps₁⟩ := maps_coerce (u := u) hvalue hcoerce
  obtain ⟨s₂, hmaps₂⟩ := maps_applyOne (u := u) (hdest.mono hmaps₁.adds.top) hone
  exact ⟨_, hmaps₁.trans hmaps₂ hmaps₁.adds.top⟩

theorem maps_negate {p : Prim} {value slot : Slot} {span : Span}
    (hvalue : Integral c.frame.top value p) (hdest : Offered c.frame.top dest)
    (h : Yields (negate value span dest) c slot c') :
    ∃ piece, Maps u dest c.frame.top c c' piece value.address p slot .int (-·) := by
  have hfloat : value.type.isFloat = false := by
    rw [hvalue.type]
    rcases prim_cases hvalue.integral with rfl | rfl | rfl <;> rfl
  unfold negate at h
  rw [hfloat] at h
  exact maps_applyIntegral hvalue hdest h

/-- A cast between integral types. -/
theorem maps_castTo {p q : Prim} {value slot : Slot} {span : Span}
    (hvalue : Integral c.frame.top value p) (hq : q.isIntegral = true)
    (hdest : Offered c.frame.top dest) (h : Yields (castTo value (.prim q) span dest) c slot c') :
    ∃ piece, Maps u dest c.frame.top c c' piece value.address p slot q q.fit := by
  have hnumeric : ∀ {t : Prim}, t.isIntegral = true → (Ty.prim t).isNumeric = true := by
    intro t ht
    rcases prim_cases ht with rfl | rfl | rfl <;> rfl
  simp only [castTo, hvalue.type, yields_bind, yields_get, and_assoc, exists_and_left,
    exists_eq_left] at h
  split at h
  · rename_i hpq
    injection hpq with hpq
    subst hpq
    rw [yields_pure] at h
    obtain ⟨rfl, rfl⟩ := h
    refine ⟨[], .nil _, hvalue, ?_⟩
    intro m
    exact ⟨m, .nil m, (m.fit_value _ hq (Nat.le_refl _)).symm, .refl _ _ m⟩
  · rw [hnumeric hvalue.integral, hnumeric hq] at h
    simp only [Bool.and_self, if_true] at h
    split at h
    · exact absurd h yields_throw.mp
    · rename_i k hk
      simp only [yields_bind, yields_pure] at h
      obtain ⟨dst, c₁, hresult, _, c₂, hconvert, rfl, rfl⟩ := h
      obtain ⟨hadds, hslot, hdst⟩ := resultAddress_spec hq hdest hresult
      rw [← hadds.registry] at hk
      have hc := yields_convertInto hvalue.integral hq hvalue.type rfl hk hconvert
      have hlabels := labels_convertCode p q dst value.address
      refine ⟨_, hadds.trans (.of_frame (n := 0) hc hlabels), ?_, ?_⟩
      · rw [hc]
        exact hslot
      · intro m
        exact runs_convertCode _ hvalue.integral hq hdst m

/-! ## Steps with two operands -/

/-- An operator that is not lazy, on two integral values. -/
theorem runs_applyBinary {op : BinaryOp} {p q : Prim} {lhs rhs slot : Slot} {span : Span}
    (hl : Integral c.frame.top lhs p) (hr : Integral c.frame.top rhs q)
    (hdest : Offered c.frame.top dest)
    (h : Yields (applyBinary op lhs rhs span dest) c slot c') :
    ∃ piece, Adds c c' piece [] [] ∧ Integral c'.frame.top slot .int ∧
      ∀ m : Store, ∃ m', Runs u piece m m' ∧ m'.value .int slot.address =
        op.apply u (m.value p lhs.address) (m.value q rhs.address) ∧
        m.Spares c.frame.top dest m' := by
  have hkind : ∀ {v : Slot} {t : Prim}, Integral c.frame.top v t →
      v.type.isNumeric = true ∧ v.type.isFloat = false := by
    intro v t hv
    rw [hv.type]
    rcases prim_cases hv.integral with rfl | rfl | rfl <;> exact ⟨rfl, rfl⟩
  obtain ⟨hlnum, hlfloat⟩ := hkind hl
  obtain ⟨hrnum, hrfloat⟩ := hkind hr
  simp only [applyBinary, hlnum, hrnum, hlfloat, hrfloat, Bool.and_self, Bool.or_self, if_true,
    Bool.false_eq_true, if_false, yields_bind] at h
  obtain ⟨l, c₁, hcl, r, c₂, hcr, h⟩ := h
  obtain ⟨s₁, hmaps₁⟩ := maps_coerce (u := u) hl hcl
  obtain ⟨s₂, hmaps₂⟩ := maps_coerce (u := u) (hr.mono hmaps₁.adds.top) hcr
  simp only [applyInt, yields_bind, yields_emit, yields_pure] at h
  obtain ⟨dst, c₃, hresult, _, c₄, rfl, rfl, rfl⟩ := h
  have hadds₁₂ := hmaps₁.adds.trans hmaps₂.adds
  obtain ⟨hadds₃, hslot, hdst⟩ := resultAddress_spec (p := .int) rfl (hdest.mono hadds₁₂.top)
    hresult
  refine ⟨_, (hadds₁₂.trans hadds₃).trans (adds_emit rfl), hslot, ?_⟩
  intro m
  obtain ⟨m₁, hruns₁, hvalue₁, hspares₁⟩ := hmaps₁.runs m
  obtain ⟨m₂, hruns₂, hvalue₂, hspares₂⟩ := hmaps₂.runs m₁
  -- The first operand is still there when the second has been converted.
  have hleft : m₂.word l.address = m.value p lhs.address :=
    (hspares₂.value hmaps₁.integral.holds).trans hvalue₁
  have hright : m₂.word r.address = m.value q rhs.address :=
    hvalue₂.trans (hspares₁.value hr.holds)
  refine ⟨_, ((hruns₁.trans hruns₂).trans (.nil m₂)).trans (.effect rfl), ?_, ?_⟩
  · rw [Store.value_write_encode, Prim.fit_int, hleft, hright, BinaryOp.intOp_apply]
  · have hspares := hspares₁.trans hspares₂ hmaps₁.adds.top
    refine (hspares.offer dest).trans ?_ hadds₁₂.top
    exact Store.spares_write (Prim.length_encode ..) hdst

end ClassLang.Lowering
