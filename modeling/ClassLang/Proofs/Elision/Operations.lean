import ClassLang.Proofs.Elision.Conversion

/-!
# Operators on bytes

Where a result goes, and what operators, casts and pointers make of their operands. Operands are
read before the result is written, so the result may go where an operand is.
-/

namespace ClassLang.Elision

open CompileM Lowering Machine

variable {u : Arithmetic} {r : Registry} {dest : Option Slot} {c c₁ c₂ c' : Compilation}

/-! ## Where results go -/

/-- A step leaves a value of type `t` in a slot, which is fresh storage or the destination. -/
structure Produces (u : Arithmetic) (r : Registry) (dest : Option Slot) (c c' : Compilation)
    (piece : List Instr) (slot : Slot) (t : Ty) (value : Store → List UInt8) : Prop
    extends Maps u r dest c.frame.top c c' piece slot value where
  type : slot.type = t
  writable : slot.beyond c.frame.top ∨ slot ∈ dest
  below : slot.below r c'.frame.top

/-- A step gets a slot for a result without any code. -/
structure Receives (r : Registry) (dest : Option Slot) (c c' : Compilation) (slot : Slot) :
    Prop where
  grows : Grows c c' []
  literals : c'.literals = c.literals
  writable : slot.beyond c.frame.top ∨ slot ∈ dest
  below : slot.below r c'.frame.top

variable (dest) in
theorem receives_allocFor {t : Ty} {a : Address} (hr : c.registry = r)
    (h : Yields (allocFor t) c a c') : Receives r dest c c' ⟨t, a⟩ := by
  rw [yields_allocFor] at h
  obtain ⟨rfl, rfl⟩ := h
  refine ⟨.of_adds (adds_alloc c _), rfl, .inl ⟨_, rfl, Nat.le_refl _⟩, ?_⟩
  rw [hr]
  exact Slot.below_grow t _

theorem receives_resultAddress {t : Ty} {a : Address} (hr : c.registry = r)
    (hdest : ∀ d ∈ dest, d.below r c.frame.top) (h : Yields (resultAddress t dest) c a c') :
    Receives r dest c c' ⟨t, a⟩ := by
  unfold resultAddress at h
  cases dest with
  | none => exact receives_allocFor _ hr h
  | some d =>
    simp only [yields_bind, yields_get, and_assoc, exists_and_left, exists_eq_left] at h
    split at h
    · rename_i hcond
      have htype : d.type = t := of_decide_eq_true (Bool.and_eq_true_iff.mp hcond).2
      rw [yields_pure] at h
      obtain ⟨rfl, rfl⟩ := h
      subst htype
      exact ⟨.nil _, rfl, .inr rfl, hdest d rfl⟩
    · exact receives_allocFor _ hr h

/-- The result of one instruction. -/
theorem Receives.emit {slot : Slot} {i : Instr} {value : Store → List UInt8}
    (h : Receives r dest c c₁ slot) (hlen : ∀ m, (value m).length = r.length slot.type)
    (heffect : ∀ m, effect? u i m = some (m.write slot.address (value m))) :
    Produces u r dest c (c₁.add [i]) [i] slot slot.type value where
  toMaps := (Maps.emit h.writable hlen heffect).silent h.grows h.literals
  type := rfl
  writable := h.writable
  below := h.below

/-- A value that is made in fresh storage first. -/
theorem Produces.after {s₁ s₂ : List Instr} {mid slot : Slot} {t : Ty} {f : Store → List UInt8}
    {g : List UInt8 → List UInt8} (h₁ : Maps u r none c.frame.top c c₁ s₁ mid f)
    (h₂ : Produces u r dest c₁ c' s₂ slot t fun m => g (m.contents r mid)) :
    Produces u r dest c c' (s₁ ++ s₂) slot t fun m => g (f m) where
  toMaps := h₁.trans (h₂.toMaps.mono h₁.grows.top)
  type := h₂.type
  writable := h₂.writable.imp_left fun h => h.mono h₁.grows.top
  below := h₂.below

/-! ## Converted values -/

/-- Leaving a value, converted, in a slot that may be written. -/
theorem maps_joinInto {top : Nat} {value slot : Slot} {span : Span} {v : Unit}
    (hr : c.registry = r) (hslot : slot.beyond top ∨ slot ∈ dest) (htop : top ≤ c.frame.top)
    (hapart : value.apart r slot) (h : Yields (joinInto value slot span) c v c') :
    ∃ piece, Maps u r dest top c c' piece slot fun m =>
      converted u r value.type slot.type (m.contents r value) := by
  simp only [joinInto, yields_bind] at h
  obtain ⟨k, c₁, hcheck, hconvert⟩ := h
  obtain ⟨hk, hadds, hframe, hliterals⟩ := yields_checkConversion hcheck
  rw [hr] at hk
  obtain ⟨piece, hmaps⟩ := maps_convertInto (u := u) hk (hadds.registry.trans hr) hslot
    (by rw [hframe]; exact htop) hapart hconvert
  exact ⟨piece, hmaps.silent (.of_adds hadds) hliterals⟩

theorem maps_settle {top : Nat} {value slot : Slot} {span : Span} {v : Unit}
    (hr : c.registry = r) (hslot : slot.beyond top ∨ slot ∈ dest) (htop : top ≤ c.frame.top)
    (hapart : value.apart r slot) (h : Yields (settle value slot span) c v c') :
    ∃ piece, Maps u r dest top c c' piece slot fun m =>
      converted u r value.type slot.type (m.contents r value) := by
  unfold settle at h
  split at h
  · rename_i heq
    rw [yields_pure] at h
    obtain ⟨_, rfl⟩ := h
    subst heq
    simp only [converted_self]
    exact ⟨[], .stay _⟩
  · exact maps_joinInto hr hslot htop hapart h

/-- A value as one of another type, which is itself or fresh storage. -/
theorem maps_coerce {value slot : Slot} {target : Ty} {span : Span} (hr : c.registry = r)
    (hvalue : value.below r c.frame.top) (h : Yields (coerce value target span) c slot c') :
    slot.type = target ∧ slot.below r c'.frame.top ∧
      ∃ piece, Maps u r none c.frame.top c c' piece slot fun m =>
        converted u r value.type target (m.contents r value) := by
  simp only [coerce, yields_bind] at h
  obtain ⟨k, c₁, hcheck, h⟩ := h
  obtain ⟨hk, hadds, hframe, hliterals⟩ := yields_checkConversion hcheck
  rw [hr] at hk
  split at h
  · rename_i hexact
    -- A value of the right type stays where it is.
    have hkind : k.kind = .identity := eq_of_beq hexact
    have hsame := Registry.conversion?_lengths hk
    simp only [hkind] at hsame
    rw [yields_pure] at h
    obtain ⟨rfl, rfl⟩ := h
    refine ⟨hsame, hframe ▸ hvalue, [], ?_⟩
    rw [← hsame]
    simp only [converted_self]
    exact (Maps.stay _).silent (.of_adds hadds) hliterals
  · simp only [yields_bind, yields_pure] at h
    obtain ⟨a, c₂, halloc, _, c₃, hconvert, rfl, rfl⟩ := h
    have hreceives := receives_allocFor none (hadds.registry.trans hr) halloc
    rw [← hframe] at hvalue
    have hfresh : (⟨target, a⟩ : Slot).beyond c₁.frame.top :=
      hreceives.writable.resolve_right (Option.not_mem_none _)
    have hslot : (⟨target, a⟩ : Slot).beyond c₁.frame.top ∨ ⟨target, a⟩ ∈ (none : Option Slot) :=
      .inl hfresh
    obtain ⟨piece, hmaps⟩ := maps_convertInto (u := u) hk
      (hreceives.grows.registry.trans (hadds.registry.trans hr)) hslot
      hreceives.grows.top (hvalue.apart hfresh) hconvert
    refine ⟨rfl, hreceives.below.mono hmaps.grows.top, piece, ?_⟩
    rw [← hframe]
    exact (hmaps.silent hreceives.grows hreceives.literals).silent (.of_adds hadds) hliterals

/-- A value as a condition. -/
theorem maps_condition {value : Slot} {a : Address} {span : Span} (hr : c.registry = r)
    (hvalue : value.below r c.frame.top) (h : Yields (condition value span) c a c') :
    ∃ piece, Maps u r none c.frame.top c c' piece ⟨.int, a⟩ fun m =>
      converted u r value.type .int (m.contents r value) := by
  unfold condition at h
  split at h
  · simp only [yields_bind] at h
    obtain ⟨_, _, h, _⟩ := h
    exact absurd h yields_fail.mp
  · simp only [yields_bind, yields_pure] at h
    obtain ⟨slot, _, hcoerce, rfl, rfl⟩ := h
    obtain ⟨t, a⟩ := slot
    obtain ⟨rfl, _, hmaps⟩ := maps_coerce (u := u) hr hvalue hcoerce
    exact hmaps

/-- The bits of a pointer as a word. -/
theorem maps_asWord {value slot : Slot} (hr : c.registry = r) (hvalue : value.below r c.frame.top)
    (h : Yields (asWord value) c slot c') :
    slot.type = .int ∧ slot.below r c'.frame.top ∧
      ∃ piece, Maps u r none c.frame.top c c' piece slot fun m =>
        resized 8 (m.contents r value) := by
  simp only [asWord, yields_bind, yields_lengthOf, and_assoc, exists_and_left, exists_eq_left,
    hr] at h
  split at h
  · rename_i hlen
    rw [yields_pure] at h
    obtain ⟨rfl, rfl⟩ := h
    -- A pointer of eight bytes is read as it stands.
    have hspans : ∀ b, (⟨.int, value.address⟩ : Slot).spans r b → value.spans r b := by
      rintro b ⟨i, hi, rfl⟩
      exact ⟨i, by rw [hlen]; exact hi, rfl⟩
    refine ⟨rfl, fun b hb => hvalue b (hspans b hb), [], .nil _, rfl, fun m => ?_⟩
    refine ⟨m, .nil m, ?_, .refl _ _ _ m⟩
    rw [resized_of_length_eq (by rw [Store.length_contents, hlen]; rfl), Store.contents,
      Store.contents, hlen]
    rfl
  · simp only [yields_bind, yields_alloc, yields_emit, yields_move, yields_pure, and_assoc,
      exists_and_left, exists_eq_left] at h
    obtain ⟨rfl, _, _, rfl⟩ := h
    -- A shorter one is copied into a word of zeros.
    have hfresh : (⟨.int, .frame c.frame.top⟩ : Slot).beyond c.frame.top :=
      ⟨_, rfl, Nat.le_refl _⟩
    refine ⟨rfl, Slot.below_grow .int _, _, (Grows.of_adds (adds_alloc c _)).trans
      ((Grows.emit _ _).trans (grows_moveCode ..)), rfl, fun m => ?_⟩
    have hclear : Runs u [.imm (.frame c.frame.top) 0 Prim.int.size] m
        (m.write (.frame c.frame.top) (List.replicate 8 0)) := by
      refine .effect ?_
      rw [effect?, immediate_zero]
      rfl
    have hkept : (m.write (.frame c.frame.top) (List.replicate 8 0)).contents r value =
        m.contents r value :=
      (Store.Leaves.write_beyond (s := ⟨.int, .frame c.frame.top⟩) hfresh _).contents hvalue
    refine ⟨_, hclear.trans (runs_moveCode _ _ _ _), ?_, ?_⟩
    · rw [resized, ← hkept]
      exact Store.read_write_zeros ..
    · exact Store.Leaves.trans
        (Store.Leaves.write_beyond (s := ⟨.int, .frame c.frame.top⟩) hfresh _)
        (Store.Leaves.write_beyond (s := ⟨.int, .frame c.frame.top⟩) hfresh _) (Nat.le_refl _)

/-! ## Operators -/

/-- The word in a slot of eight bytes. -/
theorem word_eq {slot : Slot} (h : r.length slot.type = 8) (m : Store) :
    m.word slot.address = Bytes.word (m.contents r slot) := by
  rw [Store.contents, h]
  rfl

theorem length_encode_int (w : Int64) : (Prim.int.encode w).length = 8 := Prim.length_encode ..

/-- An operator with one operand. -/
theorem produces_applyOne {op : OneOp} {value slot : Slot} {t : Ty} (hr : c.registry = r)
    (hvalue : r.length value.type = 8) (ht : r.length t = 8)
    (hdest : ∀ d ∈ dest, d.below r c.frame.top)
    (h : Yields (applyOne op value.address t dest) c slot c') :
    ∃ piece, Produces u r dest c c' piece slot t fun m =>
      Prim.int.encode (oneOp u op (Bytes.word (m.contents r value))) := by
  simp only [applyOne, yields_bind, yields_emit, yields_pure] at h
  obtain ⟨dst, c₁, hresult, _, _, rfl, rfl, rfl⟩ := h
  have hreceives := receives_resultAddress hr hdest hresult
  refine ⟨_, hreceives.emit (fun m => ?_) fun m => ?_⟩
  · rw [length_encode_int]
    exact ht.symm
  · rw [← word_eq hvalue]
    rfl

theorem produces_applyIntegral {op : OneOp} {op' : UnaryOp} {value slot : Slot} {span : Span}
    (hr : c.registry = r) (hvalue : value.below r c.frame.top)
    (hdest : ∀ d ∈ dest, d.below r c.frame.top)
    (h : Yields (applyIntegral op op' value span dest) c slot c') :
    ∃ piece, Produces u r dest c c' piece slot .int fun m =>
      Prim.int.encode (oneOp u op (Bytes.word
        (converted u r value.type .int (m.contents r value)))) := by
  unfold applyIntegral at h
  split at h
  · simp only [yields_bind] at h
    obtain ⟨_, _, _, _, _, h, _⟩ := h
    exact absurd h yields_fail.mp
  · simp only [yields_bind] at h
    obtain ⟨word, c₁, hcoerce, hone⟩ := h
    obtain ⟨htype, _, s₁, hmaps⟩ := maps_coerce (u := u) hr hvalue hcoerce
    obtain ⟨s₂, hproduces⟩ := produces_applyOne (u := u) (hmaps.grows.registry.trans hr)
      (by rw [htype]; rfl) rfl (fun d hd => (hdest d hd).mono hmaps.grows.top) hone
    exact ⟨_, hproduces.after (g := fun bs => Prim.int.encode (oneOp u op (Bytes.word bs))) hmaps⟩

/-- What negation makes of the bytes of a number. -/
def negated (u : Arithmetic) (r : Registry) (t : Ty) (bs : List UInt8) : List UInt8 :=
  if t.isFloat then Prim.int.encode (u.floatNeg (Bytes.word bs))
  else Prim.int.encode (-Bytes.word (converted u r t .int bs))

theorem produces_negate {value slot : Slot} {span : Span} (hr : c.registry = r)
    (hvalue : value.below r c.frame.top) (hdest : ∀ d ∈ dest, d.below r c.frame.top)
    (h : Yields (negate value span dest) c slot c') :
    ∃ piece, Produces u r dest c c' piece slot (if value.type.isFloat then .float else .int)
      fun m => negated u r value.type (m.contents r value) := by
  unfold negate at h
  unfold negated
  split at h
  · rename_i hfloat
    have htype : value.type = .float := eq_of_beq hfloat
    obtain ⟨piece, hproduces⟩ := produces_applyOne (u := u) hr (by rw [htype]; rfl) rfl hdest h
    simp only [hfloat, if_true]
    exact ⟨piece, hproduces⟩
  · rename_i hfloat
    obtain ⟨piece, hproduces⟩ := produces_applyIntegral (u := u) hr hvalue hdest h
    simp only [hfloat]
    exact ⟨piece, hproduces⟩

/-- An instruction on two words, which are made of the operands first. The first is still there
when the second has been made. -/
theorem produces_operation {s₁ s₂ : List Instr} {left right lhs rhs : Slot} {t : Ty}
    {dst : Address} {i : Instr} {f g : List UInt8 → List UInt8} {op : Int64 → Int64 → Int64}
    (hr : c.registry = r) (hdest : ∀ d ∈ dest, d.below r c.frame.top)
    (hright : right.below r c.frame.top)
    (hl : lhs.type = t ∧ lhs.below r c₁.frame.top ∧
      Maps u r none c.frame.top c c₁ s₁ lhs fun m => f (m.contents r left))
    (hrhs : rhs.type = t ∧ Maps u r none c₁.frame.top c₁ c₂ s₂ rhs fun m => g (m.contents r right))
    (ht : r.length t = 8) {result : Ty} (hlen : r.length result = 8)
    (hresult : Yields (resultAddress result dest) c₂ dst c')
    (heffect : ∀ m, effect? u i m = some (m.write dst
      (Prim.int.encode (op (m.word lhs.address) (m.word rhs.address))))) :
    Produces u r dest c (c'.add [i]) (s₁ ++ (s₂ ++ [i])) ⟨result, dst⟩ result fun m =>
      Prim.int.encode (op (Bytes.word (f (m.contents r left)))
        (Bytes.word (g (m.contents r right)))) := by
  obtain ⟨hltype, hlbelow, hl⟩ := hl
  obtain ⟨hrtype, hrhs⟩ := hrhs
  have hgrows := hl.grows.trans hrhs.grows
  have hreceives := receives_resultAddress (hgrows.registry.trans hr)
    (fun d hd => (hdest d hd).mono hgrows.top) hresult
  have hproduces : Produces u r dest c₂ (c'.add [i]) [i] ⟨result, dst⟩ result fun m =>
      Prim.int.encode (op (m.word lhs.address) (m.word rhs.address)) :=
    hreceives.emit (fun m => by rw [length_encode_int]; exact hlen.symm) heffect
  refine ⟨⟨hl.grows.trans (hrhs.grows.trans hproduces.grows),
    hproduces.literals.trans (hrhs.literals.trans hl.literals), fun m => ?_⟩, rfl,
    hproduces.writable.imp_left fun h => h.mono hgrows.top, hproduces.below⟩
  -- Each step leaves what lies below its own frame: the right operand, then the word of the left.
  obtain ⟨m₁, hruns₁, hvalue₁, hleaves₁⟩ := hl.runs m
  obtain ⟨m₂, hruns₂, hvalue₂, hleaves₂⟩ := hrhs.runs m₁
  obtain ⟨m₃, hruns₃, hvalue₃, hleaves₃⟩ := hproduces.runs m₂
  refine ⟨m₃, hruns₁.trans (hruns₂.trans hruns₃), ?_, ?_⟩
  · rw [hvalue₃, word_eq (by rw [hltype]; exact ht), word_eq (by rw [hrtype]; exact ht), hvalue₂,
      hleaves₂.contents hlbelow, hvalue₁, hleaves₁.contents hright]
  · exact ((hleaves₁.trans hleaves₂ hl.grows.top).offer dest).trans hleaves₃ hgrows.top

/-- What an operator that is not lazy makes of the bytes of two values. -/
def operated (u : Arithmetic) (r : Registry) (op : BinaryOp) (s t : Ty) (xs ys : List UInt8) :
    List UInt8 :=
  if s.isNumeric && t.isNumeric then
    if s.isFloat || t.isFloat then
      match op.floatOp? with
      | some f => Prim.int.encode (u.float f (Bytes.word (converted u r s .float xs))
          (Bytes.word (converted u r t .float ys)))
      | none => []
    else Prim.int.encode (intOp u op.intOp (Bytes.word (converted u r s .int xs))
      (Bytes.word (converted u r t .int ys)))
  else Prim.int.encode (intOp u op.intOp (Bytes.word (resized 8 xs)) (Bytes.word (resized 8 ys)))

/-- The type of the result of such an operator. -/
def operationType (op : BinaryOp) (s t : Ty) : Ty :=
  if s.isNumeric && t.isNumeric && (s.isFloat || t.isFloat) &&
    !op.floatOp?.any FloatOp.isComparison then .float else .int

theorem length_operationType (r : Registry) (op : BinaryOp) (s t : Ty) :
    r.length (operationType op s t) = 8 := by
  unfold operationType
  split <;> rfl

theorem produces_applyBinary {op : BinaryOp} {lhs rhs slot : Slot} {span : Span}
    (hr : c.registry = r) (hl : lhs.below r c.frame.top) (hrhs : rhs.below r c.frame.top)
    (hdest : ∀ d ∈ dest, d.below r c.frame.top)
    (h : Yields (applyBinary op lhs rhs span dest) c slot c') :
    ∃ piece, Produces u r dest c c' piece slot (operationType op lhs.type rhs.type) fun m =>
      operated u r op lhs.type rhs.type (m.contents r lhs) (m.contents r rhs) := by
  unfold applyBinary at h
  unfold operated operationType
  split at h
  · rename_i hnumeric
    simp only [hnumeric, if_true, Bool.true_and]
    split at h
    · -- On floats.
      rename_i hfloat
      simp only [hfloat, if_true, Bool.true_and]
      unfold applyFloat at h
      split at h
      · exact absurd h yields_fail.mp
      · rename_i f hf
        simp only [hf, Option.any_some]
        simp only [yields_bind, yields_emit, yields_pure] at h
        obtain ⟨l, c₁, hcl, x, c₂, hcr, dst, c₃, hresult, _, _, rfl, rfl, rfl⟩ := h
        obtain ⟨hltype, hlbelow, s₁, hl⟩ := maps_coerce (u := u) hr hl hcl
        obtain ⟨hrtype, _, s₂, hmaps⟩ := maps_coerce (u := u) (hl.grows.registry.trans hr)
          (hrhs.mono hl.grows.top) hcr
        have htype : (if f.isComparison then Ty.int else Ty.float) =
            if !f.isComparison then Ty.float else Ty.int := by
          cases f.isComparison <;> rfl
        rw [htype] at hresult ⊢
        refine ⟨_, produces_operation hr hdest hrhs ⟨hltype, hlbelow, hl⟩ ⟨hrtype, hmaps⟩ rfl ?_
          hresult fun m => rfl⟩
        cases f.isComparison <;> rfl
    · -- On integers.
      rename_i hfloat
      have hfloat := Bool.eq_false_iff.mpr hfloat
      simp only [hfloat, Bool.false_eq_true, if_false, Bool.false_and]
      simp only [applyInt, yields_bind, yields_emit, yields_pure] at h
      obtain ⟨l, c₁, hcl, x, c₂, hcr, dst, c₃, hresult, _, _, rfl, rfl, rfl⟩ := h
      obtain ⟨hltype, hlbelow, s₁, hl⟩ := maps_coerce (u := u) hr hl hcl
      obtain ⟨hrtype, _, s₂, hmaps⟩ := maps_coerce (u := u) (hl.grows.registry.trans hr)
        (hrhs.mono hl.grows.top) hcr
      exact ⟨_, produces_operation hr hdest hrhs ⟨hltype, hlbelow, hl⟩ ⟨hrtype, hmaps⟩ rfl rfl
        hresult fun m => rfl⟩
  · rename_i hnumeric
    have hnumeric := Bool.eq_false_iff.mpr hnumeric
    simp only [hnumeric, Bool.false_eq_true, if_false, Bool.false_and]
    split at h
    · -- On pointers.
      simp only [applyInt, yields_bind, yields_emit, yields_pure] at h
      obtain ⟨l, c₁, hcl, x, c₂, hcr, dst, c₃, hresult, _, _, rfl, rfl, rfl⟩ := h
      obtain ⟨hltype, hlbelow, s₁, hl⟩ := maps_asWord (u := u) hr hl hcl
      obtain ⟨hrtype, _, s₂, hmaps⟩ := maps_asWord (u := u) (hl.grows.registry.trans hr)
        (hrhs.mono hl.grows.top) hcr
      exact ⟨_, produces_operation hr hdest hrhs ⟨hltype, hlbelow, hl⟩ ⟨hrtype, hmaps⟩ rfl rfl
        hresult fun m => rfl⟩
    · simp only [yields_bind] at h
      obtain ⟨_, _, _, h⟩ := h
      exact absurd h yields_fail.mp

/-- What a cast makes of the bytes of a value. -/
def casted (u : Arithmetic) (r : Registry) (s t : Ty) (bs : List UInt8) : List UInt8 :=
  if s.isNumeric && t.isNumeric then converted u r s t bs else resized (r.length t) bs

/-- A cast to the type that a value has leaves it where it is. -/
theorem produces_castTo {value slot : Slot} {t : Ty} {span : Span} (hr : c.registry = r)
    (hvalue : value.below r c.frame.top) (hdest : ∀ d ∈ dest, d.below r c.frame.top)
    (hapart : ∀ d ∈ dest, value.apart r d) (h : Yields (castTo value t span dest) c slot c') :
    (value.type = t ∧ slot = value ∧ c' = c) ∨ value.type ≠ t ∧
      ∃ piece, Produces u r dest c c' piece slot t fun m =>
        casted u r value.type t (m.contents r value) := by
  simp only [castTo, yields_bind, yields_get, and_assoc, exists_and_left, exists_eq_left] at h
  -- The result is in fresh storage or in a destination, apart from the value in both cases.
  have hresult : ∀ {a c₁}, Yields (resultAddress t dest) c a c₁ →
      Receives r dest c c₁ ⟨t, a⟩ ∧ value.apart r ⟨t, a⟩ := by
    intro a c₁ h
    have hreceives := receives_resultAddress hr hdest h
    exact ⟨hreceives, hreceives.writable.elim hvalue.apart (hapart _)⟩
  split at h
  · rename_i htype
    rw [yields_pure] at h
    exact .inl ⟨htype, h⟩
  · rename_i htype
    refine .inr ⟨htype, ?_⟩
    unfold casted
    split at h
    · rename_i hnumeric
      simp only [hnumeric, if_true]
      split at h
      · exact absurd h yields_throw.mp
      · rename_i k hk
        simp only [yields_bind, yields_pure] at h
        obtain ⟨dst, c₁, hres, _, c₂, hconvert, rfl, rfl⟩ := h
        obtain ⟨hreceives, hapart⟩ := hresult hres
        obtain ⟨piece, hmaps⟩ := maps_convertInto (u := u) (hr ▸ hk)
          (hreceives.grows.registry.trans hr) hreceives.writable hreceives.grows.top hapart hconvert
        exact ⟨piece, hmaps.silent hreceives.grows hreceives.literals, rfl, hreceives.writable,
          hreceives.below.mono hmaps.grows.top⟩
    · rename_i hnumeric
      have hnumeric := Bool.eq_false_iff.mpr hnumeric
      simp only [hnumeric, Bool.false_eq_true, if_false]
      split at h
      · simp only [yields_bind, yields_pure] at h
        obtain ⟨dst, c₁, hres, _, c₂, hcopy, rfl, rfl⟩ := h
        obtain ⟨hreceives, hapart⟩ := hresult hres
        rw [hr] at hcopy
        obtain ⟨piece, hmaps⟩ := maps_copyBits (u := u) hreceives.writable
          (fun _ => hapart.resolve_left fun heq => htype (congrArg Slot.type heq)) hcopy
        exact ⟨piece, hmaps.silent hreceives.grows hreceives.literals, rfl, hreceives.writable,
          hreceives.below.mono hmaps.grows.top⟩
      · exact absurd h yields_fail.mp

end ClassLang.Elision
