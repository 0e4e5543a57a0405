import ClassLang.Lowering.Expr
import ClassLang.Proofs.Ty.Lengths
import ClassLang.Proofs.Writes.Judgement

/-!
# The steps of expressions are confined

A step that computes something writes into the destination that it is offered or into fresh storage,
and a call writes into the frame of the callee, which starts where the frame of the caller ends. So
a value of a class type is either in storage that may be written, or it is at home in a variable.
-/

-- The instances of long steps are large terms.
set_option synthInstance.maxSize 1000

namespace ClassLang

open CompileM Lowering

/-- Storage of a variable in which a place may be, and whether it is constant as that place. -/
structure Home where
  slot : Slot
  isConst : Bool
  deriving DecidableEq

/-- The storage of the variable that a name stands for. -/
def Scopes.homes (s : Scopes) (name : String) : List Home :=
  match (s.find? name).map Entry.meaning with
  | some (.variable b) => [⟨⟨b.type, b.address⟩, b.isConst⟩]
  | _ => []

/-- A field of the object that has its home there. -/
def Registry.fieldHome? (r : Registry) (name : String) (h : Home) : Option Home :=
  if h.slot.type.isClassLike then
    (r.field? h.slot.type name).map fun (offset, type) =>
      ⟨⟨type, h.slot.address.shift offset⟩, h.isConst⟩
  else none

namespace Area

variable (A : Area)

/-- A destination that is offered lies in the area. -/
def Takes (dest : Option Slot) : Prop := ∀ d, dest = some d → A.Offers d

/-- A value of a class type lies in the area. -/
def Owns (s : Slot) : Prop := s.type.isClassLike = true → A.Offers s

/-- A place that is fixed lies in the area or has its home there. -/
def Lies (hs : List Home) (p : Place) : Prop :=
  ∀ a, p.location = .fixed a → A.Offers ⟨p.type, a⟩ ∨ ⟨⟨p.type, a⟩, p.isConst⟩ ∈ hs

variable {A}

theorem takes_none : A.Takes none := fun _ h => by cases h

theorem takes_some {d : Slot} (h : A.Offers d) : A.Takes (some d) := fun _ hd => Option.some.inj hd ▸ h

theorem Free.offers {t : Ty} {a : Address} (h : A.Free a) : A.Offers ⟨t, a⟩ := h.allows

theorem Offers.owns {s : Slot} (h : A.Offers s) : A.Owns s := fun _ => h

theorem owns_of_plain {s : Slot} (h : s.type.isClassLike = false) : A.Owns s :=
  fun hs => by rw [h] at hs; cases hs

/-- What may be written of an object may be written of its fields. -/
theorem offers_field (A : Area) {name : String} {h h' : Home}
    (hfield : A.registry.fieldHome? name h = some h') :
    h'.isConst = h.isConst ∧ (A.Offers h.slot → A.Offers h'.slot) := by
  unfold Registry.fieldHome? at hfield
  split at hfield
  · obtain ⟨⟨offset, type⟩, hf, rfl⟩ := Option.map_eq_some_iff.mp hfield
    exact ⟨rfl, fun hoffers => A.field hoffers hf⟩
  · cases hfield

end Area

namespace Confined

variable {A : Area} {dest : Option Slot}

/-! ## Values -/

theorem move {dst src : Address} {n : Nat} (h : A.Allows (dst, n)) :
    Confined A (move dst src n) fun _ => True := by
  unfold Lowering.move
  split
  · exact writes h rfl rfl
  · exact pure trivial

theorem copyBits {dst src : Address} {n k : Nat} (h : A.Allows (dst, k)) :
    Confined A (copyBits dst src n k) fun _ => True := by
  have hmove : Confined A (Lowering.move dst src (min n k)) fun _ => True :=
    move (A.shorter h (Nat.min_le_right ..))
  unfold Lowering.copyBits
  split
  · exact writes_bind h rfl rfl hmove
  · exact hmove

theorem checkConversion {source target : Ty} {span : Span} :
    Confined A (checkConversion source target span) fun k =>
      A.registry.conversion? source target = some k := by
  unfold Lowering.checkConversion
  refine get_bind fun c hc => ?_
  dsimp only
  rw [hc.registry]
  split
  · exact fail
  · rename_i k hk
    split
    · exact warn.bind fun _ _ => pure hk
    · exact pure hk

/-- A conversion writes no more bytes than the target type has. -/
theorem convertInto {value slot : Slot} {k : Conversion}
    (hk : A.registry.conversion? value.type slot.type = some k) (hslot : A.Offers slot) :
    Confined A (convertInto value slot k) fun _ => True := by
  have hlengths := Registry.conversion?_lengths hk
  have hone : ∀ (op : ConvertOp) {src : Address}, op.sizes.2 ≤ A.registry.length slot.type →
      Confined A (CompileM.emit (.convert op slot.address src)) fun _ => True :=
    fun op _ hle => writes (A.shorter hslot hle) rfl rfl
  unfold Lowering.convertInto
  refine lengthOf_bind (lengthOf_bind ?_)
  dsimp only
  cases hkind : k.kind
  all_goals simp only [hkind] at hlengths ⊢
  case identity | charByte => exact move hslot
  case intWiden => exact hone .charToInt (Nat.le_of_eq hlengths.2.symm)
  case intNarrow => exact hone .intToChar (Nat.le_of_eq hlengths.2.symm)
  case intToFloat =>
    have hfloat := Nat.le_of_eq hlengths.2.symm
    split
    · exact hone .intToFloat hfloat
    · -- A narrow integer is widened in place first.
      exact (hone .charToInt hfloat).bind fun _ _ => hone .intToFloat hfloat
  case floatToInt =>
    split
    · rename_i hwide
      exact hone .floatToInt (Nat.le_of_eq hwide.symm)
    · -- A narrow integer is cut out of a wide one that is put into fresh storage.
      rename_i hnarrow
      refine alloc.bind fun wide hwide => writes_bind hwide.allows rfl rfl ?_
      exact hone .intToChar (Nat.le_of_eq (hlengths.2.resolve_left hnarrow).symm)
  all_goals exact copyBits hslot

/-- A value that needs no conversion stays where it is. -/
theorem coerce {value : Slot} {target : Ty} {span : Span} :
    Confined A (coerce value target span) fun s => s = value ∨ A.Offers s := by
  unfold Lowering.coerce
  refine checkConversion.bind fun k hk => ?_
  split
  · exact pure (.inl rfl)
  · refine allocFor.bind fun a ha => ?_
    exact (convertInto hk ha.offers).bind fun _ _ => pure (.inr ha.offers)

theorem settle {value slot : Slot} {span : Span} (h : A.Offers slot) :
    Confined A (settle value slot span) fun _ => True := by
  unfold Lowering.settle
  split
  · exact pure trivial
  · exact checkConversion.bind fun k hk => convertInto hk h

theorem asWord {value : Slot} : Confined A (asWord value) fun _ => True := by
  unfold Lowering.asWord
  refine lengthOf_bind ?_
  split
  · exact pure trivial
  · refine alloc.bind fun dst hdst => writes_bind hdst.allows rfl rfl ?_
    exact (move hdst.allows).bind fun _ _ => pure trivial

theorem condition {value : Slot} {span : Span} :
    Confined A (condition value span) fun _ => True := by
  unfold Lowering.condition
  split
  · exact fail_bind
  · exact coerce.bind fun _ _ => pure trivial

theorem requireValue {e : Expr} {value : Slot} :
    Confined A (requireValue e value) (· = value) := by
  unfold Lowering.requireValue
  split
  · exact fail_bind
  · exact pure rfl

theorem resultAddress {t : Ty} (hdest : A.Takes dest) :
    Confined A (resultAddress t dest) fun a => A.Offers ⟨t, a⟩ := by
  unfold Lowering.resultAddress
  split
  · rename_i d
    refine get_bind fun c _ => ?_
    split
    · rename_i hd
      simp only [Bool.and_eq_true, decide_eq_true_eq] at hd
      exact pure (hd.2 ▸ hdest d rfl)
    · exact allocFor.mono fun _ h => h.offers
  · exact allocFor.mono fun _ h => h.offers

theorem spill {reg : Register} : Confined A (spill reg) A.Free := by
  unfold Lowering.spill
  refine pointerSize_bind (alloc.bind fun slot hslot => ?_)
  exact writes_bind hslot.allows rfl rfl (pure hslot)

/-! ## Places -/

/-- The value of a fixed place is read where it is. -/
theorem read {p : Place} (hdest : A.Takes dest) :
    Confined A (read dest p) fun s => A.Offers s ∨ ∃ a, p.location = .fixed a ∧ s = ⟨p.type, a⟩ := by
  unfold Lowering.read
  split
  · rename_i a ha
    exact pure (.inr ⟨a, ha, rfl⟩)
  · refine (resultAddress hdest).bind fun dst hdst => lengthOf_bind ?_
    refine Confined.bind (Q := fun _ => True) (withRegister fun reg => ?_) fun _ _ => pure (.inl hdst)
    exact silent_bind (fun _ => rfl) (writes hdst rfl rfl)

theorem storeThrough {pointer : Address} {offset : Nat} {value : Slot} :
    Confined A (storeThrough pointer offset value) fun _ => True := by
  unfold Lowering.storeThrough
  refine lengthOf_bind (withRegister fun reg => ?_)
  exact silent_bind (fun _ => rfl) (silent fun _ => rfl)

theorem pointTo {reg : Register} {l : Location} : Confined A (pointTo reg l) fun _ => True := by
  unfold Lowering.pointTo
  split
  · exact silent fun _ => rfl
  · refine silent_bind (fun _ => rfl) ?_
    split
    · exact silent fun _ => rfl
    · exact pure trivial

theorem addressOf {p : Place} (hdest : A.Takes dest) : Confined A (addressOf dest p) A.Offers := by
  unfold Lowering.addressOf
  refine withRegister fun reg => pointTo.bind fun _ _ => ?_
  refine (resultAddress hdest).bind fun dst hdst => ?_
  exact writes_bind hdst rfl rfl (pure hdst)

theorem tagObject {object : Slot} : Confined A (tagObject object) fun _ => True := by
  unfold Lowering.tagObject
  refine reads_bind fun id => withRegister fun reg => ?_
  exact silent_bind (fun _ => rfl) (silent fun _ => rfl)

theorem fieldOf {t : Ty} {member : Ident} : Confined A (fieldOf t member) fun f =>
    A.registry.field? t member.name = some f := by
  unfold Lowering.fieldOf
  refine get_bind fun c hc => ?_
  dsimp only
  rw [hc.registry]
  split
  · rename_i f hf
    exact pure hf
  · exact fail

/-- A field lies where its object does; that of an object behind a pointer is not fixed. -/
theorem fieldPlace {object : Place} {member : Ident} :
    Confined A (fieldPlace object member) fun p =>
      ∀ hs, (object.type.isClassLike = true → A.Lies hs object) →
        A.Lies (hs.filterMap (A.registry.fieldHome? member.name)) p := by
  unfold Lowering.fieldPlace
  split
  · rename_i hclass
    refine fieldOf.bind ?_
    rintro ⟨offset, type⟩ hf
    refine pure fun hs h a ha => ?_
    cases hl : object.location with
    | fixed b =>
      rw [hl] at ha
      injection ha with ha
      subst ha
      refine (h hclass b hl).imp (fun hoffers => A.field hoffers hf) fun hhome => ?_
      refine List.mem_filterMap.mpr ⟨_, hhome, ?_⟩
      simp only [Registry.fieldHome?, hclass, if_true, hf, Option.map_some]
    | through pointer k =>
      rw [hl] at ha
      cases ha
  · split
    · refine fieldOf.bind ?_
      rintro ⟨offset, type⟩ _
      exact (read A.takes_none).bind fun pointer _ => pure fun _ _ _ ha => by cases ha
    · exact reads_bind fun _ => fail

theorem pointeePlace {pointer : Slot} {span : Span} :
    Confined A (pointeePlace pointer span) (A.Lies []) := by
  unfold Lowering.pointeePlace
  split
  · dsimp only
    split
    · exact reads_bind fun _ => fail_bind
    · exact pure fun _ ha => by cases ha
  · exact reads_bind fun _ => fail

theorem pointToElement {reg : Register} {array position : Address} {n : Nat} :
    Confined A (pointToElement reg array position n) fun _ => True := by
  unfold Lowering.pointToElement
  exact silent_bind (fun _ => rfl) (silent fun _ => rfl)

theorem elementPlace {array : Slot} {element : Ty} {position : Slot} {span : Span} :
    Confined A (elementPlace array element position span) (A.Lies []) := by
  unfold Lowering.elementPlace
  split
  · exact reads_bind fun _ => fail_bind
  · refine coerce.bind fun position _ => lengthOf_bind ?_
    refine Confined.bind (Q := fun _ => True) (withRegister fun reg => ?_) fun _ _ =>
      pure fun _ ha => by cases ha
    exact pointToElement.bind fun _ _ => spill.weaken

theorem functionPointer {t : Ty} {mangled : String} :
    Confined A (functionPointer t mangled) A.Offers := by
  unfold Lowering.functionPointer
  refine pointerSize_bind (alloc.bind fun dst hdst => ?_)
  exact writes_bind hdst.allows rfl rfl (pure hdst.offers)

theorem meaning? {name : String} : Confined A (meaning? name) fun d =>
    d = (A.scopes.find? name).map Entry.meaning :=
  get_bind fun _ hc => pure (hc.scopes ▸ rfl)

theorem meaning {name : String} {span : Span} : Confined A (meaning name span) fun d =>
    (A.scopes.find? name).map Entry.meaning = some d := by
  unfold Lowering.meaning
  refine meaning?.bind fun d hd => ?_
  split
  · exact pure hd.symm
  · split
    · exact fail
    · exact fail

/-- A variable has its home where it is, anything else gets fresh storage. -/
theorem namePlace {name : String} {span : Span} : Confined A (namePlace name span) fun p =>
    (∃ a, p.location = .fixed a) ∧ A.Lies (A.scopes.homes name) p := by
  unfold Lowering.namePlace
  refine meaning.bind fun d hd => ?_
  split
  · refine pure ⟨⟨_, rfl⟩, fun a ha => .inr ?_⟩
    injection ha with ha
    simp only [Scopes.homes, hd, ← ha]
    exact List.mem_singleton_self _
  · refine Confined.bind (Q := A.Offers) ?_ fun s hs => pure ⟨⟨_, rfl⟩, fun a ha => .inl ?_⟩
    · unfold Lowering.functionValue
      split
      · exact reads_bind fun s => functionPointer
      · exact fail
    · injection ha with ha
      exact ha ▸ hs
  all_goals exact fail

/-- The receiver has its home in a variable, but is constant as a place. -/
theorem receiverPlace {span : Span} : Confined A (receiverPlace span)
    (A.Lies ((A.scopes.homes "this").map fun h => ⟨h.slot, true⟩)) := by
  have hbinding : Confined A (receiverBinding span) fun b =>
      ⟨⟨b.type, b.address⟩, b.isConst⟩ ∈ A.scopes.homes "this" := by
    unfold Lowering.receiverBinding
    refine get_bind fun c hc => ?_
    split
    · exact fail_bind
    · refine meaning?.bind fun d hd => ?_
      split
      · refine pure ?_
        simp only [Scopes.homes, ← hd]
        exact List.mem_singleton_self _
      · exact fail
  unfold Lowering.receiverPlace
  refine hbinding.bind fun b hb => pure fun a ha => .inr ?_
  injection ha with ha
  exact ha ▸ List.mem_map_of_mem hb

theorem literalSlot {l : Literal} : Confined A (literalSlot l) A.Owns := by
  unfold Lowering.literalSlot
  refine intern.bind fun a _ => ?_
  split
  case h_4 =>
    refine Confined.bind (Q := fun _ => True) (withRegister fun reg => ?_) fun _ _ =>
      pure (A.owns_of_plain rfl)
    exact silent_bind (fun _ => rfl) spill.weaken
  all_goals exact pure (A.owns_of_plain rfl)

theorem writePlace {p : Place} {leave : Slot → CompileM Unit} {stored : CompileM Slot}
    {Q : Slot → Prop} (hp : ∀ a, p.location = .fixed a → A.Offers ⟨p.type, a⟩)
    (hleave : ∀ s, A.Offers s → Confined A (leave s) fun _ => True)
    (hstored : Confined A stored Q) :
    Confined A (writePlace p leave stored) fun s =>
      A.Offers s ∨ (∀ a, p.location ≠ .fixed a) ∧ Q s := by
  unfold Lowering.writePlace
  split
  · rename_i a ha
    have ha := hp a ha
    exact (hleave _ ha).bind fun _ _ => pure (.inl ha)
  · rename_i pointer offset hl
    refine hstored.bind fun value hvalue => storeThrough.bind fun _ _ => ?_
    refine pure (.inr ⟨fun a ha => ?_, hvalue⟩)
    rw [hl] at ha
    cases ha

/-! ## Operators and joins -/

theorem applyOne {op : OneOp} {src : Address} {t : Ty} (hdest : A.Takes dest)
    (ht : A.registry.length t = Prim.int.size) : Confined A (applyOne op src t dest) A.Owns := by
  unfold Lowering.applyOne
  refine (resultAddress hdest).bind fun dst hdst => ?_
  refine writes_bind (x := (dst, Prim.int.size)) (ht ▸ hdst) rfl rfl (pure hdst.owns)

theorem applyIntegral {instr : OneOp} {op : UnaryOp} {value : Slot} {span : Span}
    (hdest : A.Takes dest) : Confined A (applyIntegral instr op value span dest) A.Owns := by
  unfold Lowering.applyIntegral
  split
  · exact reads_bind fun _ => fail_bind
  · exact coerce.bind fun _ _ => applyOne hdest rfl

theorem negate {value : Slot} {span : Span} (hdest : A.Takes dest) :
    Confined A (negate value span dest) A.Owns := by
  unfold Lowering.negate
  split
  · exact applyOne hdest rfl
  · exact applyIntegral hdest

theorem addressOfOperand {operand : Expr} {p : Place} {span : Span} (hdest : A.Takes dest) :
    Confined A (addressOfOperand operand p span dest) A.Owns := by
  unfold Lowering.addressOfOperand
  split
  · exact fail_bind
  · exact (addressOf hdest).mono fun _ h => h.owns

theorem applyInt {op : IntOp} {lhs rhs : Address} (hdest : A.Takes dest) :
    Confined A (applyInt op lhs rhs dest) A.Owns := by
  unfold Lowering.applyInt
  exact (resultAddress hdest).bind fun dst hdst => writes_bind hdst rfl rfl (pure hdst.owns)

theorem applyFloat {op : BinaryOp} {lhs rhs : Slot} {span : Span} (hdest : A.Takes dest) :
    Confined A (applyFloat op lhs rhs span dest) A.Owns := by
  unfold Lowering.applyFloat
  split
  · exact fail
  · rename_i floatOp _
    refine coerce.bind fun lhs _ => coerce.bind fun rhs _ => ?_
    refine (resultAddress hdest).bind fun dst hdst => ?_
    have hlength : A.registry.length (if floatOp.isComparison then Ty.int else .float) =
        Prim.float.size := by split <;> rfl
    exact writes_bind (x := (dst, Prim.float.size)) (hlength ▸ hdst) rfl rfl (pure hdst.owns)

theorem applyBinary {op : BinaryOp} {lhs rhs : Slot} {span : Span} (hdest : A.Takes dest) :
    Confined A (applyBinary op lhs rhs span dest) A.Owns := by
  unfold Lowering.applyBinary
  split
  · split
    · exact applyFloat hdest
    · exact coerce.bind fun lhs _ => coerce.bind fun rhs _ => applyInt hdest
  · split
    · exact asWord.bind fun lhs _ => asWord.bind fun rhs _ => applyInt hdest
    · exact reads_bind fun _ => fail

theorem jumpIfEqual {subject candidate : Slot} {target : Label} {span : Span} :
    Confined A (jumpIfEqual subject candidate target span) fun _ => True := by
  unfold Lowering.jumpIfEqual
  exact (applyBinary A.takes_none).bind fun _ _ => silent fun _ => rfl

theorem lazyOperator {isAnd : Bool} {left : CompileM Address} {right : Slot → CompileM Unit}
    (hdest : A.Takes dest) (hleft : Confined A left fun _ => True)
    (hright : ∀ s, A.Offers s → Confined A (right s) fun _ => True) :
    Confined A (lazyOperator isAnd left right dest) A.Owns := by
  unfold Lowering.lazyOperator
  refine (resultAddress hdest).bind fun a ha => ?_
  refine freshLabel.bind fun otherwise _ => freshLabel.bind fun done _ => ?_
  refine hleft.bind fun cond _ => silent_bind (fun _ => rfl) ?_
  have hright := withTemps (hright ⟨.int, a⟩ ha)
  dsimp only
  split
  · refine hright.bind fun _ _ => silent_bind (fun _ => rfl) (silent_bind (fun _ => rfl) ?_)
    exact writes_bind ha rfl rfl (silent_bind (fun _ => rfl) (pure ha.owns))
  · refine writes_bind ha rfl rfl (silent_bind (fun _ => rfl) (silent_bind (fun _ => rfl) ?_))
    exact hright.bind fun _ _ => silent_bind (fun _ => rfl) (pure ha.owns)

/-- A cast leaves a value where it is if it has the type already. -/
theorem castTo {value : Slot} {target : Ty} {span : Span} (hdest : A.Takes dest) :
    Confined A (castTo value target span dest) fun s =>
      A.Offers s ∨ value.type = target ∧ s = value := by
  unfold Lowering.castTo
  refine get_bind fun c hc => ?_
  dsimp only
  rw [hc.registry]
  split
  · rename_i heq
    exact pure (.inr ⟨heq, rfl⟩)
  · split
    · split
      · exact reads fun _ hm => by simp at hm
      · rename_i k hk
        refine (resultAddress hdest).bind fun a ha => ?_
        exact (convertInto hk ha).bind fun _ _ => pure (.inl ha)
    · split
      · refine (resultAddress hdest).bind fun a ha => ?_
        exact (copyBits ha).bind fun _ _ => pure (.inl ha)
      · exact fail

theorem instanceTest {value : Slot} {valueSpan : Span} {owner : TypeExpr} (hdest : A.Takes dest) :
    Confined A (instanceTest value valueSpan owner dest) A.Owns := by
  have hclass : Has (Writes A) (resolveClass owner) := inferInstance
  unfold Lowering.instanceTest
  split
  · exact reads_bind fun _ => fail_bind
  · refine hclass.out.bind fun t _ => reads_bind fun id => ?_
    refine (resultAddress hdest).bind fun dst hdst => ?_
    refine Confined.bind (Q := fun _ => True) (withRegister fun reg => ?_) fun _ _ => pure hdst.owns
    exact silent_bind (fun _ => rfl) (writes hdst rfl rfl)

theorem joinInto {value slot : Slot} {span : Span} (h : A.Offers slot) :
    Confined A (joinInto value slot span) fun _ => True := by
  unfold Lowering.joinInto
  exact checkConversion.bind fun k hk => convertInto hk h

theorem forM {α : Type} {xs : List α} {g : α → CompileM PUnit}
    (hg : ∀ x, Confined A (g x) fun _ => True) : Confined A (xs.forM g) fun _ => True := by
  have : ∀ x, Has (Writes A) (g x) := fun x => ⟨hg x⟩
  exact (inferInstance : Has (Writes A) (xs.forM g)).out

theorem joinAll {slot : Slot} {done : Label} {branches : List Branch} (h : A.Offers slot) :
    Confined A (joinAll slot done branches) fun _ => True := by
  unfold Lowering.joinAll
  refine forM fun b => silent_bind (fun _ => rfl) ?_
  exact (joinInto h).bind fun _ _ => silent fun _ => rfl

end Confined

end ClassLang
