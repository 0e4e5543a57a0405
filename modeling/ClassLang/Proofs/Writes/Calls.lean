import ClassLang.Proofs.Writes.Steps

/-!
# Calls and objects are confined

The frame of a callee starts where that of the caller ends, so everything that a call leaves is in
storage that was free. Arguments are copied into it; what was converted for them is in fresh
storage.
-/

-- The instances of long steps are large terms.
set_option synthInstance.maxSize 1000

namespace ClassLang

open CompileM Lowering

namespace Confined

variable {A : Area} {dest : Option Slot}

/-! ## The call itself -/

theorem emitCallee {callee : Callee} {receiver : Option Address} {base : Address} {region : Nat}
    (h : A.Free base) : Confined A (emitCallee callee receiver base region) fun _ => True := by
  unfold Lowering.emitCallee
  split
  · exact calls h rfl rfl
  · exact calls h rfl rfl
  · exact withRegister fun reg => silent_bind (fun _ => rfl) (calls h rfl rfl)
  · split
    · exact reads fun _ hm => by simp at hm
    · refine withRegister fun object => withRegister fun function => ?_
      exact silent_bind (fun _ => rfl) (silent_bind (fun _ => rfl) (calls h rfl rfl))

theorem emitCall {callee : Callee} {result : Ty} {receiver : Option Address} {args : List Slot} :
    Confined A (emitCall callee result receiver args) fun s => A.Free s.address := by
  have hrest : ∀ {base : Address}, A.Free base → Confined A (do
      args.forM fun arg => do
        let length ← lengthOf arg.type
        Lowering.move (← CompileM.alloc length) arg.address length
      let region ← fromRegistry (handedOver · result receiver args)
      Lowering.emitCallee callee receiver base region
      return (⟨result, base⟩ : Slot)) fun s => A.Free s.address := by
    intro base hbase
    refine Confined.bind (Q := fun _ => True) (forM fun arg => lengthOf_bind ?_) fun _ _ => ?_
    · exact alloc.bind fun a ha => move ha.allows
    · exact fromRegistry_bind ((emitCallee hbase).bind fun _ _ => pure hbase)
  unfold Lowering.emitCall
  refine get_bind fun c hc => allocFor.bind fun _ _ => ?_
  dsimp only
  split
  · refine pointerSize_bind (alloc.bind fun a ha => ?_)
    exact (move ha.allows).bind fun _ _ => hrest hc.free
  · exact hrest hc.free

theorem emitCall_owns {callee : Callee} {result : Ty} {receiver : Option Address}
    {args : List Slot} : Confined A (Lowering.emitCall callee result receiver args) A.Owns :=
  emitCall.mono fun _ h => h.offers.owns

theorem coerceArgs {args : List Slot} {params : List Ty} {spans : List Span} :
    Confined A (coerceArgs args params spans) fun _ => True := by
  induction args generalizing params spans with
  | nil =>
    unfold Lowering.coerceArgs
    exact pure trivial
  | cons arg args ih =>
    cases params with
    | nil =>
      unfold Lowering.coerceArgs
      exact pure trivial
    | cons param params =>
      cases spans with
      | nil =>
        unfold Lowering.coerceArgs
        exact pure trivial
      | cons span spans =>
        unfold Lowering.coerceArgs
        exact coerce.bind fun _ _ => ih.bind fun _ _ => pure trivial

/-! ## Calls by form of the callee -/

section Arguments

variable {args : CompileM (List Slot)} {argSpans : List Span} {span : Span} {name : String}
  (hargs : Confined A args fun _ => True)

include hargs

theorem callFunction {ids : List Nat} :
    Confined A (callFunction name ids args argSpans span) A.Owns := by
  unfold Lowering.callFunction
  refine hargs.bind fun args _ => reads_bind fun candidates => reads_bind fun fit => ?_
  exact coerceArgs.bind fun _ _ => reads_bind fun _ => emitCall_owns

theorem callNative {n : Native} : Confined A (callNative name n args argSpans span) A.Owns := by
  unfold Lowering.callNative
  refine hargs.bind fun args _ => reads_bind fun fit => ?_
  exact coerceArgs.bind fun _ _ => emitCall_owns

theorem callValue {callee : Slot} : Confined A (callValue callee args argSpans span) A.Owns := by
  unfold Lowering.callValue
  split
  · refine hargs.bind fun args _ => reads_bind fun fit => ?_
    exact coerceArgs.bind fun _ _ => emitCall_owns
  · exact reads_bind fun _ => fail

theorem callNamed {nameSpan : Span} {d : Meaning} {intrinsicCall : Intrinsic → CompileM Slot}
    (hintrinsic : ∀ i, Confined A (intrinsicCall i) A.Owns) :
    Confined A (callNamed name nameSpan d intrinsicCall args argSpans span) A.Owns := by
  unfold Lowering.callNamed
  split
  · exact callFunction hargs
  · exact callNative hargs
  · exact callValue hargs
  · exact fail
  · exact fail
  · exact hintrinsic _

theorem callDispatched {owner : Ty} {object : Place} :
    Confined A (callDispatched owner name object args argSpans span) A.Owns := by
  unfold Lowering.callDispatched
  refine (read A.takes_none).bind fun receiver _ => hargs.bind fun args _ => ?_
  refine reads_bind fun fit => coerceArgs.bind fun _ _ => ?_
  exact reads_bind fun _ => emitCall_owns

theorem callStatic {owner : Ty} {receiver : Address} :
    Confined A (callStatic owner name receiver args argSpans span) A.Owns := by
  unfold Lowering.callStatic
  refine hargs.bind fun args _ => reads_bind fun fit => coerceArgs.bind fun _ _ => ?_
  exact reads_bind fun _ => reads_bind fun _ => emitCall_owns

theorem callMember {object : Place} {member : Ident} {fieldValue : CompileM Slot}
    (hfield : Confined A fieldValue fun _ => True) :
    Confined A (callMember object member fieldValue args argSpans span) A.Owns := by
  -- A field that holds a callable, looked for in a class.
  have hfieldCall : ∀ owner : Option Ty, Confined A (do
      let r := (← get).registry
      if (owner.bind fun owner => r.field? owner member.name).isSome then
        Lowering.callValue (← fieldValue) args argSpans span
      else CompileM.fail (.unknownMethod member.name (r.typeName object.type)) member.span)
      A.Owns := by
    intro owner
    refine get_bind fun c _ => ?_
    dsimp only
    split
    · exact hfield.bind fun _ _ => callValue hargs
    · exact fail
  have hstatic : ∀ owner : Option Ty, Confined A (do
      if ← hasMethod object.type member.name then
        let receiver ← Lowering.addressOf none object
        Lowering.callStatic object.type member.name receiver.address args argSpans span
      else
        let r := (← get).registry
        if (owner.bind fun owner => r.field? owner member.name).isSome then
          Lowering.callValue (← fieldValue) args argSpans span
        else CompileM.fail (.unknownMethod member.name (r.typeName object.type)) member.span)
      A.Owns := by
    intro owner
    refine reads_bind fun found => ?_
    split
    · exact (addressOf A.takes_none).bind fun _ _ => callStatic hargs
    · exact hfieldCall owner
  unfold Lowering.callMember
  dsimp only
  cases howner : object.type.pointeeClass? <;> cases hclass : object.type.isClassLike <;>
    simp only [Bool.false_eq_true, if_false, if_true]
  · exact hfieldCall _
  · exact hstatic _
  · refine reads_bind fun found => ?_
    split
    · exact callDispatched hargs
    · exact hfieldCall _
  · refine reads_bind fun found => ?_
    split
    · exact callDispatched hargs
    · exact hstatic _

/-! ## Objects -/

theorem constructObject {type : Ty} {object : Slot} :
    Confined A (constructObject type object args argSpans span) fun _ => True := by
  unfold Lowering.constructObject
  refine reads_bind fun has => ?_
  split
  · refine hargs.bind fun args _ => reads_bind fun fit => coerceArgs.bind fun _ _ => ?_
    exact reads_bind fun _ => emitCall.bind fun _ _ => pure trivial
  · split
    · exact reads_bind fun _ => fail
    · exact pure trivial

end Arguments

theorem allocateObject {type : Ty} {id : Nat} : Confined A (allocateObject type id) A.Owns := by
  unfold Lowering.allocateObject
  refine lengthOf_bind (intern.bind fun size _ => emitCall.bind fun block hblock => ?_)
  refine Confined.bind (Q := fun _ => True) (withRegister fun reg => ?_) fun _ _ =>
    pure hblock.offers.owns
  exact silent_bind (fun _ => rfl) (silent fun _ => rfl)

theorem newObject {owner : TypeExpr} {args : CompileM (List Slot)} {argSpans : List Span}
    {span : Span} (hargs : Confined A args fun _ => True) :
    Confined A (newObject owner args argSpans span) A.Owns := by
  have hclass : Has (Writes A) (resolveClass owner) := inferInstance
  unfold Lowering.newObject
  refine hclass.out.bind fun type _ => ?_
  split
  · exact reads fun _ hm => by simp at hm
  · refine reads_bind fun k => ?_
    dsimp only
    split
    · exact fail_bind
    · refine reads_bind fun _ => allocateObject.bind fun object hobject => ?_
      exact (constructObject hargs).bind fun _ _ => pure hobject

/-! ## Names, sizes and lengths -/

theorem scopedMethod {owner : TypeExpr} {member : Ident} :
    Confined A (scopedMethod owner member) fun _ => True := by
  have hclass : Has (Writes A) (resolveClass owner) := inferInstance
  unfold Lowering.scopedMethod
  refine hclass.out.bind fun owner _ => reads_bind fun found => ?_
  split
  · exact pure trivial
  · exact reads_bind fun _ => fail

theorem scopedValue {owner : TypeExpr} {member : Ident} {span : Span} :
    Confined A (scopedValue owner member span) A.Owns := by
  unfold Lowering.scopedValue
  refine scopedMethod.bind fun owner _ => get_bind fun c _ => ?_
  split
  · exact reads_bind fun _ => functionPointer.mono fun _ h => h.owns
  · exact fail

theorem sizeOfOperand {operand : Expr} {value : CompileM Slot}
    (hvalue : Confined A value fun _ => True) :
    Confined A (sizeOfOperand operand value) A.Owns := by
  have hprobe : Confined A (do return (← CompileM.probe value).type) fun _ => True :=
    (probe hvalue).bind fun _ _ => pure trivial
  have htype : Confined A (sizedType operand value) fun _ => True := by
    unfold Lowering.sizedType
    split
    · refine reads_bind fun d => ?_
      split
      · exact pure trivial
      · exact pure trivial
      · exact hprobe
    · exact hprobe
  unfold Lowering.sizeOfOperand
  exact htype.bind fun t _ => lengthOf_bind (intern.bind fun _ _ => pure (A.owns_of_plain rfl))

theorem lengthOfArray {array : Slot} {span : Span} :
    Confined A (lengthOfArray array span) A.Owns := by
  unfold Lowering.lengthOfArray
  split
  · exact reads_bind fun _ => fail_bind
  · refine alloc.bind fun dst hdst => ?_
    refine Confined.bind (Q := fun _ => True) (withRegister fun reg => ?_) fun _ _ =>
      pure hdst.offers.owns
    exact silent_bind (fun _ => rfl) (writes hdst.allows rfl rfl)

/-! ## Arrays -/

theorem allocateBlock {count : Address} {element : Ty} :
    Confined A (allocateBlock count element) A.Free := by
  unfold Lowering.allocateBlock
  exact lengthOf_bind (intern.bind fun _ _ => emitCall.bind fun _ h => pure h)

theorem storeElement {array position value : Address} {n : Nat} :
    Confined A (storeElement array position n value) fun _ => True := by
  unfold Lowering.storeElement
  exact withRegister fun reg => pointToElement.bind fun _ _ => silent fun _ => rfl

theorem fillNested {array count : Address} {inner : CompileM Address} {Q : Address → Prop}
    (hinner : Confined A inner Q) : Confined A (fillNested array count inner) fun _ => True := by
  unfold Lowering.fillNested
  refine pointerSize_bind (intern.bind fun one _ => ?_)
  refine alloc.bind fun position hposition => alloc.bind fun inside hinside => ?_
  refine freshLabel.bind fun top _ => freshLabel.bind fun done _ => ?_
  refine writes_bind hposition.allows rfl rfl (silent_bind (fun _ => rfl) ?_)
  refine writes_bind hinside.allows rfl rfl (silent_bind (fun _ => rfl) ?_)
  refine Confined.bind (Q := fun _ => True) (withTemps ?_) fun _ _ => ?_
  · exact hinner.bind fun _ _ => storeElement
  · refine writes_bind hposition.allows rfl rfl (silent_bind (fun _ => rfl) ?_)
    exact silent fun _ => rfl

theorem allocateNested {type : Ty} {counts : List Address} :
    Confined A (allocateNested type counts) A.Free := by
  induction counts generalizing type with
  | nil =>
    unfold Lowering.allocateNested
    exact reads fun _ hm => by simp at hm
  | cons count rest ih =>
    unfold Lowering.allocateNested
    split
    · exact reads fun _ hm => by simp at hm
    · refine allocateBlock.bind fun array harray => ?_
      split
      · exact (fillNested ih).bind fun _ _ => pure harray
      · exact pure harray

theorem dimension {value : Slot} {span : Span} :
    Confined A (dimension value span) fun _ => True := by
  unfold Lowering.dimension
  split
  · exact reads_bind fun _ => fail_bind
  · exact coerce.bind fun _ _ => pure trivial

theorem newArray {element : TypeExpr} {dims : List Expr} {values : CompileM (List Address)}
    {span : Span} (hvalues : Confined A values fun _ => True) :
    Confined A (newArray element dims values span) A.Owns := by
  have htype : Has (Writes A) (resolveType element) := inferInstance
  unfold Lowering.newArray
  split
  · exact fail
  · dsimp only
    split
    · exact fail_bind
    refine reads_bind fun _ => htype.out.bind fun type _ => ?_
    split
    · exact fail_bind
    refine hvalues.bind fun counts _ => ?_
    exact allocateNested.bind fun _ h => pure h.offers.owns

theorem arrayOf {element : Ty} {values : List Slot} :
    Confined A (arrayOf element values) A.Owns := by
  unfold Lowering.arrayOf
  refine intern.bind fun _ _ => allocateBlock.bind fun array harray => lengthOf_bind ?_
  refine Confined.bind (Q := fun _ => True) (forM fun ⟨value, i⟩ => ?_) fun _ _ =>
    pure harray.offers.owns
  exact intern.bind fun _ _ => storeElement

end Confined

end ClassLang
