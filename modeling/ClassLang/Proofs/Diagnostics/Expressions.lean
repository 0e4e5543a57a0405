import ClassLang.Proofs.Diagnostics.Lowering

/-!
# Expressions and statements agree

The induction over expressions and statements: each is lowered by steps that agree wherever its
parts are, so it agrees with itself for any two destinations.
-/

-- The instances of long steps are large terms.
set_option synthInstance.maxSize 1000

namespace ClassLang

open CompileM

namespace Lowering

/-! ## Objects and arrays -/

instance (type : Ty) (id : Nat) : Agree (allocateObject type id) (allocateObject type id) := by
  unfold allocateObject
  infer_instance

section Arguments

variable (args args' : CompileM (List Slot)) [Agree args args'] (argSpans : List Span) (span : Span)

instance (type t : Ty) (a b : Address) :
    Agree (constructObject type ⟨t, a⟩ args argSpans span)
      (constructObject type ⟨t, b⟩ args' argSpans span) := by
  unfold constructObject
  dsimp only
  infer_instance

instance (owner : TypeExpr) :
    Agree (newObject owner args argSpans span) (newObject owner args' argSpans span) := by
  unfold newObject
  refine @agree_bind_exact _ _ _ _ _ _ _ _ _ _ fun type => ?_
  split
  · infer_instance
  · dsimp only
    infer_instance

end Arguments

instance (t : Ty) (a b : Address) (targetSpan span : Span) :
    Agree (deleteObject ⟨t, a⟩ targetSpan span) (deleteObject ⟨t, b⟩ targetSpan span) := by
  unfold deleteObject
  dsimp only
  cases t.pointeeClass? <;> infer_instance

instance (count count' : Address) (element : Ty) :
    Agree (allocateBlock count element) (allocateBlock count' element) := by
  unfold allocateBlock
  infer_instance

instance (array array' position position' : Address) (n k : Nat) (value value' : Address) :
    Agree (storeElement array position n value) (storeElement array' position' k value') := by
  unfold storeElement
  infer_instance

instance (array array' count count' : Address) (inner inner' : CompileM Address)
    [Agree inner inner'] :
    Agree (fillNested array count inner) (fillNested array' count' inner') := by
  unfold fillNested
  infer_instance

theorem agree_allocateNested {counts counts' : List Address} (h : Alike counts counts') :
    ∀ type : Ty, Agree (allocateNested type counts) (allocateNested type counts') := by
  induction counts generalizing counts' with
  | nil =>
    cases counts' with
    | nil =>
      intro type
      unfold allocateNested
      infer_instance
    | cons => cases h.eq
  | cons count rest ih =>
    cases counts' with
    | nil => cases h.eq
    | cons count' rest' =>
      have := ih h.head.2
      have hempty : rest.isEmpty = rest'.isEmpty := by
        cases rest <;> cases rest' <;> first | rfl | cases h.head.2.eq
      intro type
      unfold allocateNested
      rw [hempty]
      split <;> infer_instance

instance (type : Ty) (counts counts' : List Address) [h : Alike counts counts'] :
    Agree (allocateNested type counts) (allocateNested type counts') :=
  agree_allocateNested h type

instance (t : Ty) (a b : Address) (span : Span) :
    Agree (dimension ⟨t, a⟩ span) (dimension ⟨t, b⟩ span) := by
  unfold dimension
  dsimp only
  infer_instance

instance (element : TypeExpr) (dims : List Expr) (values values' : CompileM (List Address))
    (span : Span) [Agree values values'] :
    Agree (newArray element dims values span) (newArray element dims values' span) := by
  unfold newArray
  split
  · infer_instance
  · dsimp only
    infer_instance

/-- The elements of an array are stored one after the other. -/
theorem agree_storeAll (array array' : Address) (n : Nat) {values values' : List Slot}
    (h : Alike values values') : ∀ k : Nat, Agree
      ((values.zipIdx k).forM fun (value, i) => do
        let position ← internNat i
        storeElement array position n value.address)
      ((values'.zipIdx k).forM fun (value, i) => do
        let position ← internNat i
        storeElement array' position n value.address) := by
  induction values generalizing values' with
  | nil =>
    cases values' with
    | nil => exact fun _ => agree_pure _ _
    | cons => cases h.eq
  | cons value values ih =>
    cases values' with
    | nil => cases h.eq
    | cons value' values' =>
      intro k
      have := ih h.head.2 (k + 1)
      have hfirst : Agree (do
          let position ← internNat k
          storeElement array position n value.address : CompileM PUnit) (do
          let position ← internNat k
          storeElement array' position n value'.address) := inferInstance
      exact .bind fun _ _ _ => ih h.head.2 (k + 1)

instance (element : Ty) (values values' : List Slot) [h : Alike values values'] :
    Agree (arrayOf element values) (arrayOf element values') := by
  have hstore := fun array array' n => agree_storeAll array array' n h 0
  have hlength : values.length = values'.length := by
    have hlengths := congrArg List.length (types_of_alike h)
    rwa [List.length_map, List.length_map] at hlengths
  unfold arrayOf
  rw [hlength]
  infer_instance

/-! ## Parts of expressions -/

section Parts

variable (p q : CompileM Place) [Agree p q] (dest dest' : Option Slot)

instance : Agree (asSlot p dest) (asSlot q dest') := by
  unfold asSlot
  infer_instance

instance (e : Expr) : Agree (asValue e p dest) (asValue e q dest') := by
  unfold asValue
  infer_instance

instance (e : Expr) : Agree (asCondition e p) (asCondition e q) := by
  unfold asCondition
  infer_instance

instance (intrinsic : Intrinsic) (operand : Expr) :
    Agree (intrinsicCall intrinsic operand p) (intrinsicCall intrinsic operand q) := by
  unfold intrinsicCall
  split <;> infer_instance

end Parts

instance (s s' : CompileM Slot) [Agree s s'] : Agree (slotPlace s) (slotPlace s') := by
  unfold slotPlace
  infer_instance

instance agree_callNamed (name : String) (nameSpan : Span)
    (intrinsicCall intrinsicCall' : Intrinsic → CompileM Slot)
    (args args' : CompileM (List Slot)) (argSpans : List Span) (span : Span) [Agree args args']
    [∀ i, Agree (intrinsicCall i) (intrinsicCall' i)] :
    Agree (meaning name nameSpan >>= fun d =>
        callNamed name nameSpan d intrinsicCall args argSpans span)
      (meaning name nameSpan >>= fun d =>
        callNamed name nameSpan d intrinsicCall' args' argSpans span) := by
  refine agree_bind_meaning (fun d => ?_) fun t a b isConst definedAt => ?_
  · unfold callNamed
    cases d <;> infer_instance
  · unfold callNamed
    infer_instance

instance (test test' : CompileM Address) (yes yes' no no' : CompileM Slot)
    (yesSpan noSpan span : Span) (dest dest' : Option Slot) [Agree test test'] [Agree yes yes']
    [Agree no no'] :
    Agree (conditional test yes no yesSpan noSpan span dest)
      (conditional test' yes' no' yesSpan noSpan span dest') := by
  unfold conditional
  dsimp only
  infer_instance

theorem agree_switch (subject subject' default default' : CompileM Slot) (arms : List Arm)
    (defaultSpan span : Span) (dest dest' : Option Slot) [Agree subject subject']
    [Agree default default']
    [htests : ∀ t a b, Agree (armTests ⟨t, a⟩ arms) (armTests ⟨t, b⟩ arms)]
    [hbodies : ∀ labels, Agree (armBodies dest arms labels) (armBodies dest' arms labels)] :
    Agree (switch subject default arms defaultSpan span dest)
      (switch subject' default' arms defaultSpan span dest') := by
  -- What follows the branches sees their types only.
  have hjoin : ∀ done (branches branches' : List Branch), Alike branches branches' → Agree (do
      let type ← commonType (branches.map (·.value.type)) span
      let result : Slot := ⟨type, ← resultAddress type dest⟩
      joinAll result done branches
      emitLabel done
      return result : CompileM Slot) (do
      let type ← commonType (branches'.map (·.value.type)) span
      let result : Slot := ⟨type, ← resultAddress type dest'⟩
      joinAll result done branches'
      emitLabel done
      return result) := by
    intro done branches branches' h
    have := fun t a b => agree_joinAll t a b done h
    rw [branch_types_of_alike h]
    infer_instance
  unfold switch
  dsimp only at hjoin ⊢
  refine @agree_bind_slot _ _ _ _ _ _ _ fun t a b => ?_
  refine @agree_bind_exact _ _ _ _ _ _ _ _ _ _ fun done => ?_
  refine @agree_bind_exact _ _ _ _ _ _ _ _ _ _ fun labels => ?_
  refine @agree_bind_exact _ _ _ _ _ _ _ _ _ _ fun join => ?_
  refine @agree_bind_slot _ _ _ _ _ _ _ fun u p q => ?_
  refine @agree_bind_exact _ _ _ _ _ _ _ _ _ _ fun _ => ?_
  refine .bind fun branches branches' h => ?_
  exact hjoin _ _ _ inferInstance

/-! ## Expressions -/

mutual

theorem agree_place (dest dest' : Option Slot) : ∀ e : Expr, Agree (place dest e) (place dest' e)
  | .literal l _ => by
    unfold place
    infer_instance
  | .name n span => by
    unfold place
    infer_instance
  | .receiver span => by
    unfold place
    infer_instance
  | .binary op l r span => by
    have hl := fun d d' => agree_place d d' l
    have hr := fun d d' => agree_place d d' r
    unfold place
    infer_instance
  | .unary op e span => by
    have he := fun d d' => agree_place d d' e
    unfold place
    split <;> infer_instance
  | .assign target value span => by
    have ht := fun d d' => agree_place d d' target
    have hv := fun d d' => agree_place d d' value
    unfold place
    dsimp only
    infer_instance
  | .call callee args span => by
    have hargs := agree_values args
    have hcallee := fun d d' => agree_place d d' callee
    unfold place
    cases callee with
    -- An intrinsic looks at its operand, but only at the type of it.
    | name n nameSpan =>
      match args with
      | [] => infer_instance
      | [operand] =>
        have := agree_place none none operand
        infer_instance
      | _ :: _ :: _ => infer_instance
    | member object member memberSpan =>
      have := fun d d' => agree_place d d' object
      infer_instance
    | scopedName owner member memberSpan =>
      match args with
      | [] => infer_instance
      | first :: rest =>
        have := agree_place none none first
        have := agree_values rest
        infer_instance
    | _ => infer_instance
  | .member object member _ => by
    have := fun d d' => agree_place d d' object
    unfold place
    infer_instance
  | .scopedName owner member span => by
    unfold place
    infer_instance
  | .index object position _ => by
    have := fun d d' => agree_place d d' object
    have := fun d d' => agree_place d d' position
    unfold place
    infer_instance
  | .newObject owner args span => by
    have := agree_values args
    unfold place
    infer_instance
  | .newArray element dims span => by
    have := agree_dimensions dims
    unfold place
    infer_instance
  | .array [] span => by
    unfold place
    infer_instance
  | .array (first :: rest) span => by
    have := fun d d' => agree_place d d' first
    have := fun t => agree_coerced t rest
    unfold place
    infer_instance
  | .cast e target span => by
    have := fun d d' => agree_place d d' e
    unfold place
    infer_instance
  | .instanceOf e owner _ => by
    have := fun d d' => agree_place d d' e
    unfold place
    infer_instance
  | .conditional c yes no span => by
    have := agree_place none none c
    have := agree_place dest dest' yes
    have := agree_place dest dest' no
    rw [place_conditional, place_conditional]
    infer_instance
  | .switch subject arms default span => by
    have := agree_place none none subject
    have := agree_place dest dest' default
    have := agree_armTests arms
    have := agree_armBodies dest dest' arms
    rw [place_switch, place_switch]
    have := agree_switch (asValue subject (place none subject) none)
      (asValue subject (place none subject) none) (asValue default (place dest default) dest)
      (asValue default (place dest' default) dest') arms default.span span dest dest'
    infer_instance
  | .placeholder n span => by
    unfold place
    infer_instance

theorem agree_values : ∀ es : List Expr, Agree (values es) (values es)
  | [] => by
    unfold values
    infer_instance
  | e :: es => by
    have := fun d d' => agree_place d d' e
    have := agree_values es
    unfold values
    infer_instance

theorem agree_dimensions : ∀ es : List Expr, Agree (dimensions es) (dimensions es)
  | [] => by
    unfold dimensions
    infer_instance
  | e :: es => by
    have := fun d d' => agree_place d d' e
    have := agree_dimensions es
    unfold dimensions
    infer_instance

theorem agree_coerced (element : Ty) : ∀ es : List Expr,
    Agree (coerced element es) (coerced element es)
  | [] => by
    unfold coerced
    infer_instance
  | e :: es => by
    have := fun d d' => agree_place d d' e
    have := agree_coerced element es
    unfold coerced
    infer_instance

theorem agree_tests (t : Ty) (a b : Address) (target : Label) : ∀ es : List Expr,
    Agree (tests ⟨t, a⟩ target es) (tests ⟨t, b⟩ target es)
  | [] => by
    unfold tests
    infer_instance
  | e :: es => by
    have := fun d d' => agree_place d d' e
    have := agree_tests t a b target es
    unfold tests
    infer_instance

theorem agree_armTests : ∀ (arms : List Arm) (t : Ty) (a b : Address),
    Agree (armTests ⟨t, a⟩ arms) (armTests ⟨t, b⟩ arms)
  | [], t, a, b => by
    unfold armTests
    infer_instance
  | .mk vs result span :: arms, t, a, b => by
    have := fun l => agree_tests t a b l vs
    have := agree_armTests arms t a b
    unfold armTests
    infer_instance

theorem agree_armBodies (dest dest' : Option Slot) : ∀ (arms : List Arm) (ls : List Label),
    Agree (armBodies dest arms ls) (armBodies dest' arms ls)
  | .mk vs result span :: arms, l :: ls => by
    have := agree_place dest dest' result
    have := agree_armBodies dest dest' arms ls
    unfold armBodies
    infer_instance
  | [], _ => by
    unfold armBodies
    infer_instance
  | .mk _ _ _ :: _, [] => by
    unfold armBodies
    infer_instance

end

attribute [instance] agree_place agree_values agree_dimensions agree_coerced agree_tests

end Lowering

end ClassLang
