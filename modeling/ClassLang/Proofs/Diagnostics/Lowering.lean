import ClassLang.Proofs.Diagnostics.Agree

/-!
# Expressions agree

For each step of lowering an expression: where its operands are, where its result shall go and
whether the result is written there does not matter. Types, errors, warnings, pooled literals and
labels come out the same.
-/

-- The instances of long steps are large terms.
set_option synthInstance.maxSize 1000

namespace ClassLang

open CompileM

namespace Lowering

/-! ## Names and types -/

theorem blur_meaning? (name : String) (c : Compilation) :
    blur ((c.scopes.find? name).map (·.meaning)) =
      blur ((c.outline.scopes.find? name).map (·.meaning)) := by
  show _ = blur (((blur c.scopes).find? name).map (·.meaning))
  rw [Scopes.find?_blur]
  cases c.scopes.find? name with
  | none => rfl
  | some e =>
    obtain ⟨d, span⟩ := e
    cases d <;> rfl

instance (name : String) : Agree (meaning? name) (meaning? name) :=
  agree_reads fun c => congrArg Except.ok (blur_meaning? name c)

/-- What follows a name that may be a variable. -/
theorem agree_bind_meaning? {α : Type} [Blur α] {m n : CompileM (Option Meaning)}
    {f g : Option Meaning → CompileM α} [Agree m n] (hnone : Agree (f none) (g none))
    (hsame : ∀ d, Agree (f (some d)) (g (some d)))
    (hvariable : ∀ t a b isConst span, Agree (f (some (.variable ⟨t, a, isConst, span⟩)))
      (g (some (.variable ⟨t, b, isConst, span⟩)))) : Agree (m >>= f) (n >>= g) := by
  refine .bind fun d d' h => ?_
  have heq := h.eq
  cases d <;> cases d'
  · exact hnone
  · cases heq
  · cases heq
  · injection heq with heq
    exact Alike.meaning_cases (P := fun d d' => Agree (f (some d)) (g (some d'))) ⟨heq⟩ hsame
      hvariable

/-- What follows a meaning that may be a variable. -/
theorem agree_bind_meaning {α : Type} [Blur α] {m n : CompileM Meaning}
    {f g : Meaning → CompileM α} [Agree m n] (hsame : ∀ d, Agree (f d) (g d))
    (hvariable : ∀ t a b isConst span, Agree (f (.variable ⟨t, a, isConst, span⟩))
      (g (.variable ⟨t, b, isConst, span⟩))) : Agree (m >>= f) (n >>= g) :=
  .bind fun _ _ h => h.meaning_cases (P := fun d d' => Agree (f d) (g d')) hsame hvariable

instance (name : String) (span : Span) : Agree (meaning name span) (meaning name span) := by
  unfold meaning
  refine agree_bind_meaning? ?_ (fun d => ?_) fun t a b isConst span => ?_
  · infer_instance
  · infer_instance
  · have : Alike (Meaning.variable ⟨t, a, isConst, span⟩) (.variable ⟨t, b, isConst, span⟩) := ⟨rfl⟩
    infer_instance

instance (n : Native) (span : Span) : Agree (requireNative n span) (requireNative n span) := by
  unfold requireNative
  refine agree_bind_meaning? ?_ (fun d => ?_) fun t a b isConst span => ?_
  · infer_instance
  · infer_instance
  · simp only [ne_eq, Option.some.injEq, reduceCtorEq, not_false_eq_true, if_true]
    infer_instance

instance (span : Span) : Agree (receiverBinding span) (receiverBinding span) := by
  unfold receiverBinding
  refine .bind fun c d h => ?_
  have hclass : c.scopes.receiverClass? = d.scopes.receiverClass? :=
    congrArg (·.bind (·.owner)) (Scopes.function?_congr (Scopes.kinds_of_alike h.scopes.eq))
  have hthis : Agree (do
      match ← meaning? "this" with
      | some (.variable b) => return b
      | _ => fail (.outside .receiver) span : CompileM Binding) (do
      match ← meaning? "this" with
      | some (.variable b) => return b
      | _ => fail (.outside .receiver) span) := by
    refine agree_bind_meaning? ?_ (fun d => ?_) fun t a b isConst span => ?_
    · infer_instance
    · cases d <;> infer_instance
    · have : Alike (Binding.mk t a isConst span) ⟨t, b, isConst, span⟩ := ⟨rfl⟩
      infer_instance
  rw [hclass]
  dsimp only
  infer_instance

instance (check : BoundCheck) : Agree (checkBound check) (checkBound check) := by
  unfold checkBound
  refine .bind fun c d h => ?_
  rw [h.registry]
  infer_instance

instance (check : BoundCheck) : Agree (checkOrDefer check) (checkOrDefer check) := by
  have hdefer : Agree (modify fun s => { s with deferred := s.deferred ++ [check] } : CompileM PUnit)
      (modify fun s => { s with deferred := s.deferred ++ [check] }) :=
    agree_modify (fun s => { s with deferred := s.deferred ++ [check] }) (fun _ => rfl) fun _ => rfl
  unfold checkOrDefer
  refine .bind fun c d h => ?_
  rw [h.deferring]
  infer_instance

mutual

instance agree_resolveType : ∀ t : TypeExpr, Agree (resolveType t) (resolveType t)
  | .named name args span => by
    have hargs := fun owner ps => agree_resolveArgs owner ps args
    unfold resolveType
    split
    · infer_instance
    · refine agree_bind_meaning? ?_ (fun d => ?_) fun t a b isConst span => ?_
      · infer_instance
      · cases d <;> dsimp only <;> infer_instance
      · infer_instance
  | .pointer inner _ => by
    have := agree_resolveType inner
    unfold resolveType
    infer_instance
  | .array inner _ => by
    have := agree_resolveType inner
    unfold resolveType
    infer_instance
  | .function params result _ => by
    have := agree_resolveTypes params
    have := agree_resolveType result
    unfold resolveType
    infer_instance

instance agree_resolveTypes : ∀ ts : List TypeExpr, Agree (resolveTypes ts) (resolveTypes ts)
  | [] => by
    unfold resolveTypes
    infer_instance
  | t :: ts => by
    have := agree_resolveType t
    have := agree_resolveTypes ts
    unfold resolveTypes
    infer_instance

instance agree_resolveArgs (owner : String) : ∀ (ps : List TemplateParam) (ts : List TypeExpr),
    Agree (resolveArgs owner ps ts) (resolveArgs owner ps ts)
  | p :: ps, t :: ts => by
    have := agree_resolveType t
    have := agree_resolveArgs owner ps ts
    unfold resolveArgs
    refine @agree_bind_exact _ _ _ _ _ _ _ _ _ _ fun arg => .bind fun c d h => ?_
    rw [h.path]
    infer_instance
  | [], _ => by
    unfold resolveArgs
    infer_instance
  | _ :: _, [] => by
    unfold resolveArgs
    infer_instance

end

instance (t : TypeExpr) : Agree (resolveClass t) (resolveClass t) := by
  unfold resolveClass
  infer_instance

instance (t : Ty) : Agree (classId t) (classId t) := by
  unfold classId
  split <;> infer_instance

/-! ## Values -/

instance (dst src : Address) (n : Nat) : Unnoticed (move dst src n) := by
  unfold move
  infer_instance

instance (dst src : Address) (n k : Nat) : Unnoticed (copyBits dst src n k) := by
  unfold copyBits
  infer_instance

instance (value dest : Slot) (k : Conversion) : Unnoticed (convertInto value dest k) := by
  unfold convertInto
  dsimp only
  generalize k.kind = kind
  cases kind <;> infer_instance

instance (t : Ty) (dest : Option Slot) : Unnoticed (resultAddress t dest) := by
  unfold resultAddress
  cases dest <;> infer_instance

instance (reg : Register) : Unnoticed (spill reg) := by
  unfold spill
  infer_instance

instance (source target : Ty) (span : Span) :
    Agree (checkConversion source target span) (checkConversion source target span) := by
  unfold checkConversion
  refine .bind fun c d h => ?_
  rw [h.registry]
  dsimp only
  split <;> infer_instance

/-- Nothing is said about the conversion of a type into itself. -/
theorem agree_checkConversion_self (t : Ty) (span : Span) :
    Agree (pure .identity) (checkConversion t t span) := by
  have hself : ∀ r : Registry, r.conversion? t t = some .identity := by
    intro r
    unfold Registry.conversion? Registry.conversionAlong?
    exact if_pos rfl
  unfold checkConversion
  simp only [hself]
  exact ⟨fun _ _ h => ⟨rfl, h⟩⟩

instance (t target : Ty) (a b : Address) (span : Span) :
    Agree (coerce ⟨t, a⟩ target span) (coerce ⟨t, b⟩ target span) := by
  unfold coerce
  dsimp only
  infer_instance

/-- A value that is in place already is not converted, and if it were, nothing would be said. -/
instance (t u : Ty) (a a' b b' : Address) (span : Span) :
    Agree (settle ⟨t, a⟩ ⟨u, b⟩ span) (settle ⟨t, a'⟩ ⟨u, b'⟩ span) := by
  have hconvert : ∀ v d v' d' : Slot, Agree
      (do convertInto v d (← checkConversion t u span))
      (do convertInto v' d' (← checkConversion t u span)) := fun v d v' d' => inferInstance
  have hsettle : ∀ a b : Address, Agree (settle ⟨t, a⟩ ⟨u, b⟩ span)
      (do convertInto ⟨t, a⟩ ⟨u, b⟩ (← checkConversion t u span)) := by
    intro a b
    unfold settle
    split
    · rename_i hsame
      injection hsame with ht ha
      subst ht
      have hnothing : Agree (pure ()) (do convertInto ⟨t, a⟩ ⟨t, b⟩ (← checkConversion t t span)) := by
        have := agree_checkConversion_self t span
        have hbind : Agree (pure Conversion.identity >>= fun _ => pure ())
            (do convertInto ⟨t, a⟩ ⟨t, b⟩ (← checkConversion t t span)) := inferInstance
        rwa [pure_bind] at hbind
      exact hnothing
    · infer_instance
  exact (hsettle a b).trans ((hconvert _ _ _ _).trans (hsettle a' b').symm)

instance (t : Ty) (a b : Address) : Agree (asWord ⟨t, a⟩) (asWord ⟨t, b⟩) := by
  unfold asWord
  dsimp only
  infer_instance

instance (t : Ty) (a b : Address) (span : Span) :
    Agree (condition ⟨t, a⟩ span) (condition ⟨t, b⟩ span) := by
  unfold condition
  dsimp only
  infer_instance

instance (e : Expr) (t : Ty) (a b : Address) :
    Agree (requireValue e ⟨t, a⟩) (requireValue e ⟨t, b⟩) := by
  unfold requireValue
  dsimp only
  infer_instance

/-! ## Places -/

instance (dest dest' : Option Slot) (t : Ty) (l l' : Location) (isConst : Bool)
    (name : Option String) [h : Alike l l'] :
    Agree (read dest ⟨t, l, isConst, name⟩) (read dest' ⟨t, l', isConst, name⟩) := by
  refine h.location_cases
    (P := fun l l' => Agree (read dest ⟨t, l, isConst, name⟩) (read dest' ⟨t, l', isConst, name⟩)) ?_ ?_
  · intro a b
    unfold read
    infer_instance
  · intro p q offset
    unfold read
    dsimp only
    infer_instance

instance (p q : Address) (offset : Nat) (t : Ty) (a b : Address) :
    Agree (storeThrough p offset ⟨t, a⟩) (storeThrough q offset ⟨t, b⟩) := by
  unfold storeThrough
  infer_instance

instance (target : Expr) (t : Ty) (l l' : Location) (isConst : Bool) (name : Option String)
    (span : Span) : Agree (checkAssignable target ⟨t, l, isConst, name⟩ span)
      (checkAssignable target ⟨t, l', isConst, name⟩ span) := by
  unfold checkAssignable
  dsimp only
  split <;> infer_instance

instance agree_writePlace (t : Ty) (l l' : Location) (isConst : Bool) (name : Option String)
    (leave leave' : Slot → CompileM Unit) (stored stored' : CompileM Slot) [h : Alike l l']
    [hleave : ∀ a b, Agree (leave ⟨t, a⟩) (leave' ⟨t, b⟩)] [hstored : Agree stored stored'] :
    Agree (writePlace ⟨t, l, isConst, name⟩ leave stored)
      (writePlace ⟨t, l', isConst, name⟩ leave' stored') := by
  refine h.location_cases (P := fun l l' => Agree (writePlace ⟨t, l, isConst, name⟩ leave stored)
    (writePlace ⟨t, l', isConst, name⟩ leave' stored')) ?_ ?_
  · intro a b
    unfold writePlace
    dsimp only
    infer_instance
  · intro p q offset
    unfold writePlace
    dsimp only
    infer_instance

instance (reg : Register) (l : Location) : Unnoticed (pointTo reg l) := by
  cases l <;> unfold pointTo <;> infer_instance

instance (dest dest' : Option Slot) (t : Ty) (l l' : Location) (isConst : Bool)
    (name : Option String) :
    Agree (addressOf dest ⟨t, l, isConst, name⟩) (addressOf dest' ⟨t, l', isConst, name⟩) := by
  unfold addressOf
  dsimp only
  infer_instance

instance (t : Ty) (a b : Address) : Agree (tagObject ⟨t, a⟩) (tagObject ⟨t, b⟩) := by
  unfold tagObject
  dsimp only
  infer_instance

instance (t : Ty) (a b : Address) : Agree (clear ⟨t, a⟩) (clear ⟨t, b⟩) := by
  unfold clear
  dsimp only
  infer_instance

instance (t : Ty) (member : Ident) : Agree (fieldOf t member) (fieldOf t member) := by
  unfold fieldOf
  refine .bind fun c d h => ?_
  rw [h.registry]
  dsimp only
  split <;> infer_instance

instance (t : Ty) (l l' : Location) (isConst : Bool) (name : Option String) (member : Ident)
    [Alike l l'] : Agree (fieldPlace ⟨t, l, isConst, name⟩ member)
      (fieldPlace ⟨t, l', isConst, name⟩ member) := by
  unfold fieldPlace
  dsimp only
  split
  · infer_instance
  · split <;> infer_instance

instance (t : Ty) (a b : Address) (span : Span) :
    Agree (pointeePlace ⟨t, a⟩ span) (pointeePlace ⟨t, b⟩ span) := by
  unfold pointeePlace
  dsimp only
  split <;> infer_instance

instance (t : Ty) (a b : Address) (span : Span) :
    Agree (elementType ⟨t, a⟩ span) (elementType ⟨t, b⟩ span) := by
  unfold elementType
  dsimp only
  split <;> infer_instance

instance (reg : Register) (array position : Address) (n : Nat) :
    Unnoticed (pointToElement reg array position n) := by
  unfold pointToElement
  infer_instance

instance (t element u : Ty) (a a' b b' : Address) (span : Span) :
    Agree (elementPlace ⟨t, a⟩ element ⟨u, b⟩ span) (elementPlace ⟨t, a'⟩ element ⟨u, b'⟩ span) := by
  unfold elementPlace
  dsimp only
  infer_instance

instance (t : Ty) (mangled : String) :
    Agree (functionPointer t mangled) (functionPointer t mangled) := by
  unfold functionPointer
  infer_instance

instance (name : String) (ids : List Nat) (span : Span) :
    Agree (functionValue name ids span) (functionValue name ids span) := by
  unfold functionValue
  split <;> infer_instance

instance (name : String) (span : Span) : Agree (namePlace name span) (namePlace name span) := by
  unfold namePlace
  refine agree_bind_meaning (fun d => ?_) fun t a b isConst definedAt => ?_
  · cases d <;> infer_instance
  · have : Alike (Binding.place ⟨t, a, isConst, definedAt⟩ name)
        (Binding.place ⟨t, b, isConst, definedAt⟩ name) := ⟨rfl⟩
    exact agree_pure _ _

instance (span : Span) : Agree (receiverPlace span) (receiverPlace span) := by
  unfold receiverPlace
  refine .bind fun b b' h => ?_
  have : Alike { b.place "this" with isConst := true } { b'.place "this" with isConst := true } :=
    ⟨congrArg (fun b : Binding => Place.mk b.type (.fixed b.address) true (some "this")) h.eq⟩
  exact agree_pure _ _

instance (l : Literal) : Agree (literalSlot l) (literalSlot l) := by
  unfold literalSlot
  cases l <;> infer_instance

/-! ## Operators, casts and joins -/

instance (op : OneOp) (a b : Address) (t : Ty) (dest dest' : Option Slot) :
    Agree (applyOne op a t dest) (applyOne op b t dest') := by
  unfold applyOne
  infer_instance

instance (instr : OneOp) (op : UnaryOp) (t : Ty) (a b : Address) (span : Span)
    (dest dest' : Option Slot) :
    Agree (applyIntegral instr op ⟨t, a⟩ span dest) (applyIntegral instr op ⟨t, b⟩ span dest') := by
  unfold applyIntegral
  dsimp only
  infer_instance

instance (t : Ty) (a b : Address) (span : Span) (dest dest' : Option Slot) :
    Agree (negate ⟨t, a⟩ span dest) (negate ⟨t, b⟩ span dest') := by
  unfold negate
  dsimp only
  infer_instance

instance (operand : Expr) (t : Ty) (l l' : Location) (isConst : Bool) (name : Option String)
    (span : Span) (dest dest' : Option Slot) :
    Agree (addressOfOperand operand ⟨t, l, isConst, name⟩ span dest)
      (addressOfOperand operand ⟨t, l', isConst, name⟩ span dest') := by
  unfold addressOfOperand
  dsimp only
  infer_instance

instance (op : IntOp) (a a' b b' : Address) (dest dest' : Option Slot) :
    Agree (applyInt op a b dest) (applyInt op a' b' dest') := by
  unfold applyInt
  infer_instance

instance (op : BinaryOp) (t u : Ty) (a a' b b' : Address) (span : Span) (dest dest' : Option Slot) :
    Agree (applyFloat op ⟨t, a⟩ ⟨u, b⟩ span dest) (applyFloat op ⟨t, a'⟩ ⟨u, b'⟩ span dest') := by
  unfold applyFloat
  split
  · infer_instance
  · dsimp only
    infer_instance

instance (op : BinaryOp) (t u : Ty) (a a' b b' : Address) (span : Span) (dest dest' : Option Slot) :
    Agree (applyBinary op ⟨t, a⟩ ⟨u, b⟩ span dest) (applyBinary op ⟨t, a'⟩ ⟨u, b'⟩ span dest') := by
  have hfail : Agree (do
      let r := (← get).registry
      fail (.typing (.binaryOperands op.spelling (r.typeName t) (r.typeName u))) span :
        CompileM Slot) (do
      let r := (← get).registry
      fail (.typing (.binaryOperands op.spelling (r.typeName t) (r.typeName u))) span) := by
    refine .bind fun c d h => ?_
    rw [h.registry]
    infer_instance
  unfold applyBinary
  dsimp only at hfail ⊢
  infer_instance

instance (t u : Ty) (a a' b b' : Address) (target : Label) (span : Span) :
    Agree (jumpIfEqual ⟨t, a⟩ ⟨u, b⟩ target span) (jumpIfEqual ⟨t, a'⟩ ⟨u, b'⟩ target span) := by
  unfold jumpIfEqual
  infer_instance

instance agree_lazyOperator (isAnd : Bool) (left left' : CompileM Address)
    (right right' : Slot → CompileM Unit) (dest dest' : Option Slot) [Agree left left']
    [∀ a b, Agree (right ⟨.int, a⟩) (right' ⟨.int, b⟩)] :
    Agree (lazyOperator isAnd left right dest) (lazyOperator isAnd left' right' dest') := by
  unfold lazyOperator
  dsimp only
  infer_instance

instance (t target : Ty) (a b : Address) (span : Span) (dest dest' : Option Slot) :
    Agree (castTo ⟨t, a⟩ target span dest) (castTo ⟨t, b⟩ target span dest') := by
  unfold castTo
  refine .bind fun c d h => ?_
  rw [h.registry]
  dsimp only
  split
  · infer_instance
  · split
    · split <;> infer_instance
    · infer_instance

instance (t : Ty) (a b : Address) (valueSpan : Span) (owner : TypeExpr) (dest dest' : Option Slot) :
    Agree (instanceTest ⟨t, a⟩ valueSpan owner dest) (instanceTest ⟨t, b⟩ valueSpan owner dest') := by
  unfold instanceTest
  dsimp only
  infer_instance

instance (types : List Ty) (span : Span) :
    Agree (commonType types span) (commonType types span) := by
  unfold commonType
  refine .bind fun c d h => ?_
  rw [h.registry]
  dsimp only
  split <;> infer_instance

instance (t u : Ty) (a a' b b' : Address) (span : Span) :
    Agree (joinInto ⟨t, a⟩ ⟨u, b⟩ span) (joinInto ⟨t, a'⟩ ⟨u, b'⟩ span) := by
  unfold joinInto
  dsimp only
  infer_instance

theorem branch_types_of_alike {bs bs' : List Branch} (h : Alike bs bs') :
    bs.map (·.value.type) = bs'.map (·.value.type) := by
  have htypes := congrArg (List.map fun b : Branch => b.value.type) h.eq
  have hforget : ∀ bs : List Branch, (blur bs).map (fun b => b.value.type) =
      bs.map fun b => b.value.type := fun bs => List.map_map
  rwa [hforget, hforget] at htypes

theorem agree_joinAll (t : Ty) (a b : Address) (done : Label) {bs bs' : List Branch}
    (h : Alike bs bs') : Agree (joinAll ⟨t, a⟩ done bs) (joinAll ⟨t, b⟩ done bs') := by
  refine agree_forM (fun branch branch' hbranch => ?_) h
  obtain ⟨⟨u, p⟩, join, span⟩ := branch
  obtain ⟨⟨u', q⟩, join', span'⟩ := branch'
  have heq := hbranch.eq
  injection heq with hvalue hjoin hspan
  injection hvalue with ht
  subst ht hjoin hspan
  infer_instance

/-! ## Calls -/

section Callee

variable (receiver receiver' : Option Address) (base base' : Address) (region region' : Nat)

/-- The call instructions of two callees agree at any base. -/
instance (f f' : String) : Agree (emitCallee (.function f) receiver base region)
    (emitCallee (.function f') receiver' base' region') := by
  unfold emitCallee
  infer_instance

instance (n n' : Native) : Agree (emitCallee (.native n) receiver base region)
    (emitCallee (.native n') receiver' base' region') := by
  unfold emitCallee
  infer_instance

instance (a b : Address) : Agree (emitCallee (.pointer a) receiver base region)
    (emitCallee (.pointer b) receiver' base' region') := by
  unfold emitCallee
  infer_instance

instance (a b : Address) (slot : Nat) : Agree (emitCallee (.dispatch slot) (some a) base region)
    (emitCallee (.dispatch slot) (some b) base' region') := by
  unfold emitCallee
  infer_instance

end Callee

theorem types_of_alike {args args' : List Slot} (h : Alike args args') :
    args.map (·.type) = args'.map (·.type) := by
  have htypes := congrArg (List.map Slot.type) h.eq
  have hforget : ∀ args : List Slot, (blur args).map Slot.type = args.map Slot.type :=
    fun args => List.map_map
  rwa [hforget, hforget] at htypes

/-- The arguments of a call are copied one after the other. -/
theorem agree_pushArgs {args args' : List Slot} (h : Alike args args') : Agree
    (args.forM fun arg => do
      let length ← lengthOf arg.type
      move (← alloc length) arg.address length)
    (args'.forM fun arg => do
      let length ← lengthOf arg.type
      move (← alloc length) arg.address length) := by
  refine agree_forM (fun arg arg' harg => ?_) h
  rw [harg.type]
  infer_instance

/-- How much is handed over depends on the types of the arguments and on whether there is a
receiver. -/
theorem agree_handedOver (result : Ty) (receiver receiver' : Option Address)
    (hreceiver : receiver.isSome = receiver'.isSome) {args args' : List Slot}
    (h : Alike args args') :
    Agree (fromRegistry (handedOver · result receiver args))
      (fromRegistry (handedOver · result receiver' args')) := by
  have hsame : ∀ r : Registry,
      handedOver r result receiver args = handedOver r result receiver' args' := by
    intro r
    have hpointer : (receiver.elim 0 fun _ => r.pointerSize) =
        receiver'.elim 0 fun _ => r.pointerSize := by
      cases receiver <;> cases receiver' <;> first | rfl | cases hreceiver
    rw [handedOver, handedOver, hpointer, types_of_alike h]
  rw [funext hsame]
  infer_instance

instance (callee callee' : Callee) (result : Ty) (args args' : List Slot)
    [∀ a b k l, Agree (emitCallee callee none a k) (emitCallee callee' none b l)]
    [h : Alike args args'] :
    Agree (emitCall callee result none args) (emitCall callee' result none args') := by
  have := agree_pushArgs h
  have := agree_handedOver result none none rfl h
  unfold emitCall
  dsimp only
  infer_instance

instance (callee callee' : Callee) (result : Ty) (receiver receiver' : Address)
    (args args' : List Slot) [∀ a b k l, Agree (emitCallee callee (some receiver) a k)
      (emitCallee callee' (some receiver') b l)] [h : Alike args args'] :
    Agree (emitCall callee result (some receiver) args)
      (emitCall callee' result (some receiver') args') := by
  have := agree_pushArgs h
  have := agree_handedOver result (some receiver) (some receiver') rfl h
  unfold emitCall
  dsimp only
  infer_instance

instance {κ : Type} (name : String) (candidates : List (Candidate κ)) (args args' : List Slot)
    (span : Span) [h : Alike args args'] :
    Agree (select name candidates args span) (select name candidates args' span) := by
  unfold select
  rw [types_of_alike h]
  infer_instance

theorem agree_coerceArgs {args args' : List Slot} (h : Alike args args') (params : List Ty)
    (spans : List Span) : Agree (coerceArgs args params spans) (coerceArgs args' params spans) := by
  induction args generalizing args' params spans with
  | nil =>
    cases args' with
    | nil =>
      unfold coerceArgs
      infer_instance
    | cons => cases h.eq
  | cons arg args ih =>
    cases args' with
    | nil => cases h.eq
    | cons arg' args' =>
      obtain ⟨t, a⟩ := arg
      obtain ⟨t', b⟩ := arg'
      obtain rfl : t = t' := h.head.1.type
      cases params with
      | nil =>
        unfold coerceArgs
        infer_instance
      | cons param params =>
        cases spans with
        | nil =>
          unfold coerceArgs
          infer_instance
        | cons span spans =>
          have := ih h.head.2 params spans
          unfold coerceArgs
          infer_instance

instance (args args' : List Slot) (params : List Ty) (spans : List Span) [h : Alike args args'] :
    Agree (coerceArgs args params spans) (coerceArgs args' params spans) :=
  agree_coerceArgs h params spans

instance (ids : List Nat) : Agree (functionCandidates ids) (functionCandidates ids) := by
  unfold functionCandidates
  infer_instance

instance (owner : Ty) (name : String) (args args' : List Slot) (span : Span)
    [h : Alike args args'] :
    Agree (selectMethod owner name args span) (selectMethod owner name args' span) := by
  unfold selectMethod
  refine .bind fun c d hcd => ?_
  rw [hcd.registry]
  dsimp only
  split <;> infer_instance

instance (owner : Ty) (name : String) (slot : Nat) :
    Agree (methodResult owner name slot) (methodResult owner name slot) := agree_fromRegistry _

instance (owner : Ty) (name : String) (slot : Nat) (span : Span) :
    Agree (implementation owner name slot span) (implementation owner name slot span) := by
  unfold implementation
  split
  · infer_instance
  · refine @agree_bind_exact _ _ _ _ _ _ _ _ _ _ fun c => ?_
    split <;> infer_instance

instance (owner : Ty) (name : String) : Agree (hasMethod owner name) (hasMethod owner name) :=
  agree_fromRegistry _

section Arguments

variable (args args' : CompileM (List Slot)) [Agree args args'] (argSpans : List Span) (span : Span)

instance (name : String) (ids : List Nat) :
    Agree (callFunction name ids args argSpans span) (callFunction name ids args' argSpans span) := by
  unfold callFunction
  infer_instance

instance (name : String) (n : Native) :
    Agree (callNative name n args argSpans span) (callNative name n args' argSpans span) := by
  unfold callNative
  infer_instance

instance (t : Ty) (a b : Address) :
    Agree (callValue ⟨t, a⟩ args argSpans span) (callValue ⟨t, b⟩ args' argSpans span) := by
  unfold callValue
  dsimp only
  split <;> infer_instance

instance (owner : Ty) (name : String) (t : Ty) (l l' : Location) (isConst : Bool)
    (variableName : Option String) [Alike l l'] :
    Agree (callDispatched owner name ⟨t, l, isConst, variableName⟩ args argSpans span)
      (callDispatched owner name ⟨t, l', isConst, variableName⟩ args' argSpans span) := by
  unfold callDispatched
  infer_instance

instance (owner : Ty) (name : String) (receiver receiver' : Address) :
    Agree (callStatic owner name receiver args argSpans span)
      (callStatic owner name receiver' args' argSpans span) := by
  unfold callStatic
  infer_instance

instance (t : Ty) (l l' : Location) (isConst : Bool) (variableName : Option String)
    (member : Ident) (fieldValue fieldValue' : CompileM Slot) [Alike l l']
    [Agree fieldValue fieldValue'] :
    Agree (callMember ⟨t, l, isConst, variableName⟩ member fieldValue args argSpans span)
      (callMember ⟨t, l', isConst, variableName⟩ member fieldValue' args' argSpans span) := by
  have hfield : Agree (do
      let r := (← get).registry
      let owner := t.pointeeClass?.or (if t.isClassLike then some t else none)
      if (owner.bind fun owner => r.field? owner member.name).isSome then
        callValue (← fieldValue) args argSpans span
      else fail (.unknownMethod member.name (r.typeName t)) member.span : CompileM Slot) (do
      let r := (← get).registry
      let owner := t.pointeeClass?.or (if t.isClassLike then some t else none)
      if (owner.bind fun owner => r.field? owner member.name).isSome then
        callValue (← fieldValue') args' argSpans span
      else fail (.unknownMethod member.name (r.typeName t)) member.span) := by
    refine .bind fun c d h => ?_
    rw [h.registry]
    infer_instance
  unfold callMember
  dsimp only at hfield ⊢
  split <;> infer_instance

end Arguments

instance (owner : Ty) : Agree (receiverIsImplicit owner) (receiverIsImplicit owner) := by
  unfold receiverIsImplicit
  refine .bind fun c d h => ?_
  have hclass : c.scopes.receiverClass? = d.scopes.receiverClass? :=
    congrArg (·.bind (·.owner)) (Scopes.function?_congr (Scopes.kinds_of_alike h.scopes.eq))
  rw [hclass, h.registry]
  split <;> infer_instance

instance (owner : TypeExpr) (member : Ident) :
    Agree (scopedMethod owner member) (scopedMethod owner member) := by
  unfold scopedMethod
  infer_instance

instance (owner : TypeExpr) (member : Ident) (span : Span) :
    Agree (scopedValue owner member span) (scopedValue owner member span) := by
  unfold scopedValue
  refine @agree_bind_exact _ _ _ _ _ _ _ _ _ _ fun owner => .bind fun c d h => ?_
  rw [h.registry]
  split <;> infer_instance

instance agree_sizedType (operand : Expr) (value value' : CompileM Slot) [Agree value value'] :
    Agree (sizedType operand value) (sizedType operand value') := by
  unfold sizedType
  split
  · refine agree_bind_meaning? ?_ (fun d => ?_) fun t a b isConst span => ?_
    · infer_instance
    · cases d <;> infer_instance
    · infer_instance
  · infer_instance

instance (operand : Expr) (value value' : CompileM Slot) [Agree value value'] :
    Agree (sizeOfOperand operand value) (sizeOfOperand operand value') := by
  unfold sizeOfOperand
  infer_instance

instance (t : Ty) (a b : Address) (span : Span) :
    Agree (lengthOfArray ⟨t, a⟩ span) (lengthOfArray ⟨t, b⟩ span) := by
  unfold lengthOfArray
  dsimp only
  infer_instance

end Lowering

end ClassLang
