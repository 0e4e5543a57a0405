import ClassLang.Proofs.Writes.Calls

/-!
# Expressions are confined

Without assignments, an expression writes into its destination and into fresh storage. An assignment
also writes where its target is. If that is a fixed place, then it is in fresh storage or in a
*home* of the target: the storage of a variable, or of a part of one, that the target denotes
without a copy. A place in a constant is constant, and cannot be assigned to. But two forms lose
track of that: a cast of an object to its own class leaves it where it is, and so does an assignment
through a pointer with the object that was assigned.
-/

-- The instances of long steps are large terms.
set_option synthInstance.maxSize 1000

namespace ClassLang

open CompileM Lowering

namespace Expr

mutual

/-- The targets of the assignments in an expression. -/
def targets : Expr → List Expr
  | literal .. | name .. | receiver .. | scopedName .. | placeholder .. => []
  | assign target value _ => target :: (target.targets ++ value.targets)
  | binary _ l r _ | index l r _ => l.targets ++ r.targets
  | unary _ e _ | member e _ _ | cast e _ _ | instanceOf e _ _ => e.targets
  | call callee args _ => callee.targets ++ allTargets args
  | newObject _ es _ | newArray _ es _ | array es _ => allTargets es
  | conditional c yes no _ => c.targets ++ (yes.targets ++ no.targets)
  | switch subject arms default _ => subject.targets ++ (armTargets arms ++ default.targets)

def allTargets : List Expr → List Expr
  | [] => []
  | e :: es => e.targets ++ allTargets es

def armTargets : List Arm → List Expr
  | [] => []
  | .mk vs result _ :: arms => allTargets vs ++ (result.targets ++ armTargets arms)

end

/-- What the expression denotes is constant, as a place, if it is an object in a constant. -/
def keepsTrack : Expr → Bool
  | cast _ (.named ..) _ => false
  | assign target _ _ => target.isName
  | member object _ _ => object.keepsTrack
  | _ => true

/-- The storage of variables that the expression can denote without a copy. -/
def homes (r : Registry) (s : Scopes) : Expr → List Home
  | name n _ => s.homes n
  | receiver _ => (s.homes "this").map fun h => ⟨h.slot, true⟩
  | member object f _ => (object.homes r s).filterMap (r.fieldHome? f.name)
  | cast e (.named ..) _ => (e.homes r s).map fun h => ⟨h.slot, false⟩
  | assign target value _ =>
    -- The place of a name is fixed, so the value is copied there.
    if target.isName then [] else (value.homes r s).map fun h => ⟨h.slot, false⟩
  | _ => []

end Expr

/-- The targets can be assigned to, since their storage may be written unless it is constant. -/
def Area.Permits (A : Area) (targets : List Expr) : Prop :=
  ∀ t ∈ targets, ∀ h ∈ t.homes A.registry A.scopes, h.isConst = false → A.Offers h.slot

theorem Area.permits_append {A : Area} {ts us : List Expr} :
    A.Permits (ts ++ us) ↔ A.Permits ts ∧ A.Permits us := List.forall_mem_append

/-- If the place of an expression can be assigned to, or its parts can, then it lies in the area or
where the expression has a home. -/
def Area.Tracks (A : Area) (e : Expr) (p : Place) : Prop :=
  e.isAssignable = true ∨ p.type.isClassLike = true → A.Lies (e.homes A.registry A.scopes) p

/-- An object that is not in the area is where the expression has a home. -/
def Area.Holds (A : Area) (e : Expr) (s : Slot) : Prop :=
  s.type.isClassLike = true → A.Offers s ∨ ∃ h ∈ e.homes A.registry A.scopes, h.slot = s

namespace Confined

variable {A : Area} {dest : Option Slot}

/-! ## The value of a place -/

theorem asSlot {p : CompileM Place} {Q : Place → Prop} (hdest : A.Takes dest) (hp : Confined A p Q) :
    Confined A (asSlot p dest) fun _ => True := hp.bind fun _ _ => (read hdest).weaken

theorem asValue {e : Expr} {p : CompileM Place} {Q : Place → Prop} (hdest : A.Takes dest)
    (hp : Confined A p Q) : Confined A (asValue e p dest) fun _ => True :=
  (asSlot hdest hp).bind fun _ _ => reads fun _ _ => trivial

theorem asCondition {e : Expr} {p : CompileM Place} {Q : Place → Prop} (hp : Confined A p Q) :
    Confined A (asCondition e p) fun _ => True :=
  (asSlot A.takes_none hp).bind fun _ _ => condition

/-- The value of a place is where the place is, unless it is copied. -/
theorem held {e : Expr} {p : CompileM Place} (hdest : A.Takes dest)
    (hp : Confined A p (A.Tracks e)) : Confined A (Lowering.asValue e p dest) (A.Holds e) := by
  have hslot : Confined A (Lowering.asSlot p dest) (A.Holds e) :=
    hp.bind fun p hp => (read hdest).mono fun s hs hclass => by
      rcases hs with hs | ⟨a, ha, rfl⟩
      · exact .inl hs
      · exact (hp (.inr hclass) a ha).imp_right fun hhome => ⟨_, hhome, rfl⟩
  unfold Lowering.asValue
  exact hslot.bind fun s hs => requireValue.mono fun _ h => h ▸ hs

/-- The place of an expression that is no place of its own. -/
theorem slotPlace {e : Expr} {m : CompileM Slot} (he : e.isAssignable = false)
    (hm : Confined A m fun s => s.type.isClassLike = true →
      A.Offers s ∨ ⟨s, false⟩ ∈ e.homes A.registry A.scopes) :
    Confined A (slotPlace m) (A.Tracks e) := by
  refine hm.bind fun s hs => pure fun hor a ha => ?_
  injection ha with ha
  rw [he] at hor
  exact ha ▸ hs (hor.resolve_left fun h => by cases h)

theorem slotPlace_owns {e : Expr} {m : CompileM Slot} (he : e.isAssignable = false)
    (hm : Confined A m A.Owns) : Confined A (Lowering.slotPlace m) (A.Tracks e) :=
  slotPlace he (hm.mono fun _ h hclass => .inl (h hclass))

theorem lies {e : Expr} {m : CompileM Place}
    (hm : Confined A m (A.Lies (e.homes A.registry A.scopes))) : Confined A m (A.Tracks e) :=
  hm.mono fun _ h _ => h

/-! ## Constructs -/

theorem intrinsicCall {intrinsic : Intrinsic} {operand : Expr} {p : CompileM Place}
    {Q : Place → Prop} (hp : Confined A p Q) :
    Confined A (intrinsicCall intrinsic operand p) A.Owns := by
  unfold Lowering.intrinsicCall
  split
  · exact sizeOfOperand (asSlot A.takes_none hp)
  · exact (asValue A.takes_none hp).bind fun _ _ => lengthOfArray

theorem conditional {test : CompileM Address} {yes no : CompileM Slot}
    {yesSpan noSpan span : Span} (hdest : A.Takes dest) (htest : Confined A test fun _ => True)
    (hyes : Confined A yes fun _ => True) (hno : Confined A no fun _ => True) :
    Confined A (conditional test yes no yesSpan noSpan span dest) A.Owns := by
  unfold Lowering.conditional
  refine freshLabel.bind fun otherwise _ => freshLabel.bind fun done _ => ?_
  refine freshLabel.bind fun join _ => htest.bind fun c _ => silent_bind (fun _ => rfl) ?_
  refine hyes.bind fun yesValue _ => silent_bind (fun _ => rfl) (silent_bind (fun _ => rfl) ?_)
  refine hno.bind fun noValue _ => reads_bind fun type => ?_
  refine (resultAddress hdest).bind fun a ha => ?_
  refine (joinInto ha).bind fun _ _ => silent_bind (fun _ => rfl) (silent_bind (fun _ => rfl) ?_)
  exact (joinInto ha).bind fun _ _ => silent_bind (fun _ => rfl) (pure ha.owns)

theorem switch {subject default : CompileM Slot} {arms : List Arm} {defaultSpan span : Span}
    (hdest : A.Takes dest) (hsubject : Confined A subject fun _ => True)
    (hdefault : Confined A default fun _ => True)
    (htests : ∀ s, Confined A (armTests s arms) fun _ => True)
    (hbodies : ∀ ls, Confined A (armBodies dest arms ls) fun _ => True) :
    Confined A (switch subject default arms defaultSpan span dest) A.Owns := by
  unfold Lowering.switch
  refine hsubject.bind fun s _ => freshLabel.bind fun done _ => (htests s).bind fun bodies _ => ?_
  refine freshLabel.bind fun join _ => hdefault.bind fun value _ => silent_bind (fun _ => rfl) ?_
  refine (hbodies bodies).bind fun branches _ => reads_bind fun type => ?_
  refine (resultAddress hdest).bind fun a ha => ?_
  exact (joinAll ha).bind fun _ _ => silent_bind (fun _ => rfl) (pure ha.owns)

/-- Only a class can have a name. -/
theorem resolveType_plain {t : TypeExpr} {e : Expr} {span : Span}
    (ht : (Expr.cast e t span).keepsTrack = true) :
    Confined A (resolveType t) fun type => type.isClassLike = false := by
  have hhas : ∀ t, Confined A (resolveType t) fun _ => True := fun t =>
    (inferInstance : Has (Writes A) (resolveType t)).out
  cases t with
  | named name args span => cases ht
  | pointer inner span | array inner span =>
    unfold resolveType
    exact (hhas inner).bind fun _ _ => pure rfl
  | function params result span =>
    have hparams : Has (Writes A) (resolveTypes params) := inferInstance
    unfold resolveType
    exact hparams.out.bind fun _ _ => (hhas result).bind fun _ _ => pure rfl

theorem checkAssignable {target : Expr} {p : Place} {span : Span} :
    Confined A (checkAssignable target p span) fun _ => p.isConst = false := by
  cases hconst : p.isConst with
  | false => exact reads fun _ _ => rfl
  | true =>
    unfold Lowering.checkAssignable
    dsimp only
    rw [hconst]
    split
    · split
      · exact fail_bind
      · exact fail
    · exact fail

theorem place_of_isName {target : Expr} (h : target.isName = true) :
    Confined A (place none target) fun p => ∃ a, p.location = .fixed a := by
  cases target with
  | name n span =>
    unfold Lowering.place
    exact namePlace.mono fun _ h => h.1
  | _ => cases h

/-! ## The forms of an expression -/

/-- An expression whose place is tracked, wherever its value is wanted. -/
def Tracked (A : Area) (e : Expr) : Prop :=
  ∀ ⦃dest⦄, A.Takes dest → Confined A (Lowering.place dest e) (A.Tracks e)

namespace Tracked

variable {e left right : Expr} {es args : List Expr} {arms : List Arm} {span : Span}

theorem locates (he : Tracked A e) : Confined A (Lowering.place none e) (A.Tracks e) :=
  he A.takes_none

theorem slot (he : Tracked A e) :
    Confined A (Lowering.asSlot (Lowering.place none e) none) fun _ => True :=
  asSlot A.takes_none he.locates

theorem evaluates (he : Tracked A e) (hdest : A.Takes dest) :
    Confined A (Lowering.asValue e (Lowering.place dest e) dest) fun _ => True :=
  asValue hdest (he hdest)

theorem value (he : Tracked A e) :
    Confined A (Lowering.asValue e (Lowering.place none e) none) fun _ => True :=
  he.evaluates A.takes_none

theorem condition (he : Tracked A e) :
    Confined A (Lowering.asCondition e (Lowering.place none e)) fun _ => True :=
  asCondition he.locates

/-- The value is left in a slot that is offered for it. -/
theorem settled {s : Slot} (he : Tracked A e) (hs : A.Offers s) :
    Confined A (do
      Lowering.settle (← Lowering.asSlot (Lowering.place (some s) e) (some s)) s span)
      fun _ => True :=
  (asSlot (A.takes_some hs) (he (A.takes_some hs))).bind fun _ _ => settle hs

theorem values (hes : ∀ e ∈ es, Tracked A e) : Confined A (Lowering.values es) fun _ => True := by
  induction es with
  | nil =>
    unfold Lowering.values
    exact pure trivial
  | cons e es ih =>
    obtain ⟨he, hes⟩ := List.forall_mem_cons.mp hes
    unfold Lowering.values
    exact he.value.bind fun _ _ => (ih hes).bind fun _ _ => pure trivial

theorem dimensions (hes : ∀ e ∈ es, Tracked A e) :
    Confined A (Lowering.dimensions es) fun _ => True := by
  induction es with
  | nil =>
    unfold Lowering.dimensions
    exact pure trivial
  | cons e es ih =>
    obtain ⟨he, hes⟩ := List.forall_mem_cons.mp hes
    unfold Lowering.dimensions
    refine he.value.bind fun _ _ => dimension.bind fun _ _ => ?_
    exact (ih hes).bind fun _ _ => pure trivial

theorem coerced {element : Ty} (hes : ∀ e ∈ es, Tracked A e) :
    Confined A (Lowering.coerced element es) fun _ => True := by
  induction es with
  | nil =>
    unfold Lowering.coerced
    exact pure trivial
  | cons e es ih =>
    obtain ⟨he, hes⟩ := List.forall_mem_cons.mp hes
    unfold Lowering.coerced
    refine he.value.bind fun _ _ => coerce.bind fun _ _ => ?_
    exact (ih hes).bind fun _ _ => pure trivial

theorem tests {subject : Slot} {target : Label} (hes : ∀ e ∈ es, Tracked A e) :
    Confined A (Lowering.tests subject target es) fun _ => True := by
  induction es with
  | nil =>
    unfold Lowering.tests
    exact pure trivial
  | cons e es ih =>
    obtain ⟨he, hes⟩ := List.forall_mem_cons.mp hes
    unfold Lowering.tests
    refine Confined.bind (Q := fun _ => True) (withTemps ?_) fun _ _ => ih hes
    exact he.value.bind fun _ _ => jumpIfEqual

theorem armTests {subject : Slot} (harms : ∀ arm ∈ arms, ∀ e ∈ arm.values, Tracked A e) :
    Confined A (Lowering.armTests subject arms) fun _ => True := by
  induction arms with
  | nil =>
    unfold Lowering.armTests
    exact pure trivial
  | cons arm arms ih =>
    obtain ⟨vs, result, span⟩ := arm
    obtain ⟨hvs, harms⟩ := List.forall_mem_cons.mp harms
    unfold Lowering.armTests
    refine freshLabel.bind fun body _ => (tests hvs).bind fun _ _ => ?_
    exact (ih harms).bind fun _ _ => pure trivial

theorem armBodies {ls : List Label} (harms : ∀ arm ∈ arms, Tracked A arm.result)
    (hdest : A.Takes dest) : Confined A (Lowering.armBodies dest arms ls) fun _ => True := by
  induction arms generalizing ls with
  | nil =>
    unfold Lowering.armBodies
    exact pure trivial
  | cons arm arms ih =>
    obtain ⟨vs, result, span⟩ := arm
    obtain ⟨hresult, harms⟩ := List.forall_mem_cons.mp harms
    unfold Lowering.armBodies
    cases ls with
    | nil => exact pure trivial
    | cons l ls =>
      refine silent_bind (fun _ => rfl) (freshLabel.bind fun join _ => ?_)
      refine (hresult.evaluates hdest).bind fun _ _ => silent_bind (fun _ => rfl) ?_
      exact (ih harms).bind fun _ _ => pure trivial

theorem literal {l : Literal} : Tracked A (.literal l span) := by
  intro dest _
  unfold Lowering.place
  exact slotPlace_owns rfl literalSlot

theorem name {n : String} : Tracked A (.name n span) := by
  intro dest _
  unfold Lowering.place
  exact namePlace.mono fun _ h _ => h.2

theorem receiver : Tracked A (.receiver span) := by
  intro dest _
  unfold Lowering.place
  exact lies receiverPlace

theorem binary {op : BinaryOp} (hleft : Tracked A left) (hright : Tracked A right) :
    Tracked A (.binary op left right span) := by
  intro dest hdest
  unfold Lowering.place
  split
  · exact slotPlace_owns rfl (lazyOperator hdest hleft.condition fun _ hs => hright.settled hs)
  · refine slotPlace_owns rfl (hleft.value.bind fun lhs _ => hright.value.bind fun rhs _ => ?_)
    exact applyBinary hdest

theorem unary {op : UnaryOp} (he : Tracked A e) : Tracked A (.unary op e span) := by
  intro dest hdest
  unfold Lowering.place
  cases op with
  | neg => exact slotPlace_owns rfl (he.value.bind fun _ _ => negate hdest)
  | not => exact slotPlace_owns rfl (he.condition.bind fun _ _ => applyOne hdest rfl)
  | bitNot => exact slotPlace_owns rfl (he.value.bind fun _ _ => applyIntegral hdest)
  | deref => exact lies (he.slot.bind fun _ _ => pointeePlace)
  | addrOf => exact slotPlace_owns rfl (he.locates.bind fun _ _ => addressOfOperand hdest)

/-- A place that can be assigned to may be written, since its home is not constant. -/
theorem offers_of_tracks {target : Expr} {p : Place} {a : Address} (hp : A.Tracks target p)
    (hform : target.isAssignable = true) (hconst : p.isConst = false)
    (hhomes : ∀ h ∈ target.homes A.registry A.scopes, h.isConst = false → A.Offers h.slot)
    (ha : p.location = .fixed a) : A.Offers ⟨p.type, a⟩ := by
  rcases hp (.inl hform) a ha with hoffers | hhome
  · exact hoffers
  · exact hhomes _ hhome hconst

theorem assign {target assigned : Expr} (htarget : Tracked A target) (hvalue : Tracked A assigned)
    (hhomes : ∀ h ∈ target.homes A.registry A.scopes, h.isConst = false → A.Offers h.slot) :
    Tracked A (.assign target assigned span) := by
  intro dest hdest
  unfold Lowering.place
  refine slotPlace rfl ?_
  split
  · exact fail_bind
  rename_i hform
  have hform : target.isAssignable = true := by simpa using hform
  have hplace : Confined A (Lowering.place none target) fun p => A.Tracks target p ∧
      (target.isName = true → ∃ a, p.location = .fixed a) := by
    cases hname : target.isName with
    | false => exact htarget.locates.mono fun _ h => ⟨h, fun h => by cases h⟩
    | true =>
      exact (htarget.locates.and (place_of_isName hname)).mono fun _ h => ⟨h.1, fun _ => h.2⟩
  refine hplace.bind fun p ⟨hp, hfixed⟩ => checkAssignable.bind fun _ hconst => ?_
  have hstored : Confined A (do
      Lowering.coerce (← Lowering.asValue assigned (Lowering.place none assigned) none) p.type
        assigned.span) (A.Holds assigned) :=
    (held A.takes_none hvalue.locates).bind fun v hv =>
      coerce.mono fun s hs => hs.elim (fun h => h ▸ hv) fun h _ => .inl h
  refine (writePlace (fun a ha => offers_of_tracks hp hform hconst hhomes ha)
    (fun _ hs => hvalue.settled hs) hstored).mono fun s hs hclass => ?_
  rcases hs with hs | ⟨hthrough, hs⟩
  · exact .inl hs
  · cases hname : target.isName with
    | true =>
      -- the place of a name is fixed, so nothing was written through a pointer
      obtain ⟨a, ha⟩ := hfixed hname
      exact absurd ha (hthrough a)
    | false =>
      refine (hs hclass).imp_right fun ⟨h, hmem, heq⟩ => ?_
      simp only [Expr.homes, hname]
      exact List.mem_map.mpr ⟨h, hmem, by rw [heq]⟩

/-- Whatever a call yields is in storage of its own. -/
theorem call {callee : Expr} (hcallee : Tracked A callee)
    (hobject : ∀ object member memberSpan, callee = .member object member memberSpan →
      Tracked A object)
    (hargs : ∀ e ∈ args, Tracked A e) : Tracked A (.call callee args span) := by
  intro dest _
  have hvalues := values hargs
  unfold Lowering.place
  refine slotPlace_owns rfl ?_
  dsimp only
  cases callee with
  | name n nameSpan =>
    refine reads_bind fun d => callNamed hvalues fun i => ?_
    match args, hargs with
    | [operand], hargs =>
      exact intrinsicCall (hargs operand (List.mem_singleton.mpr rfl)).locates
    | [], _ => exact fail
    | _ :: _ :: _, _ => exact fail
  | member object member memberSpan =>
    have hobject := (hobject object member memberSpan rfl).locates
    refine hobject.bind fun p _ => callMember hvalues ?_
    refine hobject.bind fun p _ => fieldPlace.bind fun field _ => ?_
    exact (read A.takes_none).bind fun _ _ => reads fun _ _ => trivial
  -- Without a receiver in scope the first argument is the receiver.
  | scopedName owner member memberSpan =>
    refine scopedMethod.bind fun owner _ => reads_bind fun implicit => ?_
    split
    · exact reads_bind fun receiver => callStatic hvalues
    · match args, hargs with
      | [], _ => exact reads_bind fun _ => fail
      | first :: rest, hargs =>
        obtain ⟨hfirst, hrest⟩ := List.forall_mem_cons.mp hargs
        exact hfirst.value.bind fun _ _ => coerce.bind fun _ _ => callStatic (values hrest)
  | _ => exact hcallee.value.bind fun _ _ => callValue hvalues

theorem member {object : Expr} {field : Ident} (hobject : Tracked A object) :
    Tracked A (.member object field span) := by
  intro dest _
  unfold Lowering.place
  refine hobject.locates.bind fun p hp => ?_
  exact fieldPlace.mono fun _ h _ => h _ fun hclass => hp (.inr hclass)

theorem scopedName {owner : TypeExpr} {field : Ident} :
    Tracked A (.scopedName owner field span) := by
  intro dest _
  unfold Lowering.place
  exact slotPlace_owns rfl scopedValue

theorem index {object position : Expr} (hobject : Tracked A object)
    (hposition : Tracked A position) : Tracked A (.index object position span) := by
  intro dest _
  unfold Lowering.place
  refine lies (hobject.slot.bind fun array _ => reads_bind fun element => ?_)
  exact hposition.slot.bind fun _ _ => elementPlace

theorem newObject {owner : TypeExpr} (hargs : ∀ e ∈ args, Tracked A e) :
    Tracked A (.newObject owner args span) := by
  intro dest _
  unfold Lowering.place
  exact slotPlace_owns rfl (Confined.newObject (values hargs))

theorem newArray {element : TypeExpr} (hes : ∀ e ∈ es, Tracked A e) :
    Tracked A (.newArray element es span) := by
  intro dest _
  unfold Lowering.place
  exact slotPlace_owns rfl (Confined.newArray (dimensions hes))

theorem array (hes : ∀ e ∈ es, Tracked A e) : Tracked A (.array es span) := by
  intro dest _
  unfold Lowering.place
  refine slotPlace_owns rfl ?_
  match es, hes with
  | [], _ => exact fail
  | first :: rest, hes =>
    obtain ⟨hfirst, hrest⟩ := List.forall_mem_cons.mp hes
    refine reads_bind fun _ => hfirst.value.bind fun v _ => ?_
    exact (coerced hrest).bind fun _ _ => arrayOf

theorem cast {target : TypeExpr} (he : Tracked A e) : Tracked A (.cast e target span) := by
  intro dest hdest
  unfold Lowering.place
  refine slotPlace rfl ((held A.takes_none he.locates).bind fun value hvalue => ?_)
  cases htrack : (Expr.cast e target span).keepsTrack with
  | true =>
    refine (resolveType_plain htrack).bind fun type htype => ?_
    refine (castTo hdest).mono fun s hs hclass => hs.imp_right fun ⟨heq, hs⟩ => ?_
    rw [hs, heq, htype] at hclass
    cases hclass
  | false =>
    -- a cast of an object to its own class leaves it in its home
    have htype : Has (Writes A) (resolveType target) := inferInstance
    refine htype.out.bind fun type _ => (castTo hdest).mono fun s hs hclass => ?_
    rcases hs with hs | ⟨-, rfl⟩
    · exact .inl hs
    · refine (hvalue hclass).imp_right fun ⟨h, hmem, heq⟩ => ?_
      cases target with
      | named name args span => exact List.mem_map.mpr ⟨h, hmem, by rw [heq]⟩
      | _ => cases htrack

theorem instanceOf {owner : TypeExpr} (he : Tracked A e) :
    Tracked A (.instanceOf e owner span) := by
  intro dest hdest
  unfold Lowering.place
  exact slotPlace_owns rfl (he.value.bind fun _ _ => instanceTest hdest)

theorem conditional {test yes no : Expr} (htest : Tracked A test) (hyes : Tracked A yes)
    (hno : Tracked A no) : Tracked A (.conditional test yes no span) := by
  intro dest hdest
  rw [place_conditional]
  exact slotPlace_owns rfl (Confined.conditional hdest htest.condition (hyes.evaluates hdest)
    (hno.evaluates hdest))

theorem switch {subject default : Expr} (hsubject : Tracked A subject)
    (hvalues : ∀ arm ∈ arms, ∀ e ∈ arm.values, Tracked A e)
    (hresults : ∀ arm ∈ arms, Tracked A arm.result) (hdefault : Tracked A default) :
    Tracked A (.switch subject arms default span) := by
  intro dest hdest
  rw [place_switch]
  exact slotPlace_owns rfl (Confined.switch hdest hsubject.value (hdefault.evaluates hdest)
    (fun _ => armTests hvalues) fun _ => armBodies hresults hdest)

theorem placeholder {n : String} : Tracked A (.placeholder n span) := by
  intro dest _
  unfold Lowering.place
  exact fail

end Tracked

/-! ## The tree -/

mutual

theorem tracked : ∀ e : Expr, A.Permits e.targets → Tracked A e
  | .literal .., _ => .literal
  | .name .., _ => .name
  | .receiver _, _ => .receiver
  | .binary _ left right _, ht =>
    have ⟨hleft, hright⟩ := A.permits_append.mp ht
    .binary (tracked left hleft) (tracked right hright)
  | .unary _ e _, ht => .unary (tracked e ht)
  | .assign target value _, ht =>
    have ⟨hhomes, ht⟩ := List.forall_mem_cons.mp ht
    have ⟨htarget, hvalue⟩ := A.permits_append.mp ht
    .assign (tracked target htarget) (tracked value hvalue) hhomes
  | .call callee args _, ht => by
    obtain ⟨hcallee, hargs⟩ := A.permits_append.mp ht
    refine .call (tracked callee hcallee) ?_ (tracked_all args hargs)
    cases callee with
    | member object member memberSpan =>
      rintro _ _ _ ⟨⟩
      exact tracked object hcallee
    | _ => nofun
  | .member object .., ht => .member (tracked object ht)
  | .scopedName .., _ => .scopedName
  | .index object position _, ht =>
    have ⟨hobject, hposition⟩ := A.permits_append.mp ht
    .index (tracked object hobject) (tracked position hposition)
  | .newObject _ args _, ht => .newObject (tracked_all args ht)
  | .newArray _ dims _, ht => .newArray (tracked_all dims ht)
  | .array es _, ht => .array (tracked_all es ht)
  | .cast e .., ht => .cast (tracked e ht)
  | .instanceOf e .., ht => .instanceOf (tracked e ht)
  | .conditional test yes no _, ht =>
    have ⟨htest, ht⟩ := A.permits_append.mp ht
    have ⟨hyes, hno⟩ := A.permits_append.mp ht
    .conditional (tracked test htest) (tracked yes hyes) (tracked no hno)
  | .switch subject arms default _, ht =>
    have ⟨hsubject, ht⟩ := A.permits_append.mp ht
    have ⟨harms, hdefault⟩ := A.permits_append.mp ht
    .switch (tracked subject hsubject) (fun arm h => (tracked_arms arms harms arm h).1)
      (fun arm h => (tracked_arms arms harms arm h).2) (tracked default hdefault)
  | .placeholder .., _ => .placeholder

theorem tracked_all : ∀ es : List Expr, A.Permits (Expr.allTargets es) → ∀ e ∈ es, Tracked A e
  | [], _ => List.forall_mem_nil _
  | e :: es, ht =>
    have ⟨he, hes⟩ := A.permits_append.mp ht
    List.forall_mem_cons.mpr ⟨tracked e he, tracked_all es hes⟩

theorem tracked_arms : ∀ arms : List Arm, A.Permits (Expr.armTargets arms) →
    ∀ arm ∈ arms, (∀ e ∈ arm.values, Tracked A e) ∧ Tracked A arm.result
  | [], _ => List.forall_mem_nil _
  | .mk vs result _ :: arms, ht =>
    have ⟨hvs, ht⟩ := A.permits_append.mp ht
    have ⟨hresult, harms⟩ := A.permits_append.mp ht
    List.forall_mem_cons.mpr
      ⟨⟨tracked_all vs hvs, tracked result hresult⟩, tracked_arms arms harms⟩

end

theorem place (e : Expr) (hdest : A.Takes dest) (ht : A.Permits e.targets) :
    Confined A (Lowering.place dest e) (A.Tracks e) := tracked e ht hdest

theorem coerced {element : Ty} (es : List Expr) (ht : A.Permits (Expr.allTargets es)) :
    Confined A (Lowering.coerced element es) fun _ => True := Tracked.coerced (tracked_all es ht)

theorem tests {subject : Slot} {target : Label} (es : List Expr)
    (ht : A.Permits (Expr.allTargets es)) :
    Confined A (Lowering.tests subject target es) fun _ => True := Tracked.tests (tracked_all es ht)

end Confined

end ClassLang
