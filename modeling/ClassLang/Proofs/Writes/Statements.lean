import ClassLang.Proofs.Lowering.Statements
import ClassLang.Proofs.Writes.Variables

/-!
# Statements are guarded

A statement writes what its expressions write, a declaration writes the storage of its variable
before that has a name, and `return` writes the result. So constants are spared, whatever statements
do, if no assignment in them loses track.
-/

-- The instances of long steps are large terms.
set_option synthInstance.maxSize 1000

namespace ClassLang

open CompileM Lowering

/-! ## Targets of assignments -/

/-- The targets of the assignments in an expression that may be missing. -/
def Expr.optionTargets : Option Expr → List Expr
  | some e => e.targets
  | none => []

namespace Stmt

mutual

/-- The targets of the assignments in a statement. -/
def targets : Stmt → List Expr
  | expr e _ | delete e _ => e.targets
  | declare d => Expr.optionTargets d.init
  | block body _ => allTargets body
  | branch c yes no _ => c.targets ++ (allTargets yes ++ optionTargets no)
  | whileLoop c body _ => c.targets ++ allTargets body
  | forLoop init c step body _ => optionTargets init ++
    (Expr.optionTargets c ++ (Expr.optionTargets step ++ allTargets body))
  | switch subject cs default _ => subject.targets ++ (caseTargets cs ++ defaultTargets default)
  | ret e _ => Expr.optionTargets e
  | leave _ | again _ | fallthrough _ => []

def optionTargets : Option Stmt → List Expr
  | some s => s.targets
  | none => []

def allTargets : List Stmt → List Expr
  | [] => []
  | s :: ss => s.targets ++ allTargets ss

def defaultTargets : Option (List Stmt) → List Expr
  | some body => allTargets body
  | none => []

def caseTargets : List Case → List Expr
  | [] => []
  | .mk vs body _ :: cs => Expr.allTargets vs ++ (allTargets body ++ caseTargets cs)

end

end Stmt

/-! ## Steps of statements -/

namespace Confined

variable {A : Area} {dest : Slot}

theorem expr {e : Expr} {dest : Option Slot} (hdest : A.Takes dest) (he : A.Permits e.targets) :
    Confined A (expr e dest) fun _ => True := asSlot hdest (place e hdest he)

theorem value {e : Expr} (he : A.Permits e.targets) : Confined A (value e) fun _ => True :=
  asValue A.takes_none (place e A.takes_none he)

theorem into {e : Expr} (hdest : A.Offers dest) (he : A.Permits e.targets) :
    Confined A (into e dest) fun _ => True :=
  (expr (A.takes_some hdest) he).bind fun _ _ => settle hdest

theorem effect {e : Expr} (he : A.Permits e.targets) : Confined A (effect e) fun _ => True :=
  withTemps ((expr A.takes_none he).bind fun _ _ => pure trivial)

theorem jumpUnless {e : Expr} {target : Label} (he : A.Permits e.targets) :
    Confined A (jumpUnless e target) fun _ => True :=
  withTemps ((asCondition (place e A.takes_none he)).bind fun _ _ => silent fun _ => rfl)

theorem deleteObject {target : Slot} {targetSpan span : Span} :
    Confined A (deleteObject target targetSpan span) fun _ => True := by
  have hfree : Confined A (do
      let _ ← Lowering.emitCall (.native .free) .void none [⟨.voidPointer, target.address⟩])
      fun _ => True := emitCall.bind fun _ _ => pure trivial
  unfold Lowering.deleteObject
  dsimp only
  split
  · exact reads_bind fun _ => fail_bind
  · refine reads_bind fun _ => ?_
    split
    · refine reads_bind fun found => ?_
      split
      · refine reads_bind fun fit => reads_bind fun result => ?_
        exact emitCall.bind fun _ _ => hfree
      · exact hfree
    · exact hfree

theorem delete {e : Expr} {span : Span} (he : A.Permits e.targets) :
    Confined A (delete e span) fun _ => True :=
  withTemps ((value he).bind fun _ _ => deleteObject)

theorem clear (hdest : A.Offers dest) : Confined A (clear dest) fun _ => True := by
  unfold Lowering.clear
  refine lengthOf_bind (writes_bind hdest rfl rfl ?_)
  split
  · exact tagObject
  · exact pure trivial

theorem storeInitial {d : VarDecl} (hdest : A.Offers dest)
    (hd : A.Permits (Expr.optionTargets d.init)) :
    Confined A (storeInitial d dest) fun _ => True := by
  unfold Lowering.storeInitial
  cases hinit : d.init with
  | some e =>
    rw [hinit] at hd
    exact withTemps (into hdest hd)
  | none =>
    dsimp only
    split
    · exact fail
    · exact clear hdest

theorem declaredType {d : VarDecl} (hd : A.Permits (Expr.optionTargets d.init)) :
    Confined A (declaredType d) fun _ => True := by
  refine (has_declaredType (P := Writes A) d fun e he => ⟨?_⟩).out
  rw [he] at hd
  exact (probe (expr A.takes_none hd)).bind fun _ _ => pure trivial

theorem returnValue {e : Expr} {result : Ty} (hresult : A.Offers ⟨result, returnAddress⟩)
    (he : A.Permits e.targets) : Confined A (returnValue e result) fun _ => True := by
  unfold Lowering.returnValue
  refine (value he).bind fun v _ => get_bind fun c hc => ?_
  dsimp only
  rw [hc.registry]
  split
  · exact fail
  · rename_i k hk
    have hconvert : Confined A (Lowering.convertInto v ⟨result, returnAddress⟩ k) fun _ => True :=
      convertInto hk hresult
    split
    · exact warn.bind fun _ _ => hconvert
    · split
      · exact warn.bind fun _ _ => hconvert
      · exact hconvert

theorem ret {e : Option Expr} {span : Span} (he : A.Permits (Expr.optionTargets e))
    (hresult : ∀ f, A.scopes.function? = some f → A.Offers ⟨f.result, returnAddress⟩) :
    Confined A (ret e span) fun _ => True := by
  have hlast : Confined A (CompileM.emit .ret) fun _ => True := silent fun _ => rfl
  unfold Lowering.ret
  refine get_bind fun c hc => ?_
  rw [hc.scopes]
  split
  · exact fail
  · rename_i f hf
    cases e with
    | some e =>
      dsimp only
      split
      · exact fail_bind
      · exact (withTemps (returnValue (hresult f hf) he)).bind fun _ _ => hlast
    | none =>
      dsimp only
      split
      · exact reads_bind fun _ => fail_bind
      · exact hlast

theorem caseTests {subject : Slot} : ∀ {cs : List Case} {ls : List Label},
    A.Permits (Stmt.caseTargets cs) → Confined A (caseTests subject cs ls) fun _ => True
  | .mk vs body span :: cs, l :: ls, ht => by
    obtain ⟨hvs, ht⟩ := A.permits_append.mp ht
    obtain ⟨-, hcs⟩ := A.permits_append.mp ht
    unfold Lowering.caseTests
    exact (tests vs hvs).bind fun _ _ => caseTests hcs
  | [], _, _ | _ :: _, [], _ => by
    unfold Lowering.caseTests
    exact pure trivial

theorem caseLabels {cs : List Case} : Confined A (caseLabels cs) fun _ => True := by
  induction cs with
  | nil =>
    unfold Lowering.caseLabels
    exact pure trivial
  | cons _ _ ih =>
    unfold Lowering.caseLabels
    exact freshLabel.bind fun _ _ => ih.bind fun _ _ => pure trivial

/-- `break`, `continue` and `fallthrough` are jumps. -/
theorem leave {span : Span} : Confined A (leave span) fun _ => True := by
  unfold Lowering.leave
  refine get_bind fun c _ => ?_
  split
  · exact silent fun _ => rfl
  · exact fail

theorem again {span : Span} : Confined A (again span) fun _ => True := by
  unfold Lowering.again
  refine get_bind fun c _ => ?_
  split
  · exact silent fun _ => rfl
  · exact fail

theorem fallInto {span : Span} : Confined A (fallInto span) fun _ => True := by
  unfold Lowering.fallInto
  refine get_bind fun c _ => ?_
  split
  · exact silent fun _ => rfl
  · exact fail
  · exact fail

end Confined

/-! ## Statements -/

section Guards

variable {G : Guard}

/-- A variable that gets the storage at the top of the frame is apart from all others. -/
theorem Guarded.define_variable {c : Compilation} {n : Nat} {name : String} {b : Binding}
    {span : Span} (hregistry : c.registry = G.registry) (hfree : c.scopes.Free G.registry)
    (hspaced : Spaced G.registry c.scopes n)
    (hb : b.address = .frame n) (htop : n + G.registry.length b.type ≤ c.frame.top) :
    Guarded G (define name (.variable b) span) c := by
  refine .of_mute (fun c => ?_) fun hy => ?_
  · exact Mute.bind (fun _ => rfl) (fun _ => .bind (mute_conclude _) fun _ => mute_modify _) c
  · rw [yields_define] at hy
    obtain ⟨scopes, hdefine, rfl⟩ := hy
    exact ⟨⟨hregistry, hfree.define (d := .variable b) trivial hdefine,
      hspaced.bind hb htop hdefine⟩, .define hdefine⟩

/-- Taking storage. -/
theorem guards_allocFor (t : Ty) : Guards G Address (allocFor t) :=
  guards_of_confined fun _ _ => Confined.allocFor.weaken

theorem guards_declare {d : VarDecl} (hd : G.Admits (Expr.optionTargets d.init)) :
    Guards G Unit (declare d) := by
  intro c hc
  unfold declare
  refine (Guarded.of_confined hc (.declaredType (hd.permits hc))).bind fun t c₁ _ h₁ => ?_
  refine (guards_allocFor t c₁ h₁).bind fun a c₂ halloc h₂ => ?_
  obtain ⟨rfl, rfl⟩ := yields_allocFor.mp halloc
  have hoffers : (G.area _ h₂).Offers ⟨t, .frame c₁.frame.top⟩ := fun _ b hb _ _ =>
    (h₁.spaced.below b hb).apart (Nat.le_refl _)
  have hstore : Confined (G.area _ h₂) (storeInitial d ⟨t, .frame c₁.frame.top⟩) fun _ => True :=
    .storeInitial hoffers (hd.permits h₂)
  refine (Guarded.of_confined h₂ hstore).bind fun _ c₃ hinit h₃ => ?_
  obtain ⟨hcovers, -⟩ := hstore.yields (Guard.covers_area h₂) hinit
  refine .define_variable (n := c₁.frame.top) h₃.registry h₃.free ?_ rfl ?_
  · rw [show c₃.scopes = c₁.scopes from hcovers.scopes]
    exact h₁.spaced
  · rw [← h₁.registry]
    exact hcovers.top

theorem guards_ret {e : Option Expr} {span : Span} (he : G.Admits (Expr.optionTargets e)) :
    Guards G Unit (ret e span) := guards_of_confined fun _ hc =>
  .ret (he.permits hc) fun f hf _ b hb _ _ => (hc.spaced.result f hf).2 b hb

theorem has_optionally {α : Type} {step : α → CompileM Unit} {x : Option α}
    (h : ∀ a, x = some a → Guards G Unit (step a)) : Has (Guards G) (optionally step x) := by
  cases x with
  | none =>
    unfold optionally
    infer_instance
  | some a => exact ⟨h a rfl⟩

theorem has_jumpUnless {e : Expr} {l : Label} (he : G.Admits e.targets) :
    Has (Guards G) (jumpUnless e l) := ⟨guards_of_confined fun _ hc => .jumpUnless (he.permits hc)⟩

theorem has_effect {e : Expr} (he : G.Admits e.targets) : Has (Guards G) (effect e) :=
  ⟨guards_of_confined fun _ hc => .effect (he.permits hc)⟩

mutual

theorem guards_stmt : ∀ s : Stmt, G.Admits s.targets → Guards G Unit (stmt s)
  | .expr e _, ht => by
    unfold stmt
    exact (has_effect ht).out
  | .declare d, ht => by
    unfold stmt
    exact guards_declare ht
  | .block body _, ht => by
    unfold stmt
    exact guards_inScope (fun _ => rfl) (guards_stmts body ht)
  | .branch c yes no _, ht => by
    obtain ⟨hc, ht⟩ := Guard.admits_append.mp ht
    obtain ⟨hyes, hno⟩ := Guard.admits_append.mp ht
    have htest := fun l => has_jumpUnless (l := l) hc
    have hbody : Has (Guards G) (inScope .block (stmts yes)) :=
      ⟨guards_inScope (fun _ => rfl) (guards_stmts yes hyes)⟩
    unfold stmt
    match no, hno with
    | none, _ => exact (inferInstance : Has (Guards G) _).out
    | some s, hno =>
      have helse : Has (Guards G) (stmt s) := ⟨guards_stmt s hno⟩
      exact (inferInstance : Has (Guards G) _).out
  | .whileLoop c body _, ht => by
    obtain ⟨hc, hbody⟩ := Guard.admits_append.mp ht
    have htest := fun l => has_jumpUnless (l := l) hc
    have hbody : ∀ done top, Has (Guards G) (inScope (.loop done top) (stmts body)) :=
      fun _ _ => ⟨guards_inScope (fun _ => rfl) (guards_stmts body hbody)⟩
    unfold stmt
    exact (inferInstance : Has (Guards G) _).out
  | .forLoop init c step body span, ht => by
    obtain ⟨hinit, ht⟩ := Guard.admits_append.mp ht
    obtain ⟨hc, ht⟩ := Guard.admits_append.mp ht
    obtain ⟨hstep, hbody⟩ := Guard.admits_append.mp ht
    have hfirst : Has (Guards G) (optionally stmt init) := by
      match init, hinit with
      | none, _ => exact has_optionally fun _ h => by cases h
      | some s, hinit => exact ⟨guards_stmt s hinit⟩
    have htest : ∀ l, Has (Guards G) (optionally (jumpUnless · l) c) := fun l =>
      has_optionally fun e he => by
        subst he
        exact (has_jumpUnless hc).out
    have hnext : Has (Guards G) (optionally effect step) :=
      has_optionally fun e he => by
        subst he
        exact (has_effect hstep).out
    have hbody : ∀ done next, Has (Guards G) (inScope (.loop done next) (stmts body)) :=
      fun _ _ => ⟨guards_inScope (fun _ => rfl) (guards_stmts body hbody)⟩
    rw [stmt_forLoop]
    refine guards_inScope (fun _ => rfl) ?_
    -- The instances are looked for once the labels are there.
    refine (Has.bind fun _ => .bind fun _ => .bind fun _ => .bind fun _ => .bind fun _ => ?_ :
      Has (Guards G) _).out
    infer_instance
  | .switch subject cs default _, ht => by
    obtain ⟨hsubject, ht⟩ := Guard.admits_append.mp ht
    obtain ⟨hcs, hdefault⟩ := Guard.admits_append.mp ht
    have hvalue : Has (Guards G) (value subject) :=
      ⟨guards_of_confined fun _ hc => .value (hsubject.permits hc)⟩
    have hlabels : Has (Guards G) (caseLabels cs) := ⟨guards_of_confined fun _ _ => .caseLabels⟩
    have htests : ∀ s ls, Has (Guards G) (caseTests s cs ls) := fun _ _ =>
      ⟨guards_of_confined fun _ hc => .caseTests (hcs.permits hc)⟩
    have hbodies : ∀ done ls, Has (Guards G) (caseBodies done cs ls) := fun done _ =>
      ⟨guards_caseBodies done cs hcs⟩
    unfold stmt
    refine guards_inScope (fun _ => rfl) ?_
    match default, hdefault with
    | none, _ => exact (inferInstance : Has (Guards G) _).out
    | some body, hdefault =>
      have hlast : Has (Guards G) (inScope (.caseBody none) (stmts body)) :=
        ⟨guards_inScope (fun _ => rfl) (guards_stmts body hdefault)⟩
      exact (inferInstance : Has (Guards G) _).out
  | .ret e span, ht => by
    unfold stmt
    exact guards_ret ht
  | .leave span, _ => by
    unfold stmt
    exact guards_of_confined fun _ _ => .leave
  | .again span, _ => by
    unfold stmt
    exact guards_of_confined fun _ _ => .again
  | .fallthrough span, _ => by
    unfold stmt
    exact guards_of_confined fun _ _ => .fallInto
  | .delete target span, ht => by
    unfold stmt
    exact guards_of_confined fun _ hc => .delete (ht.permits hc)

theorem guards_stmts : ∀ ss : List Stmt, G.Admits (Stmt.allTargets ss) → Guards G Unit (stmts ss)
  | [], _ => by
    unfold stmts
    exact has_pure () |>.out
  | s :: ss, ht => by
    obtain ⟨hs, hss⟩ := Guard.admits_append.mp ht
    unfold stmts
    exact Reading.bind (guards_stmt s hs) fun _ => guards_stmts ss hss

theorem guards_caseBodies (done : Label) : ∀ (cs : List Case) {ls : List Label},
    G.Admits (Stmt.caseTargets cs) → Guards G Unit (caseBodies done cs ls)
  | .mk vs body span :: cs, l :: ls, ht => by
    obtain ⟨-, ht⟩ := Guard.admits_append.mp ht
    obtain ⟨hbody, hcs⟩ := Guard.admits_append.mp ht
    have hfirst : Has (Guards G) (inScope (.caseBody ls.head?) (stmts body)) :=
      ⟨guards_inScope (fun _ => rfl) (guards_stmts body hbody)⟩
    have hrest : Has (Guards G) (caseBodies done cs ls) := ⟨guards_caseBodies done cs hcs⟩
    unfold caseBodies
    exact (inferInstance : Has (Guards G) _).out
  | [], _, _ | .mk _ _ _ :: _, [], _ => by
    unfold caseBodies
    exact has_pure () |>.out

end

end Guards

end ClassLang
