import ClassLang.Proofs.Lowering.Reports
import ClassLang.Registration.Members

/-!
# What registration reports

Inherited arguments, layouts, method tables and linkable names are found by functions of the
registry. None of them follows the hierarchy further than a linearization goes, and what they report
is about one class and what it declares or inherits.
-/

namespace ClassLang

instance harmless_inheritedArgs (r : Registry) : ∀ (ts : List Ty) (known : Table TypeHash (List Ty)),
    Harmless (Registration.inheritedArgs r ts known)
  | [], known => by
    unfold Registration.inheritedArgs
    infer_instance
  | t :: ts, known => by
    have := harmless_inheritedArgs r ts
    unfold Registration.inheritedArgs
    split <;> infer_instance

/-! ## Layouts -/

namespace Layout

variable (r : Registry) (c : Class)

instance : Harmless (inheritedFields r c) := by
  unfold inheritedFields
  split <;> infer_instance

instance harmless_placeFields : ∀ (own earlier : List OwnField) (placed : List Field) (start : Nat),
    Harmless (placeFields r c earlier placed start own)
  | [], earlier, placed, start => by
    unfold placeFields
    infer_instance
  | d :: own, earlier, placed, start => by
    have := harmless_placeFields own
    unfold placeFields
    infer_instance

instance harmless_checkBases (fields : List Field) : ∀ ts : List Ty, Harmless (checkBases r c fields ts)
  | [] => by
    unfold checkBases
    infer_instance
  | t :: ts => by
    have := harmless_checkBases fields ts
    unfold checkBases
    split
    · infer_instance
    · refine .bind fun base => ?_
      split <;> infer_instance

instance (own : List OwnField) : Harmless (layOut r c own) := by
  unfold layOut
  infer_instance

end Layout

/-! ## Method tables -/

namespace Dispatch

variable (r : Registry) (c : Class)

instance harmless_inheritedRanks : ∀ (ts : List Ty) (ranks : List Rank),
    Harmless (inheritedRanks r c ts ranks)
  | [], ranks => by
    unfold inheritedRanks
    infer_instance
  | t :: ts, ranks => by
    have := harmless_inheritedRanks ts
    unfold inheritedRanks
    split <;> infer_instance

instance harmless_declarer? (slot : Nat) : ∀ hs : List TypeHash, Harmless (declarer? r slot hs)
  | [] => by
    unfold declarer?
    infer_instance
  | h :: hs => by
    have := harmless_declarer? slot hs
    unfold declarer?
    refine .bind fun ancestor => ?_
    split <;> infer_instance

instance (m : OwnMethod) (k : Rank) : Harmless (checkOverride r c m k) := by
  unfold checkOverride
  refine .bind fun found => ?_
  dsimp only
  split <;> infer_instance

instance harmless_overrideRanks (m : OwnMethod) : ∀ ranks : List Rank,
    Harmless (overrideRanks r c m ranks)
  | [] => by
    unfold overrideRanks
    infer_instance
  | k :: ranks => by
    have := harmless_overrideRanks m ranks
    unfold overrideRanks
    infer_instance

instance (m : OwnMethod) (ranks : List Rank) : Harmless (assignSlots r c m ranks).1 := by
  unfold assignSlots
  split <;> infer_instance

instance (earlier : List OwnMethod) (m : OwnMethod) : Harmless (checkDeclared c earlier m) := by
  unfold checkDeclared
  dsimp only
  split
  · refine .bind fun _ => ?_
    split <;> infer_instance
  · split <;> infer_instance

theorem harmless_readMethods : ∀ (own : List OwnMethod) (r : Registry) (earlier : List OwnMethod)
    (methods : List Method) (ranks : List Rank), Harmless (readMethods c own r earlier methods ranks).1
  | [], r, earlier, methods, ranks => by
    unfold readMethods
    infer_instance
  | m :: own, r, earlier, methods, ranks => by
    have hdeclared : Harmless (checkDeclared c earlier m) := inferInstance
    have hassign : Harmless (assignSlots r c m ranks).1 := inferInstance
    unfold readMethods
    split
    · rename_i e he
      exact ⟨fun h => Except.error.inj h ▸ hdeclared.error he⟩
    · split
      · rename_i e r' he
        exact ⟨fun h => Except.error.inj h ▸ hassign.error (congrArg Prod.fst he)⟩
      · exact harmless_readMethods own ..

instance harmless_bindSlots (methods : List Method) : ∀ ranks : List Rank,
    Harmless (bindSlots r c methods ranks)
  | [] => by
    unfold bindSlots
    infer_instance
  | k :: ranks => by
    have := harmless_bindSlots methods ranks
    unfold bindSlots
    split <;> infer_instance

instance (methods : List Method) (ranks : List Rank) : Harmless (finish r c methods ranks) := by
  unfold finish
  refine .bind fun vtable => ?_
  dsimp only
  split
  · split <;> infer_instance
  · infer_instance

theorem harmless_methodTable (own : List OwnMethod) : Harmless (methodTable r c own).1 := by
  have hranks : Harmless (inheritedRanks r c c.bases []) := inferInstance
  unfold methodTable
  split
  · rename_i e he
    exact ⟨fun h => Except.error.inj h ▸ hranks.error he⟩
  · split
    · rename_i e r' he
      exact ⟨fun h =>
        Except.error.inj h ▸ (harmless_readMethods c own r [] [] _).error (congrArg Prod.fst he)⟩
    · infer_instance

end Dispatch

/-! ## Linkable names -/

instance (r : Registry) (s : Signature) : Harmless (LinkName.base r s) := by
  unfold LinkName.base
  split <;> infer_instance

instance (r : Registry) : Harmless (LinkName.assignAll r) := by
  unfold LinkName.assignAll
  infer_instance

end ClassLang
