import ClassLang.Lowering.Convert
import ClassLang.Proofs.Safety.Ready
import ClassLang.Proofs.Ty.Lengths

/-!
# Conversions are safe

A conversion reads as many bytes as the type of its operand has, and writes as many as the target
has; its kind tells both. Where a value is copied into a place of another width, the wider place is
cleared first and only the common part is copied.
-/

namespace ClassLang

open CompileM Lowering

namespace CompileM

variable {r : Registry} {c : Compilation} {dest : Option Slot}

theorem safe_move {dst src : Address} {n : Nat} (hsrc : c.extent.Holds (src, n))
    (hdst : c.extent.Holds (dst, n)) :
    Safe Extends (move dst src n) c fun _ c' => c'.extent = c.extent := by
  unfold move
  split
  · exact safe_emit (List.forall_mem_singleton.mpr hsrc) (List.forall_mem_singleton.mpr hdst) trivial
  · exact .pure rfl

theorem safe_copyBits {dst src : Address} {n m : Nat} (hsrc : c.extent.Holds (src, n))
    (hdst : c.extent.Holds (dst, m)) :
    Safe Extends (copyBits dst src n m) c fun _ c' => c'.extent = c.extent := by
  have hmove : ∀ c₁ : Compilation, c₁.extent = c.extent →
      Safe Extends (move dst src (min n m)) c₁ fun _ c' => c'.extent = c.extent := by
    intro c₁ heq
    rw [← heq] at hsrc hdst ⊢
    exact safe_move (hsrc.mono (.refl _) (Nat.min_le_left ..))
      (hdst.mono (.refl _) (Nat.min_le_right ..))
  unfold copyBits
  split
  · refine safe_emit_bind (List.forall_mem_nil _) (List.forall_mem_singleton.mpr hdst) trivial ?_
    intro c₁ _ heq
    exact hmove c₁ heq
  · exact hmove c rfl

theorem safe_checkConversion {source target : Ty} {span : Span} (hr : c.registry = r) :
    Safe Extends (checkConversion source target span) c fun k c' =>
      c'.extent = c.extent ∧ r.conversion? source target = some k := by
  unfold checkConversion
  refine .get_bind ?_
  dsimp only
  rw [hr]
  split
  · exact .fail
  · rename_i k hk
    split
    · refine safe_warn.bind fun _ c₁ _ heq => ?_
      exact .pure ⟨heq, hk⟩
    · exact .pure ⟨rfl, hk⟩

/-- A conversion uses no more bytes than the two types have. -/
theorem safe_convertInto {value slot : Slot} {k : Conversion} (hr : c.registry = r)
    (hk : r.conversion? value.type slot.type = some k)
    (hvalue : c.extent.Holds (value.address, r.length value.type))
    (hslot : c.extent.Holds (slot.address, r.length slot.type)) :
    Safe Extends (convertInto value slot k) c fun _ _ => True := by
  have hlengths := Registry.conversion?_lengths hk
  unfold convertInto
  refine .lengthOf_bind (.lengthOf_bind ?_)
  rw [hr]
  have hone : ∀ {n} (op : ConvertOp), r.length value.type = n → op.sizes.1 = n →
      op.sizes.2 ≤ r.length slot.type →
      Safe Extends (emit (.convert op slot.address value.address)) c
        fun _ c' => c'.extent = c.extent := by
    intro n op hn hread hwrite
    refine safe_emit (List.forall_mem_singleton.mpr ?_) (List.forall_mem_singleton.mpr ?_) trivial
    · rw [hread, ← hn]
      exact hvalue
    · exact hslot.mono (.refl _) hwrite
  have hcopy : Safe Extends (copyBits slot.address value.address (r.length value.type)
      (r.length slot.type)) c fun _ _ => True :=
    (safe_copyBits hvalue hslot).weaken
  dsimp only
  cases hkind : k.kind
  all_goals simp only [hkind] at hlengths ⊢
  case identity =>
    rw [hlengths] at hvalue
    exact (safe_move hvalue hslot).weaken
  case charByte =>
    rw [hlengths.1] at hvalue
    rw [hlengths.2] at hslot ⊢
    exact (safe_move hvalue hslot).weaken
  case intWiden =>
    exact (hone .charToInt hlengths.1 rfl (Nat.le_of_eq hlengths.2.symm)).weaken
  case intNarrow =>
    exact (hone .intToChar hlengths.1 rfl (Nat.le_of_eq hlengths.2.symm)).weaken
  case intToFloat =>
    obtain ⟨hsource, htarget⟩ := hlengths
    split
    · rename_i hint
      rw [if_pos hint] at hsource
      exact (hone .intToFloat hsource rfl (Nat.le_of_eq htarget.symm)).weaken
    · -- A narrow integer is widened in place first.
      rename_i hint
      rw [if_neg hint] at hsource
      refine (hone .charToInt hsource rfl (Nat.le_of_eq htarget.symm)).bind fun _ c₁ _ heq => ?_
      rw [htarget, ← heq] at hslot
      exact .weaken (safe_emit (List.forall_mem_singleton.mpr hslot)
        (List.forall_mem_singleton.mpr hslot) trivial)
  case floatToInt =>
    obtain ⟨hsource, htarget⟩ := hlengths
    split
    · rename_i hwide
      exact (hone .floatToInt hsource rfl (Nat.le_of_eq hwide.symm)).weaken
    · -- A narrow integer is cut out of a wide one that is put into fresh storage.
      rename_i hnarrow
      refine safe_alloc_fresh.bind fun wide c₁ h₁ hfresh => ?_
      have hvalue₁ := hvalue.mono h₁.extent (Nat.le_refl _)
      have hslot₁ := hslot.mono h₁.extent (Nat.le_refl _)
      rw [hsource] at hvalue₁
      refine safe_emit_bind (List.forall_mem_singleton.mpr hvalue₁)
        (List.forall_mem_singleton.mpr hfresh) trivial fun c₂ _ heq => ?_
      rw [htarget.resolve_left hnarrow] at hslot₁
      rw [← heq] at hfresh hslot₁
      exact .weaken (safe_emit (List.forall_mem_singleton.mpr hfresh)
        (List.forall_mem_singleton.mpr hslot₁) trivial)
  all_goals exact hcopy

/-- Fresh storage for a value of a known type. -/
theorem safe_allocFor_held {t : Ty} (hr : c.registry = r) (ht : r.Knows t) :
    Safe Extends (allocFor t) c fun a c' => Held r c'.extent ⟨t, a⟩ := by
  refine safe_allocFor.mono fun a c' _ ⟨ha, htop⟩ => ?_
  subst hr
  refine ⟨?_, ht⟩
  rw [ha]
  show c.frame.top + c.registry.length t ≤ c'.frame.top
  omega

theorem safe_coerce {value : Slot} {target : Ty} {span : Span} (hr : c.registry = r)
    (hvalue : Held r c.extent value) (htarget : r.Knows target) :
    Safe Extends (coerce value target span) c fun s c' =>
      Held r c'.extent s ∧ s.type = target := by
  unfold coerce
  refine (safe_checkConversion hr).bind fun k c₁ h₁ ⟨heq, hk⟩ => ?_
  have hr₁ := h₁.registry.trans hr
  have hvalue₁ := hvalue.mono h₁.extent
  split
  · rename_i hexact
    have hlengths := Registry.conversion?_lengths hk
    rw [show k.kind = .identity from of_decide_eq_true hexact] at hlengths
    exact .pure ⟨hvalue₁, hlengths⟩
  · refine (safe_allocFor_held hr₁ htarget).bind fun a c₂ h₂ hfresh => ?_
    refine (safe_convertInto (h₂.registry.trans hr₁) hk (hvalue₁.mono h₂.extent).storage
      hfresh.storage).bind fun _ c₃ h₃ _ => ?_
    exact .pure ⟨hfresh.mono h₃.extent, rfl⟩

theorem safe_settle {value slot : Slot} {span : Span} (hr : c.registry = r)
    (hvalue : Held r c.extent value) (hslot : Held r c.extent slot) :
    Safe Extends (settle value slot span) c fun _ _ => True := by
  unfold settle
  split
  · exact .pure trivial
  · refine (safe_checkConversion hr).bind fun k c₁ h₁ ⟨heq, hk⟩ => ?_
    exact safe_convertInto (h₁.registry.trans hr) hk (hvalue.mono h₁.extent).storage
      (hslot.mono h₁.extent).storage

theorem safe_asWord {value : Slot} (hr : c.registry = r) (hvalue : Held r c.extent value)
    (hword : value.type.isPointerLike = true) (hsize : r.pointerSize ≤ Prim.int.size) :
    Safe Extends (asWord value) c fun s c' => Held r c'.extent s ∧ s.type = .int := by
  unfold asWord
  refine .lengthOf_bind ?_
  rw [hr]
  split
  · rename_i hlength
    refine .pure ⟨⟨?_, Registry.knows_prim _⟩, rfl⟩
    have hstorage := hvalue.storage
    rw [hlength] at hstorage
    exact hstorage
  · refine safe_alloc_fresh.bind fun a c₁ h₁ hfresh => ?_
    refine safe_emit_bind (List.forall_mem_nil _) (List.forall_mem_singleton.mpr hfresh) trivial
      fun c₂ h₂ heq => ?_
    rw [← heq] at hfresh
    have hlength : r.length value.type ≤ Prim.int.size := by
      cases hv : value.type with
      | pointer _ | array _ | callable _ _ _ => exact hsize
      | _ =>
        rw [hv] at hword
        cases hword
    have hvalue₂ := (hvalue.mono h₁.extent).mono h₂.extent
    refine (safe_move hvalue₂.storage (hfresh.mono (.refl _) hlength)).bind
      fun _ c₃ _ heq => ?_
    rw [← heq] at hfresh
    exact .pure ⟨⟨hfresh, Registry.knows_prim _⟩, rfl⟩

theorem safe_condition {value : Slot} {span : Span} (hr : c.registry = r)
    (hvalue : Held r c.extent value) :
    Safe Extends (condition value span) c fun a c' => c'.extent.Holds (a, Prim.int.size) := by
  unfold condition
  split
  · exact .fail_bind
  · refine (safe_coerce hr hvalue (Registry.knows_prim .int)).bind fun s c₁ _ ⟨hs, hint⟩ => ?_
    have hstorage := hs.storage
    rw [hint] at hstorage
    exact .pure hstorage

theorem safe_requireValue {e : Expr} {value : Slot} (hvalue : Held r c.extent value) :
    Safe Extends (requireValue e value) c fun s c' => Held r c'.extent s := by
  unfold requireValue
  split
  · exact .fail_bind
  · exact .pure hvalue

/-- A result is written where the destination is, or into fresh storage. -/
theorem safe_resultAddress {t : Ty} (hr : c.registry = r) (ht : r.Knows t)
    (hdest : ∀ d ∈ dest, Held r c.extent d) :
    Safe Extends (resultAddress t dest) c fun a c' => Held r c'.extent ⟨t, a⟩ := by
  unfold resultAddress
  split
  · rename_i d
    refine .get_bind ?_
    split
    · rename_i hd
      have hheld := hdest d rfl
      simp only [Bool.and_eq_true, decide_eq_true_eq] at hd
      rw [← hd.2]
      exact .pure hheld
    · exact safe_allocFor_held hr ht
  · exact safe_allocFor_held hr ht

theorem safe_spill {reg : Register} (hr : c.registry = r) :
    Safe Extends (spill reg) c fun a c' => c'.extent.Holds (a, r.pointerSize) := by
  unfold spill
  refine .pointerSize_bind ?_
  rw [hr]
  refine safe_alloc_fresh.bind fun a c₁ h₁ hfresh => ?_
  refine safe_emit_bind (List.forall_mem_nil _) (List.forall_mem_singleton.mpr ?_) trivial
    fun c₂ _ heq => ?_
  · rw [h₁.registry, hr]
    exact hfresh
  · rw [← heq] at hfresh
    exact .pure hfresh

end CompileM

end ClassLang
