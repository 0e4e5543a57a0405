import ClassLang.Lowering.Object
import ClassLang.Proofs.Safety.Calls

/-!
# Objects and arrays are safe

Blocks on the heap are reached through pointers, which lie in the frame. The loop that allocates
the inner blocks of a nested array gives its temporaries back at the end of each round; its counter
and its bound were taken before.
-/

namespace ClassLang

open CompileM Lowering

namespace CompileM

variable {r : Registry} {c : Compilation}

/-! ## Objects -/

theorem safe_allocateObject {type : Ty} {id : Nat} (hc : Ready r c) (htype : r.Knows type)
    (htags : r.Tags id) (hoffers : c.scopes.Offers .malloc) :
    Safe Extends (allocateObject type id) c fun s c' => Held r c'.extent s ∧
      s.type = .pointer type := by
  unfold allocateObject
  refine .lengthOf_bind ?_
  refine (safe_internNat hc).bind fun size c₁ h₁ hsize => ?_
  have hc₁ := hc.after h₁
  refine (safe_emitCall hc₁ (Registry.knows_pointer.mpr (Registry.knows_prim .void))
    (.native (h₁.scopes ▸ hoffers)) (fun _ h => by cases h)
    (List.forall_mem_singleton.mpr hsize)).bind
    fun block c₂ h₂ ⟨hblock, hpointer⟩ => ?_
  have hc₂ := hc₁.after h₂
  have hstorage := hblock.storage
  rw [hpointer] at hstorage
  refine (safe_withRegister (P := fun _ x => x.Holds (block.address, r.pointerSize))
    (Nat.lt_of_lt_of_le Nat.zero_lt_two hc₂.registers) fun reg c₃ h₃ hx _ => ?_).bind
    fun _ c₄ _ hstorage₄ => .pure ⟨⟨hstorage₄, htype⟩, rfl⟩
  rw [← hx] at hstorage
  refine safe_emit_bind (List.forall_mem_singleton.mpr ?_) (List.forall_mem_nil _) trivial
    fun c₄ h₄ hx₄ => ?_
  · rw [h₃.registry, hc₂.registry]
    exact hstorage
  · rw [← hx₄] at hstorage
    -- The tag is that of a class, also after the calls in between.
    have htagged : (Instr.setTag reg id).Permitted c₄.registry c₄.scopes := by
      show c₄.registry.Tags id
      rw [h₄.registry, h₃.registry, hc₂.registry]
      exact htags
    exact (safe_emit (List.forall_mem_nil _) (List.forall_mem_nil _) htagged).mono fun _ c₅ h₅ _ =>
      hstorage.mono h₅.extent (Nat.le_refl _)

section Construction

variable {args : CompileM (List Slot)} {argSpans : List Span} {span : Span}

theorem safe_constructObject {type : Ty} {object : Slot} (hc : Ready r c) (htype : r.Knows type)
    (hobject : c.extent.Holds (object.address, r.pointerSize)) (hargs : Supplies r args) :
    Safe Extends (constructObject type object args argSpans span) c fun _ _ => True := by
  unfold constructObject
  refine safe_hasMethod.bind ?_
  rintro found c₁ - rfl
  split
  · refine (hargs c₁ hc).bind fun as c₂ h₂ has => ?_
    have hc₂ := hc.after h₂
    refine (safe_selectMethod hc₂.registry).bind ?_
    rintro fit c₃ - ⟨rfl, k, hk, hkey, hparams⟩
    have hknown : r.KnowsAll fit.params := hparams ▸ (hc.sound.methodsNamed htype hk).1
    refine (safe_coerceArgs hc₂.registry has hknown).bind fun as c₄ h₄ has => ?_
    have hc₄ := hc₂.after h₄
    rw [hkey]
    refine (safe_implementation hc₄ htype hk).bind ?_
    rintro s c₅ - ⟨rfl, hresult⟩
    refine (safe_emitCall hc₄ hresult (.function _ _ _ _ _) ?_ has).bind fun _ _ _ _ =>
      .pure trivial
    intro a ha
    injection ha with ha
    exact ha ▸ .inl (hobject.mono (Steady.trans h₂ h₄).extent (Nat.le_refl _))
  · split
    · exact .typeName_bind .fail
    · exact .pure trivial

theorem safe_newObject {owner : TypeExpr} (hc : Ready r c) (hargs : Supplies r args) :
    Safe Extends (newObject owner args argSpans span) c fun s c' => Held r c'.extent s := by
  unfold newObject
  refine (safe_resolveClass_ready hc owner).bind fun type c₁ h₁ ⟨hknown, hclass⟩ => ?_
  have hc₁ := hc.after h₁
  obtain ⟨hash, hhash⟩ := Option.isSome_iff_exists.mp (isClassLike_of_isClass hclass)
  obtain ⟨d, hd, hfind⟩ := (hknown.has hhash).getClass
  rw [hhash]
  refine .askRegistry_bind (hc₁.registry ▸ hd) ?_
  split
  · exact .fail_bind
  · rename_i hconcrete
    have htags : r.Tags d.id := ⟨hash, d, hfind, rfl, Bool.eq_false_iff.mpr hconcrete⟩
    refine safe_requireNative.bind ?_
    rintro _ c₂ - ⟨rfl, hoffers⟩
    refine (safe_allocateObject hc₁ hknown htags hoffers).bind fun object c₃ h₃ ⟨hobject, htype⟩ => ?_
    have hstorage := hobject.storage
    rw [htype] at hstorage
    refine (safe_constructObject (hc₁.after h₃) hknown hstorage hargs).bind fun _ c₄ h₄ _ => ?_
    exact .pure (hobject.mono h₄.extent)

end Construction

theorem safe_deleteObject {target : Slot} {targetSpan span : Span} (hc : Ready r c)
    (htarget : Held r c.extent target) :
    Safe Extends (deleteObject target targetSpan span) c fun _ _ => True := by
  obtain ⟨hstorage, hknown⟩ := htarget
  -- With or without a destructor the memory is given back in the end.
  have hfree : ∀ c₁, Ready r c₁ → c₁.extent.Holds (target.address, r.pointerSize) →
      c₁.scopes.Offers .free → Safe Extends (do
        let _ ← emitCall (.native .free) .void none [⟨.voidPointer, target.address⟩]) c₁
        fun _ _ => True := by
    intro c₁ hc₁ hpointer hoffers
    have harg : Held r c₁.extent ⟨.voidPointer, target.address⟩ :=
      ⟨hpointer, Registry.knows_pointer.mpr (Registry.knows_prim .void)⟩
    exact (safe_emitCall hc₁ (Registry.knows_prim .void) (.native hoffers) (fun _ h => by cases h)
      (List.forall_mem_singleton.mpr harg)).bind fun _ _ _ _ => .pure trivial
  unfold deleteObject
  by_cases hrefused : (!target.type.isPointerLike || target.type.isCallable) = true
  · simp only [hrefused, if_true]
    exact .typeName_bind .fail_bind
  · simp only [hrefused]
    have hpointer : c.extent.Holds (target.address, r.pointerSize) := by
      cases htype : target.type with
      | pointer _ | array _ | callable _ _ _ =>
        rw [htype] at hstorage
        exact hstorage
      | _ =>
        rw [htype] at hrefused
        exact absurd rfl hrefused
    refine safe_requireNative.bind ?_
    rintro _ c₁ - ⟨rfl, hoffers⟩
    cases howner : target.type.pointeeClass? with
    | none => exact hfree c₁ hc hpointer hoffers
    | some owner =>
      rw [(eq_pointer_of_pointeeClass? howner).1] at hknown
      have hknown : r.Knows owner := hknown
      refine safe_hasMethod.bind ?_
      rintro found c₂ - rfl
      split
      · refine (safe_selectMethod hc.registry).bind ?_
        rintro fit c₃ - ⟨rfl, k, hk, -, -⟩
        refine (safe_methodResult hc hknown).bind ?_
        rintro result c₄ - ⟨rfl, hresult⟩
        refine (safe_emitCall hc hresult (.dispatch _ hpointer) ?_ (List.forall_mem_nil _)).bind
          fun _ c₅ h₅ _ => ?_
        · intro a ha
          injection ha with ha
          exact ha ▸ .inl hpointer
        · exact hfree c₅ (hc.after h₅) (hpointer.mono h₅.extent (Nat.le_refl _))
            (h₅.scopes ▸ hoffers)
      · exact hfree c₂ hc hpointer hoffers

/-! ## Arrays -/

theorem safe_allocateBlock {count : Address} {element : Ty} (hc : Ready r c)
    (hcount : c.extent.Holds (count, Prim.int.size)) (hoffers : c.scopes.Offers .heapArray) :
    Safe Extends (allocateBlock count element) c fun a c' =>
      c'.extent.Holds (a, r.pointerSize) := by
  unfold allocateBlock
  refine .lengthOf_bind ?_
  refine (safe_internNat hc).bind fun length c₁ h₁ hlength => ?_
  have hheld : Held r c₁.extent ⟨.int, count⟩ :=
    ⟨hcount.mono h₁.extent (Nat.le_refl _), Registry.knows_prim .int⟩
  refine (safe_emitCall (hc.after h₁) (Registry.knows_pointer.mpr (Registry.knows_prim .void))
    (.native (h₁.scopes ▸ hoffers)) (fun _ h => by cases h)
    (List.forall_mem_cons.mpr ⟨hheld, List.forall_mem_singleton.mpr hlength⟩)).bind
    fun block c₂ h₂ ⟨hblock, htype⟩ => ?_
  have hstorage := hblock.storage
  rw [htype] at hstorage
  exact .pure hstorage

theorem safe_storeElement {array position value : Address} {n : Nat} (hc : Ready r c)
    (harray : c.extent.Holds (array, r.pointerSize))
    (hposition : c.extent.Holds (position, Prim.int.size)) (hvalue : c.extent.Holds (value, n)) :
    Safe Extends (storeElement array position n value) c fun _ _ => True := by
  unfold storeElement
  refine safe_withRegister (P := fun _ _ => True)
    (Nat.lt_of_lt_of_le Nat.zero_lt_two hc.registers) fun reg c₁ h₁ hx _ => ?_
  rw [← hx] at harray hposition hvalue
  refine (safe_pointToElement (h₁.registry.trans hc.registry) harray hposition).bind
    fun _ c₂ h₂ _ => ?_
  refine (safe_emit ?_ (List.forall_mem_nil _) (by trivial)).weaken
  exact List.forall_mem_singleton.mpr (hvalue.mono h₂.extent (Nat.le_refl _))

/-- The loop that fills an array runs the step that allocates an element inside of the block. -/
theorem safe_fillNested {array count : Address} {inner : CompileM Address} (hc : Ready r c)
    (harray : c.extent.Holds (array, r.pointerSize))
    (hcount : c.extent.Holds (count, Prim.int.size))
    (hinner : ∀ c₁, Within c c₁ → Ready r c₁ →
      Safe Extends inner c₁ fun a c' => c'.extent.Holds (a, r.pointerSize)) :
    Safe Extends (fillNested array count inner) c fun _ _ => True := by
  unfold fillNested
  refine .pointerSize_bind ?_
  rw [hc.registry]
  refine (safe_internNat hc).bind fun one c₂ h₂ hone => ?_
  refine safe_alloc_fresh.bind fun position c₃ h₃ hposition => ?_
  refine safe_alloc_fresh.bind fun inside c₄ h₄ hinside => ?_
  refine safe_freshLabel.bind fun top c₅ h₅ _ => ?_
  refine safe_freshLabel.bind fun done c₆ h₆ _ => ?_
  have hlabels := Steady.trans h₅ h₆
  have hlater := Steady.trans (Steady.trans h₃ h₄) hlabels
  have hbefore := Steady.trans h₂ hlater
  have hc₆ := hc.after hbefore
  -- What the loop uses lies in the storage from here on.
  have hle := Nat.le_refl Prim.int.size
  have hone := hone.storage.mono hlater.extent hle
  have harray := harray.mono hbefore.extent (Nat.le_refl _)
  have hcount := hcount.mono hbefore.extent hle
  have hposition := (hposition.mono h₄.extent hle).mono hlabels.extent hle
  have hinside := hinside.mono hlabels.extent hle
  refine safe_emit_bind (List.forall_mem_nil _) (List.forall_mem_singleton.mpr hposition) trivial
    fun c₇ h₇ hx₇ => ?_
  refine safe_emitLabel.bind fun _ c₈ h₈ hx₈ => ?_
  have hx := hx₈.trans hx₇
  refine safe_emit_bind ?_ ?_ trivial fun c₉ h₉ hx₉ => ?_
  · rw [hx]
    exact List.forall_mem_cons.mpr ⟨hposition, List.forall_mem_singleton.mpr hcount⟩
  · rw [hx]
    exact List.forall_mem_singleton.mpr hinside
  have hx := hx₉.trans hx
  refine safe_emit_bind (List.forall_mem_singleton.mpr ?_) (List.forall_mem_nil _) trivial
    fun c₁₀ h₁₀ hx₁₀ => ?_
  · rw [hx]
    exact hinside
  have hx := hx₁₀.trans hx
  have hloop := Steady.trans (Steady.trans (Steady.trans h₇ h₈) h₉) h₁₀
  have hc₁₀ := hc₆.after hloop
  rw [← hx] at hone harray hposition
  refine (safe_withTemps (P := fun _ => True) fun c₁₁ hw hx₁₁ hregs => ?_).bind
    fun _ c₁₂ h₁₂ _ => ?_
  · have hc₁₁ : Ready r c₁₁ := hc₁₀.within hw (hregs ▸ hc₁₀.registers)
    rw [← hx₁₁] at harray hposition
    refine (hinner c₁₁ ((Steady.trans hbefore hloop).toWithin.trans hw) hc₁₁).bind
      fun element c₁₃ h₁₃ helement => ?_
    exact safe_storeElement (hc₁₁.after h₁₃) (harray.mono h₁₃.extent (Nat.le_refl _))
      (hposition.mono h₁₃.extent hle) helement
  · have hone := hone.mono h₁₂.extent hle
    have hposition := hposition.mono h₁₂.extent hle
    refine safe_emit_bind ?_ (List.forall_mem_singleton.mpr hposition) trivial fun c₁₃ _ _ => ?_
    · exact List.forall_mem_cons.mpr ⟨hposition, List.forall_mem_singleton.mpr hone⟩
    · exact safe_emitGoto.bind fun _ _ _ _ => safe_emitLabel.weaken

theorem element_nestedArray (element : Ty) (n : Nat) :
    (nestedArray element (n + 1)).element? = some (nestedArray element n) := rfl

/-- An array has as many levels as it has dimensions. -/
theorem safe_allocateNested {element : Ty} {counts : List Address} (hsome : counts ≠ []) :
    ∀ {c : Compilation}, Ready r c → (∀ a ∈ counts, c.extent.Holds (a, Prim.int.size)) →
      c.scopes.Offers .heapArray →
      Safe Extends (allocateNested (nestedArray element counts.length) counts) c fun a c' =>
        c'.extent.Holds (a, r.pointerSize) := by
  induction counts with
  | nil => exact absurd rfl hsome
  | cons count rest ih =>
    intro c hc hcounts hoffers
    obtain ⟨hcount, hrest⟩ := List.forall_mem_cons.mp hcounts
    rw [List.length_cons, allocateNested, element_nestedArray]
    refine (safe_allocateBlock hc hcount hoffers).bind fun array c₁ h₁ harray => ?_
    cases rest with
    | nil => exact .pure harray
    | cons next rest =>
      refine (safe_fillNested (hc.after h₁) harray (hcount.mono h₁.extent (Nat.le_refl _))
        fun c₂ h₂ hc₂ => ?_).bind fun _ c₃ h₃ _ => .pure (harray.mono h₃.extent (Nat.le_refl _))
      have hw := h₁.toWithin.trans h₂
      exact ih (List.cons_ne_nil _ _) hc₂ (fun a ha => (hrest a ha).mono hw.extent (Nat.le_refl _))
        (hw.scopes ▸ hoffers)

theorem safe_dimension {value : Slot} {span : Span} (hr : c.registry = r)
    (hvalue : Held r c.extent value) :
    Safe Extends (dimension value span) c fun a c' => c'.extent.Holds (a, Prim.int.size) := by
  unfold dimension
  split
  · exact .typeName_bind .fail_bind
  · refine (safe_coerce hr hvalue (Registry.knows_prim .int)).bind fun s c₁ _ ⟨hs, hint⟩ => ?_
    have hstorage := hs.storage
    rw [hint] at hstorage
    exact .pure hstorage

theorem knows_nestedArray {element : Ty} (h : r.Knows element) (n : Nat) :
    r.Knows (nestedArray element n) := by
  induction n with
  | zero => exact h
  | succ n ih => exact ih

theorem safe_newArray {element : TypeExpr} {dims : List Expr} {values : CompileM (List Address)}
    {span : Span} (hc : Ready r c)
    (hvalues : ∀ c₁, Ready r c₁ → Safe Extends values c₁ fun as c' =>
      as.length = dims.length ∧ ∀ a ∈ as, c'.extent.Holds (a, Prim.int.size)) :
    Safe Extends (newArray element dims values span) c fun s c' => Held r c'.extent s := by
  unfold newArray
  split
  · exact .fail
  · rename_i outer rest
    split
    · exact .fail_bind
    · refine safe_requireNative.bind ?_
      rintro _ c₁ - ⟨rfl, hoffers⟩
      refine (safe_resolveType_ready hc element).bind fun type c₂ h₂ htype => ?_
      split
      · exact .fail_bind
      · have hc₂ := hc.after h₂
        refine (hvalues c₂ hc₂).bind fun counts c₃ h₃ hvalued => ?_
        obtain ⟨hlength, hcounts⟩ := hvalued
        obtain ⟨count, counts, rfl⟩ := List.exists_cons_of_length_eq_add_one hlength
        have hsome := List.cons_ne_nil count counts
        have hoffers := (Steady.trans h₂ h₃).scopes ▸ hoffers
        rw [← hlength]
        refine (safe_allocateNested hsome (hc₂.after h₃) hcounts hoffers).bind
          fun array c₄ _ harray => ?_
        exact .pure ⟨harray, knows_nestedArray htype _⟩

theorem safe_arrayOf {element : Ty} {values : List Slot} (hc : Ready r c)
    (helement : r.Knows element) (hoffers : c.scopes.Offers .heapArray)
    (hvalues : ∀ v ∈ values, Held r c.extent v ∧ v.type = element) :
    Safe Extends (arrayOf element values) c fun s c' => Held r c'.extent s := by
  unfold arrayOf
  refine (safe_internNat hc).bind fun count c₁ h₁ hcount => ?_
  refine (safe_allocateBlock (hc.after h₁) hcount.storage (h₁.scopes ▸ hoffers)).bind
    fun array c₂ h₂ harray => ?_
  have hx₂ := Steady.trans h₁ h₂
  have hc₂ := hc.after hx₂
  refine .lengthOf_bind ?_
  rw [hc₂.registry]
  refine (Safe.forM (I := fun _ => True) (fun x hx c₃ h₃ _ => ?_) trivial).bind
    fun _ c₄ h₄ _ => ?_
  · obtain ⟨value, i⟩ := x
    have hmem := (List.mem_zipIdx hx).2.2
    have hvalue : Held r c.extent value ∧ value.type = element := by
      refine hvalues value ?_
      rw [hmem]
      exact List.getElem_mem _
    have hc₃ := hc₂.after h₃
    refine (safe_internNat hc₃).bind fun position c₅ h₅ hposition => ?_
    have hstorage := (hvalue.1.mono (Steady.trans (Steady.trans hx₂ h₃) h₅).extent).storage
    rw [hvalue.2] at hstorage
    exact safe_storeElement (hc₃.after h₅)
      (harray.mono (Steady.trans h₃ h₅).extent (Nat.le_refl _)) hposition.storage hstorage
  · exact .pure ⟨harray.mono h₄.extent (Nat.le_refl _), helement⟩

end CompileM

end ClassLang
