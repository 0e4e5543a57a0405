import ClassLang.Lowering.Place
import ClassLang.Proofs.Safety.Names
import ClassLang.Proofs.Safety.Values

/-!
# Places are safe

A place in a slot lies in the storage with all its bytes; of a place behind a pointer it is the
pointer that lies there. Fields lie inside of their objects, so the place of a field is as good as
that of the object.
-/

namespace ClassLang

open CompileM Lowering

/-- The place can be read: its slot, or the pointer to it, lies in the storage. -/
structure Place.Held (r : Registry) (x : Extent) (p : Place) : Prop where
  known : r.Knows p.type
  fixed : ∀ a, p.location = .fixed a → x.Holds (a, r.length p.type)
  through : ∀ a n, p.location = .through a n → x.Holds (a, r.pointerSize)

theorem Held.ofSlot {r : Registry} {x : Extent} {s : Slot} (h : Held r x s) :
    (Place.ofSlot s).Held r x where
  known := h.known
  fixed a ha := by
    injection ha with ha
    exact ha ▸ h.storage
  through a n ha := by cases ha

theorem Place.held_behind {r : Registry} {x : Extent} {t : Ty} {pointer : Address} {offset : Nat}
    (ht : r.Knows t) (hp : x.Holds (pointer, r.pointerSize)) :
    (Place.behind t pointer offset).Held r x where
  known := ht
  fixed a ha := by cases ha
  through a n ha := by
    injection ha with ha _
    exact ha ▸ hp

theorem Held.place {r : Registry} {x : Extent} {b : Binding} {name : String}
    (h : ClassLang.Held r x ⟨b.type, b.address⟩) : (b.place name).Held r x where
  known := h.known
  fixed a ha := by
    injection ha with ha
    exact ha ▸ h.storage
  through a n ha := by cases ha

theorem eq_pointer_of_pointeeClass? {t owner : Ty} (h : t.pointeeClass? = some owner) :
    t = .pointer owner ∧ owner.isClassLike = true := by
  unfold Ty.pointeeClass? at h
  obtain ⟨hpointee, hclass⟩ := Option.filter_eq_some_iff.mp h
  cases t with
  | pointer inner =>
    injection hpointee with hpointee
    exact ⟨by rw [hpointee], hclass⟩
  | _ => cases hpointee

theorem eq_array_of_element? {t element : Ty} (h : t.element? = some element) :
    t = .array element := by
  cases t with
  | array inner =>
    injection h with h
    rw [h]
  | _ => cases h

namespace CompileM

variable {r : Registry} {c : Compilation} {dest : Option Slot}

/-! ## Reading, writing, pointing -/

theorem safe_read {p : Place} (hc : Ready r c) (hp : p.Held r c.extent)
    (hdest : ∀ d ∈ dest, Held r c.extent d) :
    Safe Extends (Lowering.read dest p) c fun s c' => Held r c'.extent s ∧ s.type = p.type := by
  unfold Lowering.read
  split
  · rename_i a ha
    exact .pure ⟨⟨hp.fixed a ha, hp.known⟩, rfl⟩
  · rename_i pointer offset hthrough
    refine (safe_resultAddress hc.registry hp.known hdest).bind fun dst c₁ h₁ hdst => ?_
    have hc₁ := hc.after h₁
    refine .lengthOf_bind ?_
    rw [hc₁.registry]
    refine (safe_withRegister (P := fun _ x => Held r x ⟨p.type, dst⟩)
      (Nat.lt_of_lt_of_le Nat.zero_lt_two hc₁.registers)
      fun reg c₂ h₂ hx _ => ?_).bind fun _ c₃ h₃ hdst₃ => ?_
    · have hpointer := (hp.through _ _ hthrough).mono h₁.extent (Nat.le_refl _)
      rw [← hx] at hpointer hdst
      refine safe_emit_bind (List.forall_mem_singleton.mpr ?_) (List.forall_mem_nil _) trivial
        fun c₄ h₄ hx₄ => ?_
      · rw [h₂.registry, hc₁.registry]
        exact hpointer
      · rw [← hx₄] at hdst
        refine (safe_emit (i := .load dst ⟨reg, offset⟩ (r.length p.type)) (List.forall_mem_nil _)
          (List.forall_mem_singleton.mpr hdst.storage) trivial).mono fun _ c₅ h₅ _ => ?_
        exact hdst.mono h₅.extent
    · exact .pure ⟨hdst₃, rfl⟩

theorem safe_storeThrough {pointer : Address} {offset : Nat} {value : Slot} (hc : Ready r c)
    (hpointer : c.extent.Holds (pointer, r.pointerSize)) (hvalue : Held r c.extent value) :
    Safe Extends (storeThrough pointer offset value) c fun _ _ => True := by
  unfold storeThrough
  refine .lengthOf_bind ?_
  refine (safe_withRegister (P := fun _ _ => True)
    (Nat.lt_of_lt_of_le Nat.zero_lt_two hc.registers) fun reg c₁ h₁ hx _ => ?_)
  rw [← hx] at hpointer hvalue
  refine safe_emit_bind (List.forall_mem_singleton.mpr ?_) (List.forall_mem_nil _) trivial
    fun c₂ _ hx₂ => ?_
  · rw [h₁.registry, hc.registry]
    exact hpointer
  · rw [← hx₂] at hvalue
    refine (safe_emit (List.forall_mem_singleton.mpr ?_) (List.forall_mem_nil _) (by trivial)).weaken
    rw [hc.registry]
    exact hvalue.storage

theorem safe_checkAssignable {target : Expr} {p : Place} {span : Span} :
    Safe Extends (checkAssignable target p span) c fun _ c' => c' = c := by
  have hconst : Safe Extends (if p.isConst then
      CompileM.fail (.assignToConst (p.name.getD "value")) span
      else (Pure.pure ⟨⟩ : CompileM PUnit)) c fun _ c' => c' = c := by
    split
    · exact .fail
    · exact .pure rfl
  unfold checkAssignable
  dsimp only
  split
  · split
    · exact .fail_bind
    · exact hconst
  · exact hconst

/-- Writing a place is as safe as what leaves the value. -/
theorem safe_writePlace {p : Place} {leave : Slot → CompileM Unit} {stored : CompileM Slot}
    (hc : Ready r c) (hp : p.Held r c.extent)
    (hleave : ∀ s, Held r c.extent s → Safe Extends (leave s) c fun _ _ => True)
    (hstored : Safe Extends stored c fun s c' => Held r c'.extent s) :
    Safe Extends (writePlace p leave stored) c fun s c' => Held r c'.extent s := by
  unfold writePlace
  split
  · rename_i a ha
    have hslot : Held r c.extent ⟨p.type, a⟩ := ⟨hp.fixed a ha, hp.known⟩
    refine (hleave _ hslot).bind fun _ c₁ h₁ _ => ?_
    exact .pure (hslot.mono h₁.extent)
  · rename_i pointer offset hthrough
    refine hstored.bind fun value c₁ h₁ hvalue => ?_
    refine (safe_storeThrough (hc.after h₁)
      ((hp.through _ _ hthrough).mono h₁.extent (Nat.le_refl _)) hvalue).bind fun _ c₂ h₂ _ => ?_
    exact .pure (hvalue.mono h₂.extent)

theorem safe_pointTo {reg : Register} {p : Place} (hr : c.registry = r)
    (hp : p.Held r c.extent) :
    Safe Extends (pointTo reg p.location) c fun _ c' => c'.extent = c.extent := by
  unfold pointTo
  split
  · rename_i a ha
    exact safe_emit
      (List.forall_mem_singleton.mpr ((hp.fixed a ha).mono (.refl _) (Nat.zero_le _)))
      (List.forall_mem_nil _) trivial
  · rename_i pointer offset hthrough
    refine safe_emit_bind (List.forall_mem_singleton.mpr ?_) (List.forall_mem_nil _) trivial
      fun c₁ _ hx => ?_
    · rw [hr]
      exact hp.through _ _ hthrough
    · split
      · exact (safe_emit (List.forall_mem_nil _) (List.forall_mem_nil _) (by trivial)).mono
          fun _ _ _ hx₂ => hx₂.trans hx
      · exact .pure hx

theorem safe_addressOf {p : Place} (hc : Ready r c) (hp : p.Held r c.extent)
    (hdest : ∀ d ∈ dest, Held r c.extent d) :
    Safe Extends (addressOf dest p) c fun s c' =>
      Held r c'.extent s ∧ s.type = .pointer p.type := by
  unfold addressOf
  refine safe_withRegister (P := fun s x => Held r x s ∧ s.type = .pointer p.type)
    (Nat.lt_of_lt_of_le Nat.zero_lt_two hc.registers) fun reg c₁ h₁ hx _ => ?_
  have hr₁ := h₁.registry.trans hc.registry
  rw [← hx] at hp hdest
  refine (safe_pointTo hr₁ hp).bind fun _ c₂ h₂ hx₂ => ?_
  rw [← hx₂] at hp hdest
  have hr₂ := h₂.registry.trans hr₁
  refine (safe_resultAddress hr₂ (Registry.knows_pointer.mpr hp.known) hdest).bind
    fun dst c₃ h₃ hdst => ?_
  refine safe_emit_bind (List.forall_mem_nil _) (List.forall_mem_singleton.mpr ?_) trivial
    fun c₄ h₄ _ => ?_
  · rw [h₃.registry, hr₂]
    exact hdst.storage
  · exact .pure ⟨hdst.mono h₄.extent, rfl⟩

/-! ## Objects -/

theorem safe_tagObject {object : Slot} (hc : Ready r c) (hobject : Held r c.extent object)
    (hclass : object.type.isClassLike = true) (hconcrete : r.Concrete object.type) :
    Safe Extends (tagObject object) c fun _ _ => True := by
  unfold tagObject
  refine (safe_classId hc.registry hobject.known hclass).bind ?_
  rintro id c₁ - ⟨rfl, htags⟩
  refine (safe_withRegister (P := fun _ _ => True)
    (Nat.lt_of_lt_of_le Nat.zero_lt_two hc.registers) fun reg c₂ h₂ hx _ => ?_)
  have hobject := hobject.storage
  rw [← hx] at hobject
  refine safe_emit_bind (List.forall_mem_singleton.mpr (hobject.mono (.refl _) (Nat.zero_le _)))
    (List.forall_mem_nil _) trivial fun c₃ h₃ _ => ?_
  refine (safe_emit (List.forall_mem_nil _) (List.forall_mem_nil _) ?_).weaken
  show c₃.registry.Tags id
  rw [h₃.registry, h₂.registry, hc.registry]
  exact htags hconcrete

theorem safe_clear {slot : Slot} (hc : Ready r c) (hslot : Held r c.extent slot)
    (hconcrete : r.Concrete slot.type) :
    Safe Extends (clear slot) c fun _ _ => True := by
  unfold clear
  refine .lengthOf_bind ?_
  refine safe_emit_bind (List.forall_mem_nil _) (List.forall_mem_singleton.mpr ?_) trivial
    fun c₁ h₁ _ => ?_
  · rw [hc.registry]
    exact hslot.storage
  · split
    · rename_i hclass
      exact safe_tagObject (hc.after h₁) (hslot.mono h₁.extent) hclass hconcrete
    · exact .pure trivial

/-! ## Parts of places -/

theorem safe_fieldOf {t : Ty} {member : Ident} (hc : Ready r c) (ht : r.Knows t) :
    Safe Extends (fieldOf t member) c fun f c' =>
      c' = c ∧ r.Knows f.2 ∧ f.1 + r.length f.2 ≤ r.length t := by
  unfold fieldOf
  refine .get_bind ?_
  dsimp only
  rw [hc.registry]
  split
  · rename_i f hf
    exact .pure ⟨rfl, hc.sound.field? ht hf⟩
  · exact .fail

/-- A field of an object lies inside of the object. -/
theorem Place.Held.field {object : Place} {x : Extent} (h : object.Held r x) {offset : Nat}
    {type : Ty} (ht : r.Knows type) (hle : offset + r.length type ≤ r.length object.type) :
    Place.Held r x { object with type := type, location := object.location.shift offset } where
  known := ht
  fixed a ha := by
    cases hl : object.location with
    | fixed b =>
      rw [hl] at ha
      injection ha with ha
      exact ha ▸ (h.fixed b hl).shift hle
    | through b n =>
      rw [hl] at ha
      cases ha
  through a n ha := by
    cases hl : object.location with
    | fixed b =>
      rw [hl] at ha
      cases ha
    | through b m =>
      rw [hl] at ha
      injection ha with ha _
      exact ha ▸ h.through b m hl

theorem safe_fieldPlace {object : Place} {member : Ident} (hc : Ready r c)
    (hobject : object.Held r c.extent) :
    Safe Extends (fieldPlace object member) c fun p c' => p.Held r c'.extent := by
  unfold fieldPlace
  split
  · refine (safe_fieldOf hc hobject.known).bind ?_
    rintro ⟨offset, type⟩ c₁ - ⟨rfl, ht, hle⟩
    exact .pure (Place.Held.field hobject ht hle)
  · split
    · rename_i owner howner
      obtain ⟨hpointer, _⟩ := eq_pointer_of_pointeeClass? howner
      have hknown : r.Knows owner := by
        have hknown := hobject.known
        rw [hpointer] at hknown
        exact hknown
      refine (safe_fieldOf hc hknown).bind ?_
      rintro ⟨offset, type⟩ c₁ - ⟨rfl, ht, -⟩
      refine (safe_read hc hobject fun _ hd => by cases hd).bind fun pointer c₂ h₂ hread => ?_
      obtain ⟨hheld, htype⟩ := hread
      have hstorage := hheld.storage
      rw [htype, hpointer] at hstorage
      exact .pure (Place.held_behind ht hstorage)
    · exact .typeName_bind .fail

theorem safe_pointeePlace {pointer : Slot} {span : Span} (hpointer : Held r c.extent pointer) :
    Safe Extends (pointeePlace pointer span) c fun p c' => p.Held r c'.extent := by
  obtain ⟨hstorage, hknown⟩ := hpointer
  unfold pointeePlace
  split
  · rename_i inner hinner
    rw [hinner] at hstorage hknown
    split
    · exact .typeName_bind .fail_bind
    · exact .pure (Place.held_behind hknown hstorage)
  · exact .typeName_bind .fail

theorem safe_elementType {array : Slot} {span : Span} :
    Safe Extends (elementType array span) c fun t c' => c' = c ∧ array.type = .array t := by
  unfold elementType
  split
  · rename_i t ht
    exact .pure ⟨rfl, eq_array_of_element? ht⟩
  · exact .typeName_bind .fail

theorem safe_pointToElement {reg : Register} {array position : Address} {n : Nat}
    (hr : c.registry = r) (harray : c.extent.Holds (array, r.pointerSize))
    (hposition : c.extent.Holds (position, Prim.int.size)) :
    Safe Extends (pointToElement reg array position n) c fun _ c' => c'.extent = c.extent := by
  unfold pointToElement
  refine safe_emit_bind (List.forall_mem_singleton.mpr ?_) (List.forall_mem_nil _) trivial
    fun c₁ _ hx => ?_
  · rw [hr]
    exact harray
  · rw [← hx] at hposition ⊢
    exact safe_emit (List.forall_mem_singleton.mpr hposition) (List.forall_mem_nil _) trivial

theorem safe_elementPlace {array position : Slot} {element : Ty} {span : Span} (hc : Ready r c)
    (harray : Held r c.extent array) (htype : array.type = .array element)
    (hposition : Held r c.extent position) :
    Safe Extends (elementPlace array element position span) c fun p c' =>
      p.Held r c'.extent := by
  obtain ⟨hstorage, hknown⟩ := harray
  rw [htype] at hstorage hknown
  unfold elementPlace
  split
  · exact .typeName_bind .fail_bind
  · refine (safe_coerce hc.registry hposition (Registry.knows_prim .int)).bind
      fun position c₁ h₁ ⟨hheld, hint⟩ => ?_
    have hc₁ := hc.after h₁
    have hindex := hheld.storage
    rw [hint] at hindex
    refine .lengthOf_bind ?_
    refine (safe_withRegister (P := fun a x => x.Holds (a, r.pointerSize))
      (Nat.lt_of_lt_of_le Nat.zero_lt_two hc₁.registers) fun reg c₂ h₂ hx _ => ?_).bind
      fun slot c₃ _ hslot => ?_
    · have hr₂ := h₂.registry.trans hc₁.registry
      have hstorage₁ := hstorage.mono h₁.extent (Nat.le_refl _)
      rw [← hx] at hstorage₁ hindex
      refine (safe_pointToElement hr₂ hstorage₁ hindex).bind fun _ c₄ h₄ _ => ?_
      exact safe_spill (h₄.registry.trans hr₂)
    · exact .pure (Place.held_behind hknown hslot)

/-! ## Names as places -/

theorem safe_functionPointer {type : Ty} {mangled : String} (hr : c.registry = r)
    (ht : r.Knows type) (hcallable : type.isCallable = true) :
    Safe Extends (functionPointer type mangled) c fun s c' => Held r c'.extent s := by
  unfold functionPointer
  refine .pointerSize_bind ?_
  rw [hr]
  refine safe_alloc_fresh.bind fun a c₁ h₁ hfresh => ?_
  refine safe_emit_bind (List.forall_mem_nil _) (List.forall_mem_singleton.mpr ?_) trivial
    fun c₂ _ hx => ?_
  · rw [h₁.registry, hr]
    exact hfresh
  · rw [← hx] at hfresh
    refine .pure ⟨?_, ht⟩
    cases type with
    | callable _ _ _ => exact hfresh
    | _ => cases hcallable

theorem knows_callableType (hr : r.Sound) {id : Nat} {s : Signature}
    (hs : r.function? id = some s) :
    r.Knows s.callableType ∧ s.callableType.isCallable = true := by
  obtain ⟨hparams, hresult, howner⟩ := hr.functions hs
  unfold Signature.callableType
  split
  · exact ⟨Registry.knows_callable.mpr ⟨hparams, hresult⟩, rfl⟩
  · rename_i owner heq
    refine ⟨Registry.knows_callable.mpr ⟨Registry.knowsAll_cons.mpr ⟨?_, hparams⟩, hresult⟩, rfl⟩
    exact Registry.knows_classRef.mpr (howner owner heq)

theorem safe_functionValue {name : String} {ids : List Nat} {span : Span} (hc : Ready r c)
    (hids : ∀ id ∈ ids, id < r.functions.size) :
    Safe Extends (functionValue name ids span) c fun s c' => Held r c'.extent s := by
  unfold functionValue
  split
  · rename_i id
    obtain ⟨s, hs, hfun⟩ := Registry.exists_getFunction (hids id List.mem_cons_self)
    obtain ⟨hknows, hcallable⟩ := knows_callableType hc.sound hfun
    exact .askRegistry_bind (hc.registry ▸ hs)
      (safe_functionPointer hc.registry hknows hcallable)
  · exact .fail

theorem safe_namePlace {name : String} {span : Span} (hc : Ready r c) :
    Safe Extends (namePlace name span) c fun p c' => p.Held r c'.extent := by
  unfold namePlace
  refine safe_meaning.bind ?_
  rintro d c₁ - ⟨rfl, e, he, hd⟩
  have husable := hc.names name e he
  rw [hd] at husable
  split
  · rename_i b
    exact .pure (Held.place (husable.2 b rfl))
  · rename_i ids
    refine (safe_functionValue hc husable.1.2).bind fun s _ _ hs => ?_
    exact .pure hs.ofSlot
  all_goals exact .fail

theorem safe_receiverPlace {span : Span} (hc : Ready r c) :
    Safe Extends (receiverPlace span) c fun p c' => p.Held r c'.extent := by
  unfold receiverPlace
  refine safe_receiverBinding.bind ?_
  rintro b c₁ - ⟨rfl, -, e, he, hb⟩
  have hheld : (b.place "this").Held r c₁.extent :=
    Held.place ((hc.names "this" e he).2 b hb)
  exact .pure ⟨hheld.known, hheld.fixed, hheld.through⟩

theorem safe_literalSlot {l : Literal} (hc : Ready r c) :
    Safe Extends (literalSlot l) c fun s c' => Held r c'.extent s := by
  unfold literalSlot
  refine (safe_intern hc.literals).bind fun a c₁ h₁ ha => ?_
  have hc₁ := hc.after h₁
  split
  · exact .pure ⟨ha, Registry.knows_prim _⟩
  · exact .pure ⟨ha, Registry.knows_prim _⟩
  · exact .pure ⟨ha, Registry.knows_prim _⟩
  · refine (safe_withRegister (P := fun a x => x.Holds (a, r.pointerSize))
      (Nat.lt_of_lt_of_le Nat.zero_lt_two hc₁.registers) fun reg c₂ h₂ hx _ => ?_).bind
      fun slot c₃ _ hslot => ?_
    · have hr₂ := h₂.registry.trans hc₁.registry
      rw [← hx] at ha
      refine safe_emit_bind (List.forall_mem_singleton.mpr (ha.mono (.refl _) (Nat.zero_le _)))
        (List.forall_mem_nil _) trivial fun c₄ h₄ _ => ?_
      exact safe_spill (h₄.registry.trans hr₂)
    · exact .pure ⟨hslot, Registry.knows_array.mpr (Registry.knows_prim _)⟩

end CompileM

end ClassLang
