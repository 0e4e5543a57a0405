import ClassLang.Proofs.Registration.Layout

/-!
# Layouts in 32 bits

Offsets and lengths are kept in 32 bits. As long as every class is shorter than `2 ^ 32` bytes,
nothing is lost, and the layouts that are kept are sound. The length of a longer class wraps around,
and then the class ends before its last field does.
-/

namespace ClassLang

/-! ## What is kept -/

/-- What 32 bits keep of the layout of a class. -/
def Class.wrapped (c : Class) : Class :=
  { c with
    fields := c.fields.map fun f => { f with offset := wrap f.offset }
    length := wrap c.length }

/-- What 32 bits keep of all layouts. -/
def Registry.wrapped (r : Registry) : Registry :=
  { r with classes := r.classes.mapValues Class.wrapped }

section Wrapped

variable {r : Registry} {k : TypeHash} {c : Class}

theorem Registry.class?_wrapped (r : Registry) (h : TypeHash) :
    r.wrapped.class? h = (r.class? h).map Class.wrapped :=
  Table.find?_mapValues Class.wrapped r.classes h

theorem Registry.Representable.length_lt (h : r.Representable) (hc : r.class? k = some c) :
    c.length < UInt32.size := h c (Table.mem_values_of_find? hc)

/-- Nothing is lost of a class that is shorter than `2 ^ 32` bytes. -/
theorem LayoutSound.wrapped_eq (h : LayoutSound r c) (hlength : c.length < UInt32.size) :
    c.wrapped = c := by
  have hfields : c.fields.map (fun f => { f with offset := wrap f.offset }) = c.fields := by
    refine (List.map_congr_left fun f hf => ?_).trans (List.map_id _)
    rw [wrap_of_lt (Nat.lt_of_le_of_lt (h.contiguous.offset_le hf) hlength), id]
  unfold Class.wrapped
  rw [hfields, wrap_of_lt hlength]

/-- A layout is sound by what is found of the classes. -/
theorem LayoutSound.congr {r' : Registry} (h : LayoutSound r c)
    (hclasses : ∀ k, r'.class? k = r.class? k) (hpointer : r'.pointerSize = r.pointerSize) :
    LayoutSound r' c := by
  have hlength : ∀ t, r'.length t = r.length t :=
    Registration.length_of_sameLayouts ⟨fun k => by rw [hclasses], hpointer⟩
  refine ⟨h.distinct, h.tagged, h.contiguous.congr fun f _ => hlength f.type, fun a ha => ?_⟩
  obtain ⟨A, hA, hfields⟩ := h.ancestors a ha
  refine ⟨A, (hclasses a).trans hA, fun f hf => ?_⟩
  obtain ⟨g, hg, hfind, hname, hoffset, heq⟩ := hfields f hf
  exact ⟨g, hg, hfind, hname, hoffset, by rw [hlength, hlength, heq]⟩

end Wrapped

namespace Registration

/-- In a program that registration accepts and in which no length outgrows 32 bits, the layout that
is kept of every class is sound under every upcast. -/
theorem layout_sound {o : Options} {p : Program} {r : Registry} (h : accepted? o p = some r)
    (hfits : r.Representable) {k : TypeHash} {C : Class} (hC : r.class? k = some C) :
    LayoutSound r.wrapped C.wrapped := by
  have hkept : ∀ {k c}, r.class? k = some c → c.wrapped = c := fun hc =>
    (layoutSound_of_accepted? h hc).wrapped_eq (hfits.length_lt hc)
  rw [hkept hC]
  refine (layoutSound_of_accepted? h hC).congr (fun k => ?_) rfl
  rw [Registry.class?_wrapped]
  cases hc : r.class? k with
  | none => rfl
  | some c => rw [Option.map_some, hkept hc]

set_option maxRecDepth 100000 in
theorem layout_sound_nested : ∃ r C, accepted? {} nestedRecords = some r ∧ r.Representable ∧
    r.class? (TypeHash.ofName "m$Both") = some C ∧
    (C.fields.map fun f => (f.name, f.offset)) =
      [("__class__", 0), ("x", 8), ("in", 9), ("y", 25)] ∧ C.length = 33 ∧
    LayoutSound r.wrapped C.wrapped := by
  have hrun : ((accepted? {} nestedRecords).bind fun r =>
      (r.class? (TypeHash.ofName "m$Both")).map fun C =>
        (decide r.Representable, C.fields.map fun f => (f.name, f.offset), C.length)) =
      some (true, [("__class__", 0), ("x", 8), ("in", 9), ("y", 25)], 33) := by
    decide +kernel
  obtain ⟨r, hr, hC⟩ := Option.bind_eq_some_iff.mp hrun
  obtain ⟨C, hC, hlayout⟩ := Option.map_eq_some_iff.mp hC
  simp only [Prod.mk.injEq, decide_eq_true_eq] at hlayout
  obtain ⟨hfits, hfields, hlength⟩ := hlayout
  exact ⟨r, C, hr, hfits, hC, hfields, hlength, layout_sound hr hfits hC⟩

/-- Classes each of which holds sixteen objects of the one before it. -/
def giants : List Item :=
  let names := ["Grain", "Stone", "Rock", "Hill", "Mountain", "Island", "Land", "Giant"]
  let fields := ["a", "b", "c", "d", "e", "f", "g", "h", "i", "j", "k", "l", "m", "n", "o", "p"]
  sampleRecord "Grain" [] [] :: (names.zip names.tail).map fun (part, name) =>
    sampleRecord name [] (fields.map fun f => (f, .named part [] .unknown))

/-- A class that holds two objects, each of more than half of `2 ^ 32` bytes. -/
def giantPair : Program :=
  ⟨[⟨"m", giants ++ [sampleRecord "Pair" []
    [("x", .named "Giant" [] .unknown), ("y", .named "Giant" [] .unknown)]]⟩]⟩

set_option maxRecDepth 100000 in
/-- The length that is kept of a class with two such objects is less than the offset of the second
one. -/
theorem layout_sound_fails_giantPair : ∃ r C, accepted? {} giantPair = some r ∧
    r.class? (TypeHash.ofName "m$Pair") = some C ∧
    (C.wrapped.fields.map fun f => (f.name, f.offset)) =
      [("__class__", 0), ("x", 8), ("y", 2290649232)] ∧ C.wrapped.length = 286331160 ∧
    ¬LayoutSound r.wrapped C.wrapped := by
  have hrun : ((accepted? {} giantPair).bind fun r =>
      (r.class? (TypeHash.ofName "m$Pair")).map fun C =>
        (C.wrapped.fields.map fun f => (f.name, f.offset), C.wrapped.length)) =
      some ([("__class__", 0), ("x", 8), ("y", 2290649232)], 286331160) := by
    decide +kernel
  obtain ⟨r, hr, hC⟩ := Option.bind_eq_some_iff.mp hrun
  obtain ⟨C, hC, hlayout⟩ := Option.map_eq_some_iff.mp hC
  obtain ⟨hfields, hlength⟩ := Prod.mk.inj hlayout
  refine ⟨r, C, hr, hC, hfields, hlength, fun hsound => ?_⟩
  have hmem : ("y", 2290649232) ∈ C.wrapped.fields.map fun f => (f.name, f.offset) := by
    rw [hfields]
    decide
  obtain ⟨f, hf, heq⟩ := List.mem_map.mp hmem
  have hle := hsound.contiguous.offset_le hf
  rw [(Prod.mk.inj heq).2, hlength] at hle
  exact absurd hle (by decide)

end Registration

end ClassLang
