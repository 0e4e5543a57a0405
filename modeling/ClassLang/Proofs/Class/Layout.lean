import ClassLang.Proofs.Class.Ancestors
import ClassLang.Proofs.Ty.Storage

/-!
# What one layout promises

The fields of a class lie one behind the other, without gaps, and the class ends where its last
field does. The fields of the first base come first, where the base has them; those of any
other base must be among them, at the place that the base expects. Fields keep their types up to
template arguments, and arguments never change how much space a field takes, since a field is
never of a template parameter's type itself. So what lies at some place in an object of a base
lies at the same place in an object of the class.
-/

namespace ClassLang

/-- The fields lie one behind the other, from `start` to `stop`. -/
def Registry.Fills (r : Registry) : Nat → List Field → Nat → Prop
  | start, [], stop => stop = start
  | start, f :: rest, stop => f.offset = start ∧ r.Fills (start + r.length f.type) rest stop

namespace Registry.Fills

variable {r r' : Registry} {fs gs : List Field}

theorem append : ∀ {fs : List Field} {a b d : Nat}, r.Fills a fs b → r.Fills b gs d →
    r.Fills a (fs ++ gs) d
  | [], a, b, d, hf, hg => by
    have hb : b = a := hf
    exact hb ▸ hg
  | f :: fs, a, b, d, ⟨hoffset, hf⟩, hg => ⟨hoffset, hf.append hg⟩

/-- Changing the types of fields leaves them in place if it leaves their lengths alone. -/
theorem retype (g : Ty → Ty) : ∀ {fs : List Field} {a b : Nat}, r.Fills a fs b →
    (∀ f ∈ fs, r'.length (g f.type) = r.length f.type) →
    r'.Fills a (fs.map fun f => { f with type := g f.type }) b
  | [], _, _, hf, _ => hf
  | f :: fs, a, b, ⟨hoffset, hf⟩, hg => by
    refine ⟨hoffset, ?_⟩
    dsimp only
    rw [hg f (List.mem_cons_self ..)]
    exact hf.retype g fun f hf => hg f (List.mem_cons_of_mem _ hf)

theorem congr {a b : Nat} (hf : r.Fills a fs b)
    (hlen : ∀ f ∈ fs, r'.length f.type = r.length f.type) : r'.Fills a fs b := by
  have hid := hf.retype id hlen
  rwa [show (fun f : Field => { f with type := id f.type }) = id from rfl, List.map_id] at hid

/-- Every field lies between the start and the end. -/
theorem within {a b : Nat} (h : r.Fills a fs b) :
    a ≤ b ∧ ∀ f ∈ fs, a ≤ f.offset ∧ f.offset + r.length f.type ≤ b := by
  induction fs generalizing a with
  | nil => exact ⟨Nat.le_of_eq (Eq.symm h), List.forall_mem_nil _⟩
  | cons f fs ih =>
    obtain ⟨hoffset, hrest⟩ := h
    obtain ⟨hle, hall⟩ := ih hrest
    have hstart := Nat.le_of_eq (Eq.symm hoffset)
    refine ⟨Nat.le_trans (Nat.le_add_right ..) hle,
      List.forall_mem_cons.mpr ⟨⟨hstart, hoffset ▸ hle⟩, fun g hg => ?_⟩⟩
    exact ⟨Nat.le_trans (Nat.le_add_right ..) (hall g hg).1, (hall g hg).2⟩

/-- No field starts behind the end. -/
theorem offset_le {a b : Nat} (h : r.Fills a fs b) {f : Field} (hf : f ∈ fs) : f.offset ≤ b :=
  Nat.le_trans (Nat.le_add_right ..) (h.within.2 f hf).2

end Registry.Fills

/-- `fields` has what an object of class `base` has, at the same places, in the terms of `c`. -/
def Class.Includes (c base : Class) (fields : List Field) : Prop :=
  ∀ f ∈ base.fields, { f with type := c.inOwnTerms base f.type } ∈ fields

namespace Layout

variable {r : Registry} {c : Class}

/-- Own fields go behind those that are placed, and take no name that is taken. -/
theorem placeFields_spec {own : List OwnField} :
    ∀ {earlier : List OwnField} {placed fields : List Field} {start stop : Nat},
      placeFields r c earlier placed start own = .ok (fields, stop) →
      ∃ more, fields = placed ++ more ∧ r.Fills start more stop ∧
        ((placed.map (·.name)).Nodup → (fields.map (·.name)).Nodup) ∧
        ∀ f ∈ more, ∃ d ∈ own, f.type = d.type := by
  induction own with
  | nil =>
    intro earlier placed fields start stop h
    injection h with h
    injection h with hfields hstop
    exact ⟨[], by rw [List.append_nil, hfields], hstop.symm, fun hn => hfields ▸ hn,
      List.forall_mem_nil _⟩
  | cons d own ih =>
    intro earlier placed fields start stop h
    unfold placeFields at h
    split at h
    · cases h
    · rename_i hfree
      -- The new field counts as placed for those behind it.
      obtain ⟨more, hfields, hfills, hnodup, htypes⟩ := ih h
      refine ⟨⟨d.name, start, d.type⟩ :: more, by rw [hfields, List.append_assoc]; rfl,
        ⟨rfl, hfills⟩, ?_, ?_⟩
      · intro hplaced
        refine hnodup ?_
        rw [List.map_append, List.map_singleton]
        refine List.nodup_append.mpr ⟨hplaced, by simp, ?_⟩
        intro a ha b hb
        obtain ⟨f, hf, rfl⟩ := List.mem_map.mp ha
        rw [List.mem_singleton.mp hb]
        rintro heq
        -- The check has refused a name that is taken.
        exact hfree (List.any_eq_true.mpr ⟨f, hf, beq_iff_eq.mpr heq⟩)
      · intro f hf
        rcases List.mem_cons.mp hf with rfl | hf
        · exact ⟨d, List.mem_cons_self .., rfl⟩
        · obtain ⟨e, he, heq⟩ := htypes f hf
          exact ⟨e, List.mem_cons_of_mem _ he, heq⟩

/-- Bases that pass the check find all their fields. -/
theorem checkBases_spec {fields : List Field} {ts : List Ty}
    (h : checkBases r c fields ts = .ok ()) :
    ∀ b ∈ ts.filterMap (·.classHash?), ∀ base, r.class? b = some base →
      c.Includes base fields := by
  induction ts with
  | nil => exact fun b hb => absurd hb List.not_mem_nil
  | cons t ts ih =>
    unfold checkBases at h
    split at h
    · rename_i hnone
      rw [List.filterMap_cons_none hnone]
      exact ih h
    · rename_i hash hsome
      simp only [except_bind_eq_ok, Registry.getClass_eq_ok] at h
      obtain ⟨base, hbase, h⟩ := h
      rw [List.filterMap_cons_some hsome]
      split at h
      · cases h
      · rename_i hfound
        refine List.forall_mem_cons.mpr ⟨?_, ih h⟩
        intro base' hbase' f hf
        rw [hbase] at hbase'
        injection hbase' with hbase'
        subst hbase'
        have hfield := List.find?_eq_none.mp hfound f hf
        simpa [hasField] using hfield

/-- The root's tag comes first in every class that starts with the fields of its first base. -/
theorem tag_inOwnTerms (base : Class) : c.inOwnTerms base .voidPointer = .voidPointer := by
  unfold Class.inOwnTerms
  split <;> rfl

end Layout

/-- The layout of a class whose bases, and whose fields' classes, are `settled`. A field that it
does not have from a base is of a type that the class `wrote`. -/
structure LaidOut (r : Registry) (wrote : TypeHash → Ty → Prop) (settled : TypeHash → Prop)
    (c : Class) : Prop where
  names : (c.fields.map (·.name)).Nodup
  tag : ∃ rest, c.fields = ⟨Class.tagField, 0, .voidPointer⟩ :: rest
  fills : r.Fills 0 c.fields c.length
  types : ∀ f ∈ c.fields, f.type.isParam = false ∧ ∀ h, f.type.storage = .object h → settled h
  bases : ∀ b ∈ Registration.baseHashes c, settled b ∧
    ∀ base, r.class? b = some base → c.Includes base c.fields
  origins : ∀ f ∈ c.fields, wrote c.hash f.type ∨ ∃ b ∈ Registration.baseHashes c, ∃ base,
    r.class? b = some base ∧ ∃ g ∈ base.fields, f.type = c.inOwnTerms base g.type

namespace LaidOut

variable {r r' : Registry} {wrote : TypeHash → Ty → Prop} {settled settled' : TypeHash → Prop}
  {c : Class}

/-- The root has its tag and nothing else. -/
theorem root (r : Registry) (settled : TypeHash → Prop)
    (hwrote : wrote Class.rootHash .voidPointer) :
    LaidOut r wrote settled (Class.root r.pointerSize) where
  names := List.pairwise_singleton ..
  tag := ⟨[], rfl⟩
  fills := ⟨rfl, (Nat.zero_add _).symm⟩
  types := by
    refine List.forall_mem_singleton.mpr ⟨rfl, ?_⟩
    intro h hh
    cases hh
  bases b hb := absurd hb List.not_mem_nil
  origins := List.forall_mem_singleton.mpr (.inl hwrote)

/-- A layout stays what it is while the settled classes do. -/
theorem mono (h : LaidOut r wrote settled c) (hsize : r'.pointerSize = r.pointerSize)
    (hsame : ∀ k, settled k → r'.class? k = r.class? k) (hmore : ∀ k, settled k → settled' k) :
    LaidOut r' wrote settled' c where
  names := h.names
  tag := h.tag
  fills := by
    refine h.fills.congr fun f hf => ?_
    have hsettled := (h.types f hf).2
    rw [Registry.length_eq, Registry.length_eq]
    cases hs : f.type.storage with
    | object k =>
      rw [Registry.storageLength, hsame k (hsettled k hs)]
      rfl
    | word => exact hsize
    | _ => rfl
  types f hf := ⟨(h.types f hf).1, fun k hk => hmore k ((h.types f hf).2 k hk)⟩
  bases b hb := by
    obtain ⟨hsettled, hincludes⟩ := h.bases b hb
    refine ⟨hmore b hsettled, fun base hbase => hincludes base ?_⟩
    rw [← hsame b hsettled]
    exact hbase
  origins f hf := by
    refine (h.origins f hf).imp_right ?_
    rintro ⟨b, hb, base, hbase, horigin⟩
    exact ⟨b, hb, base, (hsame b (h.bases b hb).1).trans hbase, horigin⟩

/-- In the terms of another class the fields take the same space. -/
theorem length_inOwnTerms (h : LaidOut r wrote settled c) (d : Class) :
    ∀ f ∈ c.fields, r.length (d.inOwnTerms c f.type) = r.length f.type := by
  intro f hf
  rw [Registry.length_eq, Registry.length_eq, (d.storage_inOwnTerms c (h.types f hf).1).1]

end LaidOut

/-- Laying out a class behind its bases, which are laid out. The first base gives the first
fields, and the others have passed the check. -/
theorem Layout.layOut_laidOut {r : Registry} {wrote : TypeHash → Ty → Prop}
    {settled : TypeHash → Prop} {c : Class}
    {own : List OwnField} {fields : List Field} {length : Nat}
    (h : layOut r c own = .ok (fields, length))
    (hprimary : c.mro[1]? = (Registration.baseHashes c).head?)
    (hsome : c.bases ≠ []) (hclass : ∀ t ∈ c.bases, t.isClass = true)
    (hbases : ∀ b ∈ Registration.baseHashes c, settled b ∧
      ∀ base, r.class? b = some base → LaidOut r wrote settled base)
    (hown : ∀ d ∈ own, wrote c.hash d.type ∧ d.type.isParam = false ∧
      ∀ k, d.type.storage = .object k → settled k) :
    LaidOut r wrote settled { c with fields := fields, length := length } := by
  obtain ⟨t, ts, hts⟩ := List.exists_cons_of_ne_nil hsome
  -- The bases are classes, so the first of them is there.
  obtain ⟨b, hb⟩ : ∃ b, t.classHash? = some b := by
    have ht := hclass t (hts ▸ List.mem_cons_self ..)
    cases t with
    | classRef k => exact ⟨k, rfl⟩
    | applied k as => exact ⟨k, rfl⟩
    | _ => cases ht
  have hhashes : Registration.baseHashes c = b :: ts.filterMap (·.classHash?) := by
    rw [Registration.baseHashes, hts, List.filterMap_cons_some hb]
  rw [hhashes, List.head?_cons] at hprimary
  simp only [layOut, except_bind_eq_ok, except_pure_eq_ok, inheritedFields, hprimary,
    Registry.getClass_eq_ok, Prod.mk.injEq, Prod.exists] at h
  obtain ⟨inherited, start, ⟨base, hbase, rfl, rfl⟩, placed, stop, hplace, ⟨⟩, hcheck, rfl, rfl⟩ := h
  obtain ⟨hsettled, hlaid⟩ := hbases b (hhashes ▸ List.mem_cons_self ..)
  have hlaid := hlaid base hbase
  obtain ⟨more, rfl, hfills, hnodup, htypes⟩ := placeFields_spec hplace
  refine ⟨?_, ?_, ?_, ?_, ?_, ?_⟩
  · refine hnodup ?_
    rw [List.map_map]
    exact hlaid.names
  · obtain ⟨rest, hrest⟩ := hlaid.tag
    rw [hrest, List.map_cons, List.cons_append, tag_inOwnTerms]
    exact ⟨_, rfl⟩
  · exact (hlaid.fills.retype _ (hlaid.length_inOwnTerms c)).append hfills
  · intro f hf
    rcases List.mem_append.mp hf with hf | hf
    · obtain ⟨g, hg, rfl⟩ := List.mem_map.mp hf
      obtain ⟨hparam, hobject⟩ := hlaid.types g hg
      obtain ⟨hstorage, hparam'⟩ := c.storage_inOwnTerms base hparam
      exact ⟨hparam', fun k hk => hobject k (hstorage ▸ hk)⟩
    · obtain ⟨d, hd, heq⟩ := htypes f hf
      rw [heq]
      exact (hown d hd).2
  · intro b' hb'
    refine ⟨(hbases b' hb').1, ?_⟩
    intro base' hbase' f hf
    have hb'' : b' ∈ b :: ts.filterMap (·.classHash?) := hhashes ▸ hb'
    rcases List.mem_cons.mp hb'' with rfl | hlater
    · rw [hbase] at hbase'
      injection hbase' with hbase'
      subst hbase'
      exact List.mem_append_left _ (List.mem_map.mpr ⟨f, hf, rfl⟩)
    · rw [hts, List.drop_succ_cons, List.drop_zero] at hcheck
      exact checkBases_spec hcheck b' hlater base' hbase' f hf
  · intro f hf
    rcases List.mem_append.mp hf with hf | hf
    · obtain ⟨g, hg, rfl⟩ := List.mem_map.mp hf
      exact .inr ⟨b, hhashes ▸ List.mem_cons_self .., base, hbase, g, hg, rfl⟩
    · obtain ⟨d, hd, heq⟩ := htypes f hf
      exact .inl (heq ▸ (hown d hd).1)

end ClassLang
