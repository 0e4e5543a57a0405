import ClassLang.Proofs.Dispatch.Vtable
import ClassLang.Proofs.Ty.Substitution

/-!
# The template arguments of generic ancestors

A class records for each generic ancestor the template arguments with which it is one. A base
that is written with arguments is recorded as written. About any other ancestor the bases may
say different things, each what it has recorded itself, in the terms of its own arguments; then
the first base that says anything is believed. So a class agrees with all its bases about an
ancestor exactly if the bases agree with each other.

Upcasts read the record. Where a class and a base do not agree, an object can be seen as two
instances of one generic class: as one directly, and as another by way of the base.
-/

namespace ClassLang

open CompileM

/-- The template arguments with which a class is an ancestor; none if it has no record. -/
def Class.recordedArgs (c : Class) (a : TypeHash) : List Ty := (c.inherited.find? a).getD []

/-- The template arguments with which a class-like type is seen as an ancestor. -/
def Registry.argsThrough (r : Registry) (t : Ty) (a : TypeHash) : List Ty :=
  ((t.classHash?.bind r.class?).bind (·.argsSeenAs? t a)).getD []

/-- The class of a type has the ancestor. -/
def Registry.Reaches (r : Registry) (t : Ty) (a : TypeHash) : Prop :=
  ∃ b B, t.classHash? = some b ∧ r.class? b = some B ∧ a ∈ B.mro

namespace Registration

variable {r : Registry}

/-! ## What a base adds to the record -/

theorem find?_addUnknown (known : Table TypeHash (List Ty)) (k a : TypeHash) (args : List Ty) :
    (addUnknown known k args).find? a =
      (known.find? a).or (if k = a then some args else none) := by
  unfold addUnknown
  by_cases hk : k = a
  · subst hk
    rw [if_pos rfl]
    cases hfind : known.find? k with
    | none => rw [if_neg (by simp [Table.contains, hfind]), Table.find?_insert_self]; rfl
    | some old => rw [if_pos (by simp [Table.contains, hfind]), hfind]; rfl
  · rw [if_neg hk, Option.or_none]
    split
    · rfl
    · exact Table.find?_insert_of_ne _ hk _

/-- What is known already stays, and of several entries about an ancestor the first counts. -/
theorem find?_foldl_addUnknown (g : List Ty → List Ty) (a : TypeHash)
    (entries : List (TypeHash × List Ty)) :
    ∀ known : Table TypeHash (List Ty),
      (entries.foldl (fun known e => addUnknown known e.1 (g e.2)) known).find? a =
        (known.find? a).or ((Table.lookup a entries).map g) := by
  induction entries with
  | nil =>
    intro known
    rw [List.foldl_nil, Table.lookup, Option.map_none, Option.or_none]
  | cons e entries ih =>
    intro known
    rw [List.foldl_cons, ih, find?_addUnknown, Option.or_assoc]
    congr 1
    by_cases he : e.1 = a
    · rw [Table.lookup, if_pos he, if_pos he]
      rfl
    · rw [Table.lookup, if_neg he, if_neg he]
      rfl

/-- A base that is written with arguments replaces what is known about its class; what it has
recorded only fills in what is not known. -/
theorem find?_addInherited (base : Class) (t : Ty) (known : Table TypeHash (List Ty))
    (a : TypeHash) :
    (addInherited base t known).find? a =
      (if base.hash = a ∧ t.args ≠ [] then some t.args else known.find? a).or
        ((base.inherited.find? a).map (Ty.substituteAll base.templateNames t.args)) := by
  refine (find?_foldl_addUnknown (Ty.substituteAll base.templateNames t.args) a
    base.inherited.entries _).trans ?_
  congr 1
  by_cases hargs : t.args = []
  · rw [if_pos (by rw [hargs]; rfl), if_neg fun h => h.2 hargs]
  · rw [if_neg (by simp [hargs])]
    by_cases hbase : base.hash = a
    · rw [if_pos ⟨hbase, hargs⟩, hbase, Table.find?_insert_self]
    · rw [if_neg fun h => hbase h.1, Table.find?_insert_of_ne _ hbase]

/-- What a base type says about the arguments of an ancestor, if anything. -/
def offered? (r : Registry) (t : Ty) (a : TypeHash) : Option (List Ty) :=
  (t.classHash?.bind r.class?).bind fun base =>
    if base.hash = a ∧ t.args ≠ [] then some t.args
    else (base.inherited.find? a).map (Ty.substituteAll base.templateNames t.args)

/-- The record about an ancestor is what one of the bases says; there is none only if no base
says anything. -/
theorem inheritedArgs_find? {a : TypeHash} {ts : List Ty} :
    ∀ {known record : Table TypeHash (List Ty)}, inheritedArgs r ts known = .ok record →
      (∀ args, record.find? a = some args →
        known.find? a = some args ∨ ∃ t ∈ ts, offered? r t a = some args) ∧
      (record.find? a = none → known.find? a = none ∧ ∀ t ∈ ts, offered? r t a = none) := by
  -- Along the bases as written: each may add to what the record knows, none takes from it.
  induction ts with
  | nil =>
    intro known record h
    injection h with h
    subst h
    exact ⟨fun args hargs => .inl hargs, fun hnone => ⟨hnone, List.forall_mem_nil _⟩⟩
  | cons t ts ih =>
    intro known record h
    unfold inheritedArgs at h
    cases hash : t.classHash? with
    | none =>
      -- A type that is no class offers nothing.
      rw [hash] at h
      obtain ⟨hsome, hnone⟩ := ih h
      refine ⟨fun args hargs => ?_, fun hrecord => ?_⟩
      · rcases hsome args hargs with hknown | ⟨t', ht', hoffer⟩
        · exact .inl hknown
        · exact .inr ⟨t', List.mem_cons_of_mem _ ht', hoffer⟩
      · obtain ⟨hknown, hrest⟩ := hnone hrecord
        have ht : offered? r t a = none := by
          rw [offered?, hash]
          rfl
        exact ⟨hknown, List.forall_mem_cons.mpr ⟨ht, hrest⟩⟩
    | some b =>
      rw [hash] at h
      simp only [except_bind_eq_ok, Registry.getClass_eq_ok] at h
      obtain ⟨base, hbase, hrest⟩ := h
      have hoffer : offered? r t a =
          if base.hash = a ∧ t.args ≠ [] then some t.args
          else (base.inherited.find? a).map (Ty.substituteAll base.templateNames t.args) := by
        rw [offered?, hash, Option.bind_some, hbase, Option.bind_some]
      have hknown := find?_addInherited base t known a
      obtain ⟨hsome, hnone⟩ := ih hrest
      rw [hknown] at hsome hnone
      -- Only the base that is the ancestor itself, with arguments, replaces an entry.
      by_cases hown : base.hash = a ∧ t.args ≠ []
      · rw [if_pos hown] at hoffer hsome hnone
        refine ⟨fun args hargs => .inr ?_, fun hrecord => ?_⟩
        · rcases hsome args hargs with heq | ⟨t', ht', hoffer'⟩
          · exact ⟨t, List.mem_cons_self .., hoffer.trans heq⟩
          · exact ⟨t', List.mem_cons_of_mem _ ht', hoffer'⟩
        · cases (hnone hrecord).1
      · rw [if_neg hown] at hoffer hsome hnone
        refine ⟨fun args hargs => ?_, fun hrecord => ?_⟩
        · rcases hsome args hargs with heq | ⟨t', ht', hoffer'⟩
          · rcases Option.or_eq_some_iff.mp heq with hknown | ⟨_, hin⟩
            · exact .inl hknown
            · exact .inr ⟨t, List.mem_cons_self .., hoffer.trans hin⟩
          · exact .inr ⟨t', List.mem_cons_of_mem _ ht', hoffer'⟩
        · obtain ⟨hor, hrest⟩ := hnone hrecord
          obtain ⟨hknown, hin⟩ := Option.or_eq_none_iff.mp hor
          exact ⟨hknown, List.forall_mem_cons.mpr ⟨hoffer.trans hin, hrest⟩⟩

/-- What is recorded stays unless the class is written again as a base. -/
theorem inheritedArgs_keeps {a : TypeHash} {args : List Ty} {ts : List Ty} :
    ∀ {known record : Table TypeHash (List Ty)}, (∀ t ∈ ts, t.classHash? ≠ some a) →
      (∀ h c, r.class? h = some c → c.hash = h) → known.find? a = some args →
      inheritedArgs r ts known = .ok record → record.find? a = some args := by
  induction ts with
  | nil =>
    intro known record _ _ hknown h
    injection h with h
    exact h ▸ hknown
  | cons t ts ih =>
    intro known record hnot hhash hknown h
    obtain ⟨ht, hnot⟩ := List.forall_mem_cons.mp hnot
    unfold inheritedArgs at h
    split at h
    · exact ih hnot hhash hknown h
    · rename_i b hb
      simp only [except_bind_eq_ok, Registry.getClass_eq_ok] at h
      obtain ⟨base, hbase, hrest⟩ := h
      refine ih hnot hhash ?_ hrest
      have hne : ¬(base.hash = a ∧ t.args ≠ []) := by
        rintro ⟨heq, _⟩
        rw [hhash b base hbase] at heq
        exact ht (heq ▸ hb)
      rw [find?_addInherited, if_neg hne, hknown, Option.some_or]

/-- A base that is written with arguments is recorded as written. -/
theorem inheritedArgs_written {t : Ty} {b : TypeHash} {ts : List Ty} :
    ∀ {known record : Table TypeHash (List Ty)}, (ts.filterMap (·.classHash?)).Nodup →
      (∀ h c, r.class? h = some c → c.hash = h) → t ∈ ts → t.classHash? = some b →
      t.args ≠ [] → inheritedArgs r ts known = .ok record →
      record.find? b = some t.args := by
  induction ts with
  | nil =>
    intro known record _ _ ht
    exact absurd ht List.not_mem_nil
  | cons u ts ih =>
    intro known record hnodup hhash ht hb hargs h
    unfold inheritedArgs at h
    cases hu : u.classHash? with
    | none =>
      rw [hu] at h
      rw [List.filterMap_cons_none hu] at hnodup
      rcases List.mem_cons.mp ht with rfl | ht
      · rw [hu] at hb
        cases hb
      · exact ih hnodup hhash ht hb hargs h
    | some k =>
      rw [hu] at h
      rw [List.filterMap_cons_some hu] at hnodup
      obtain ⟨hnot, hnodup⟩ := List.nodup_cons.mp hnodup
      simp only [except_bind_eq_ok, Registry.getClass_eq_ok] at h
      obtain ⟨base, hbase, hrest⟩ := h
      rcases List.mem_cons.mp ht with rfl | ht
      · rw [hu] at hb
        injection hb with hb
        subst hb
        -- No later base is of the same class, so the entry stays.
        refine inheritedArgs_keeps ?_ hhash ?_ hrest
        · intro t' ht' heq
          exact hnot (List.mem_filterMap.mpr ⟨t', ht', heq⟩)
        · rw [find?_addInherited, if_pos ⟨hhash k base hbase, hargs⟩, Option.some_or]
      · exact ih hnodup hhash ht hb hargs hrest

/-! ## The records of an accepted program -/

/-- Every class has recorded what its bases say. -/
def Records (r : Registry) : Prop :=
  ∀ h c, r.class? h = some c → inheritedArgs r c.bases .empty = .ok c.inherited

/-- What is recorded depends on nothing but what the bases add to the record. -/
theorem inheritedArgs_congr_of {β : Type} {π : Class → β}
    (hπ : ∀ k k', π k' = π k → addInherited k' = addInherited k) {r' : Registry} {ts : List Ty} :
    ∀ {known : Table TypeHash (List Ty)},
      (∀ t ∈ ts, ∀ b, t.classHash? = some b → (r'.class? b).map π = (r.class? b).map π) →
      inheritedArgs r' ts known = inheritedArgs r ts known := by
  induction ts with
  | nil => exact fun _ => rfl
  | cons t ts ih =>
    intro known hsame
    obtain ⟨ht, hts⟩ := List.forall_mem_cons.mp hsame
    unfold inheritedArgs
    split
    · exact ih hts
    · rename_i b hb
      have hclass := ht b hb
      unfold Registry.getClass
      cases h : r.class? b with
      | none =>
        rw [h, Option.map_none, Option.map_eq_none_iff] at hclass
        rw [hclass]
        rfl
      | some base =>
        rw [h, Option.map_some, Option.map_eq_some_iff] at hclass
        obtain ⟨base', h', heq⟩ := hclass
        rw [h']
        show inheritedArgs r' ts (addInherited base' t known) = _
        rw [hπ base base' heq]
        exact ih hts

/-- What is recorded depends on nothing but the headers of the bases. -/
theorem inheritedArgs_congr {r' : Registry} {ts : List Ty} {known : Table TypeHash (List Ty)}
    (h : ∀ t ∈ ts, ∀ b, t.classHash? = some b →
      (r'.class? b).map header = (r.class? b).map header) :
    inheritedArgs r' ts known = inheritedArgs r ts known := by
  refine inheritedArgs_congr_of (π := header) (fun k k' heq => ?_) h
  exact (congrArg addInherited heq :)

theorem Records.congr (h : Records r) {r' : Registry} (hsame : SameHeaders r r') :
    Records r' := by
  intro k c' hc'
  obtain ⟨c, hc, heq⟩ := hsame.symm.exists_class hc'
  have hbases := congrArg Class.bases heq
  have hinherited := congrArg Class.inherited heq
  dsimp only [header] at hbases hinherited
  rw [← hbases, ← hinherited, ← h k c hc]
  exact inheritedArgs_congr fun _ _ b _ => hsame b

/-- Classes are gone through in the order of ancestry, so the bases of a class have their records
when its own is made. -/
theorem inheritAll_records {ps ordered : List PendingClass} {c c' : Compilation} {u : Unit}
    (hh : Dispatch.Headed c'.registry ps ordered)
    (h : Yields (ordered.forM inheritArgs) c u c') : Records c'.registry := by
  intro k d hk
  rcases hh.declared.known k d hk with rfl | ⟨p, hp, rfl⟩
  · have hroot := hh.declared.rootClass
    rw [hk] at hroot
    injection hroot with hroot
    rw [hroot]
    rfl
  · obtain ⟨before, after, hsplit⟩ := List.append_of_mem (hh.perm.mem_iff.mpr hp)
    have hnodup : ((before ++ p :: after).map (·.hash)).Nodup := by
      rw [← hsplit]
      exact (hh.perm.map (·.hash)).nodup_iff.mpr (List.nodup_cons.mp hh.declared.distinct).2
    have hsorted := hh.sorted
    rw [hsplit] at h hsorted
    rw [yields_forM_append] at h
    obtain ⟨_, c₁, _, h⟩ := h
    rw [yields_forM_cons] at h
    obtain ⟨_, c₂, hstep, hafter⟩ := h
    have hchanges := inheritAll_changes hafter
    obtain ⟨d₁, args, hd₁, hargs, hset⟩ := inheritArgs_effect hstep
    -- The class itself is not touched any more.
    rw [List.map_append, List.map_cons] at hnodup
    have hlast : ¬Pending after p.hash := by
      rintro ⟨q, hq, heq⟩
      have hnot := (List.nodup_cons.mp (List.nodup_append.mp hnodup).2.1).1
      exact hnot (heq ▸ List.mem_map_of_mem hq)
    rw [hchanges.outside _ hlast, hset, Registry.class?_modifyClass, if_pos rfl, hd₁] at hk
    injection hk with hk
    have hd : c'.registry.class? p.hash = some d := by
      rw [hchanges.outside _ hlast, hset, Registry.class?_modifyClass, if_pos rfl, hd₁, ← hk]
      rfl
    subst hk
    rw [← hargs]
    refine inheritedArgs_congr ?_
    intro t ht b hb
    have hbase : b ∈ baseHashes { d₁ with inherited := args } :=
      List.mem_filterMap.mpr ⟨t, ht, hb⟩
    obtain ⟨kb, hkb⟩ := hh.hierarchy.bases hd b hbase
    have hlt := hh.hierarchy.length_mro_lt hd hbase hkb
    -- Neither are its bases, whose linearizations are shorter.
    have hbafter : ¬Pending after b := by
      rintro ⟨q, hq, rfl⟩
      have hle := (List.pairwise_cons.mp (List.pairwise_append.mp hsorted).2.1).1 q hq _ _ hd hkb
      omega
    have hself : b ≠ p.hash := by
      rintro rfl
      rw [hd] at hkb
      injection hkb with hkb
      rw [hkb] at hlt
      exact Nat.lt_irrefl _ hlt
    rw [hchanges.outside b hbafter, hset, Registry.class?_modifyClass, if_neg hself]

/-- The headers of the classes are complete when half of the registration is done. -/
theorem sameHeaders_of_steps {p : Program} {ps ordered : List PendingClass}
    {methods : List (TypeHash × OwnMethod)} {c c₁ c₂ c₃ c₄ c₅ c' : Compilation}
    (h : Dispatch.Steps p ps ordered methods c c₁ c₂ c₃ c₄ c₅ c') :
    SameHeaders c₁.registry c'.registry :=
  have hlaid := (layOutAll_changes h.layout).coarsen header (φ := header) fun _ => rfl
  SameHeaders.trans hlaid.shown h.sameLayouts.headers

theorem records_of_accepted? {o : Options} {p : Program} (h : accepted? o p = some r) :
    Records r := by
  obtain ⟨_, _, _, _, _, _, _, _, _, _, hstart, hsteps, rfl⟩ := Dispatch.steps_of_accepted? h
  have hh := Dispatch.runHeaders_headed (Dispatch.declared_start hstart) hsteps.headers
  obtain ⟨_, _, _, _, hheaders⟩ := Dispatch.yields_runHeaders hsteps.headers
  exact (inheritAll_records hh hheaders.inherited).congr (sameHeaders_of_steps hsteps)

theorem runHeaders_bases {p : Program} {c c' : Compilation} {ps ordered : List PendingClass}
    (hc : Declared c.registry []) (h : Yields (Dispatch.runHeaders p) c (ps, ordered) c') :
    ∀ k d, c'.registry.class? k = some d →
      (∀ t ∈ d.bases, t.isClass = true) ∧ (k = Class.rootHash ∨ d.bases ≠ []) := by
  obtain ⟨c₁, c₂, c₃, c₄, hsteps⟩ := Dispatch.yields_runHeaders h
  have hchanges := hsteps.changes hc
  intro k d hk
  obtain ⟨d₂, hd₂, heq⟩ := (hchanges.kept Class.bases (fun _ => rfl) fun _ => rfl).exists_class_before hk
  rw [← heq]
  exact resolveHeaders_bases hchanges.declared hsteps.resolved hd₂

/-- The bases of the classes of an accepted program are class types. -/
theorem bases_of_accepted? {o : Options} {p : Program} (h : accepted? o p = some r)
    {k : TypeHash} {d : Class} (hk : r.class? k = some d) : ∀ t ∈ d.bases, t.isClass = true := by
  obtain ⟨_, _, _, _, _, _, _, _, _, _, hstart, hsteps, rfl⟩ := Dispatch.steps_of_accepted? h
  obtain ⟨d₁, hd₁, heq⟩ := (sameHeaders_of_steps hsteps).symm.exists_class hk
  have hbases := congrArg Class.bases heq
  dsimp only [header] at hbases
  rw [← hbases]
  exact (runHeaders_bases (Dispatch.declared_start hstart) hsteps.headers k d₁ hd₁).1

/-! ## What a class and its bases say -/

section Records

variable {d a : TypeHash} {D : Class}

/-- A class records only proper ancestors. -/
theorem Hierarchy.recorded_mem_mro (hr : Hierarchy r) (hrec : Records r)
    (hD : r.class? d = some D) :
    ∀ args, D.inherited.find? a = some args → a ∈ D.mro ∧ a ≠ d := by
  refine hr.induction (P := fun d D => ∀ args, D.inherited.find? a = some args →
    a ∈ D.mro ∧ a ≠ d) ?_ hD
  intro d D hD ih args h
  rcases (inheritedArgs_find? (hrec d D hD)).1 args h with h | ⟨t, ht, hoffer⟩
  · cases h
  · unfold offered? at hoffer
    obtain ⟨B, hB, hoffer⟩ := Option.bind_eq_some_iff.mp hoffer
    obtain ⟨b, hb, hB⟩ := Option.bind_eq_some_iff.mp hB
    have hbase : b ∈ baseHashes D := List.mem_filterMap.mpr ⟨t, ht, hb⟩
    have haB : a ∈ B.mro := by
      split at hoffer
      · rename_i hown
        rw [← hown.1, hr.hash_eq hB]
        exact hr.self_mem_mro hB
      · obtain ⟨terms, hterms, _⟩ := Option.map_eq_some_iff.mp hoffer
        exact (ih b hbase B hB terms hterms).1
    exact ⟨(hr.mem_mro_iff hD).mpr (.inr ⟨b, hbase, B, hB, haB⟩),
      hr.ne_of_mem_base hD hbase hB haB⟩

/-- What a base says about an ancestor is how the base sees it. -/
theorem argsThrough_eq (hr : Hierarchy r) (hrec : Records r) {t : Ty}
    (ht : ∀ b, t.classHash? = some b → ∃ B, r.class? b = some B) :
    r.argsThrough t a = (offered? r t a).getD [] := by
  cases hb : t.classHash? with
  | none =>
    rw [Registry.argsThrough, offered?, hb, Option.bind_none, Option.bind_none,
      Option.bind_none]
  | some b =>
    obtain ⟨B, hB⟩ := ht b hb
    have hhash := hr.hash_eq hB
    rw [Registry.argsThrough, offered?, hb, Option.bind_some, hB, Option.bind_some,
      Option.bind_some, hhash]
    by_cases hba : b = a
    · subst hba
      rw [Class.argsSeenAs?, if_pos hb, Option.getD_some]
      by_cases hargs : t.args = []
      · rw [if_neg fun h => h.2 hargs, hargs]
        cases hfind : B.inherited.find? b with
        | none => rfl
        | some terms => exact absurd rfl (hr.recorded_mem_mro hrec hB _ hfind).2
      · rw [if_pos ⟨rfl, hargs⟩, Option.getD_some]
    · have hne : t.classHash? ≠ some a := by
        rw [hb]
        exact fun h => hba (Option.some.inj h)
      rw [Class.argsSeenAs?, if_neg hne, if_neg fun h => hba h.1]

/-- The class of a base that says something about an ancestor has the ancestor. -/
theorem reaches_of_offered? (hr : Hierarchy r) (hrec : Records r) {t : Ty} {args : List Ty}
    (h : offered? r t a = some args) : r.Reaches t a := by
  unfold offered? at h
  obtain ⟨B, hB, h⟩ := Option.bind_eq_some_iff.mp h
  obtain ⟨b, hb, hB⟩ := Option.bind_eq_some_iff.mp hB
  refine ⟨b, B, hb, hB, ?_⟩
  split at h
  · rename_i hown
    rw [← hown.1, hr.hash_eq hB]
    exact hr.self_mem_mro hB
  · obtain ⟨terms, hterms, _⟩ := Option.map_eq_some_iff.mp h
    exact (hr.recorded_mem_mro hrec hB terms hterms).1

/-- The record of a class is what all its bases say if they say the same. -/
theorem recordedArgs_eq_iff (hr : Hierarchy r) (hrec : Records r) (hD : r.class? d = some D) :
    (∀ t ∈ D.bases, r.Reaches t a → D.recordedArgs a = r.argsThrough t a) ↔
      ∀ t ∈ D.bases, ∀ t' ∈ D.bases, r.Reaches t a → r.Reaches t' a →
        r.argsThrough t a = r.argsThrough t' a := by
  constructor
  · intro h t ht t' ht' hreach hreach'
    exact (h t ht hreach).symm.trans (h t' ht' hreach')
  · intro hagree t ht hreach
    have hbases : ∀ t ∈ D.bases, ∀ b, t.classHash? = some b → ∃ B, r.class? b = some B :=
      fun t ht b hb => hr.bases hD b (List.mem_filterMap.mpr ⟨t, ht, hb⟩)
    obtain ⟨hsome, hnone⟩ := inheritedArgs_find? (a := a) (hrec d D hD)
    unfold Class.recordedArgs
    cases hfind : D.inherited.find? a with
    | some args =>
      -- Some base has said this, and the others say the same.
      rcases hsome args hfind with h | ⟨t', ht', hoffer⟩
      · cases h
      · have hreach' := reaches_of_offered? hr hrec hoffer
        rw [hagree t ht t' ht' hreach hreach', argsThrough_eq hr hrec (hbases t' ht'), hoffer]
    | none => rw [argsThrough_eq hr hrec (hbases t ht), (hnone hfind).2 t ht]

/-- An instance of a generic class is reached from a type that sees its class with these
arguments. -/
theorem upcast_applied_iff {s : Ty} (hs : s.classHash? = some d) (hD : r.class? d = some D)
    {args : List Ty} (hargs : args ≠ []) :
    (r.upcastDistance? s (.applied a args)).isSome = true ↔
      a ∈ D.mro ∧ D.argsSeenAs? s a = some args := by
  have hunfold : r.upcastDistance? s (.applied a args) =
      (D.mro.findIdx? (· = a)).bind fun n => (D.argsSeenAs? s a).bind fun seen =>
        if seen = args then some n else none := by
    simp only [Registry.upcastDistance?, hs, hD, Option.bind_eq_bind, Option.bind_some,
      show (Ty.applied a args).classHash? = some a from rfl,
      show (Ty.applied a args).args = args from rfl, if_neg hargs]
    rfl
  rw [hunfold]
  -- Distance and arguments are looked up apart: both must be there.
  by_cases ha : a ∈ D.mro
  · cases hseen : D.argsSeenAs? s a with
    | none => simp
    | some seen =>
      obtain ⟨n, hn⟩ : ∃ n, D.mro.findIdx? (fun x => decide (x = a)) = some n := by
        rw [← Option.isSome_iff_exists, List.findIdx?_isSome]
        simpa using ha
      by_cases heq : seen = args
      · simp [hn, heq, ha]
      · simp [hn, heq]
  · have hnone : D.mro.findIdx? (fun x => decide (x = a)) = none := by
      rw [List.findIdx?_eq_none_iff]
      intro x hx
      have hne : x ≠ a := by
        rintro rfl
        exact ha hx
      simpa using hne
    rw [hnone]
    simp [ha]

/-- A class and a base agree about an ancestor if and only if the same instances of it are
reached directly and by way of the base. -/
theorem recordedArgs_eq_iff_upcast (hr : Hierarchy r)
    (hD : r.class? d = some D) {t : Ty} (ht : t ∈ D.bases) (hreach : r.Reaches t a) :
    D.recordedArgs a = r.argsThrough t a ↔
      ∀ args, args ≠ [] → ((r.upcastDistance? (.classRef d) (.applied a args)).isSome = true ↔
        (r.upcastDistance? t (.applied a args)).isSome = true) := by
  obtain ⟨b, B, hb, hB, ha⟩ := hreach
  have hbase : b ∈ baseHashes D := List.mem_filterMap.mpr ⟨t, ht, hb⟩
  have haD : a ∈ D.mro := (hr.mem_mro_iff hD).mpr (.inr ⟨b, hbase, B, hB, ha⟩)
  have hne := hr.ne_of_mem_base hD hbase hB ha
  have hdirect : D.argsSeenAs? (.classRef d) a = D.inherited.find? a := by
    rw [Class.argsSeenAs?, if_neg (by simpa [Ty.classHash?] using hne.symm)]
    show (D.inherited.find? a).map (Ty.substituteAll D.templateNames []) = _
    rw [show Ty.substituteAll D.templateNames [] = id from
      funext (Ty.substituteAll_nil D.templateNames), Option.map_id, id]
  have hthrough : r.argsThrough t a = (B.argsSeenAs? t a).getD [] := by
    rw [Registry.argsThrough, hb, Option.bind_some, hB, Option.bind_some]
  -- In terms of records: `D` itself for the one side, `B` as `t` sees it for the other.
  have hupcast : ∀ args, args ≠ [] →
      (((r.upcastDistance? (.classRef d) (.applied a args)).isSome = true ↔
        (r.upcastDistance? t (.applied a args)).isSome = true) ↔
      (D.inherited.find? a = some args ↔ B.argsSeenAs? t a = some args)) := by
    intro args hargs
    rw [upcast_applied_iff rfl hD hargs, upcast_applied_iff hb hB hargs, hdirect]
    simp [haD, ha]
  rw [hthrough, Class.recordedArgs]
  constructor
  · intro heq args hargs
    rw [hupcast args hargs]
    cases hx : D.inherited.find? a <;> cases hy : B.argsSeenAs? t a <;>
      rw [hx, hy] at heq <;> simp_all
  · intro hall
    have hsame : ∀ args, args ≠ [] →
        (D.inherited.find? a = some args ↔ B.argsSeenAs? t a = some args) :=
      fun args hargs => (hupcast args hargs).mp (hall args hargs)
    -- An empty list of arguments is the same as none, and no instance has it.
    by_cases hx : (D.inherited.find? a).getD [] = []
    · by_cases hy : (B.argsSeenAs? t a).getD [] = []
      · rw [hx, hy]
      · cases hseen : B.argsSeenAs? t a with
        | none =>
          rw [hseen] at hy
          exact absurd rfl hy
        | some args =>
          rw [hseen] at hy
          rw [(hsame args hy).mpr hseen]
    · cases hfind : D.inherited.find? a with
      | none =>
        rw [hfind] at hx
        exact absurd rfl hx
      | some args =>
        rw [hfind] at hx
        rw [(hsame args hx).mp hfind]

/-! ## Instances of a generic class -/

/-- What the class of a base has recorded about an ancestor mentions only parameters for which
the base has arguments. -/
def Binds (r : Registry) (t : Ty) (a : TypeHash) : Prop :=
  ∀ b B terms, t.classHash? = some b → r.class? b = some B → B.inherited.find? a = some terms →
    Ty.allBoundBy B.templateNames t.args terms = true

/-- Where a class and a base agree about an ancestor, so do their instances. -/
theorem upcast_instance_iff (hr : Hierarchy r) (hD : r.class? d = some D) {t : Ty}
    (ht : t ∈ D.bases) (hclass : t.isClass = true) (hreach : r.Reaches t a)
    (hagree : D.recordedArgs a = r.argsThrough t a) (hbinds : Binds r t a) {s : Ty}
    (hs : s.classHash? = some d) {args : List Ty} (hargs : args ≠ []) :
    (r.upcastDistance? s (.applied a args)).isSome = true ↔
      (r.upcastDistance? (t.substitute D.templateNames s.args) (.applied a args)).isSome =
        true := by
  obtain ⟨b, B, hb, hB, ha⟩ := hreach
  have hbase : b ∈ baseHashes D := List.mem_filterMap.mpr ⟨t, ht, hb⟩
  have haD : a ∈ D.mro := (hr.mem_mro_iff hD).mpr (.inr ⟨b, hbase, B, hB, ha⟩)
  have hne : s.classHash? ≠ some a := by
    rw [hs]
    exact fun h => hr.ne_of_mem_base hD hbase hB ha (Option.some.inj h).symm
  -- An instance of a base has the class of the base, and its arguments are instances.
  have hinst : (t.substitute D.templateNames s.args).classHash? = some b ∧
      (t.substitute D.templateNames s.args).args =
        Ty.substituteAll D.templateNames s.args t.args := by
    cases t with
    | classRef h => exact ⟨hb, rfl⟩
    | applied h as => exact ⟨hb, rfl⟩
    | _ => cases hclass
  rw [upcast_applied_iff hs hD hargs, upcast_applied_iff hinst.1 hB hargs]
  refine and_congr (iff_of_true haD ha) ?_
  have hthrough : r.argsThrough t a = (B.argsSeenAs? t a).getD [] := by
    rw [Registry.argsThrough, hb, Option.bind_some, hB, Option.bind_some]
  rw [Class.recordedArgs, hthrough] at hagree
  -- Both sides see the arguments that are agreed on, with the parameters replaced.
  have hleft : D.argsSeenAs? s a = some args ↔
      Ty.substituteAll D.templateNames s.args ((D.inherited.find? a).getD []) = args := by
    rw [Class.argsSeenAs?, if_neg hne]
    cases D.inherited.find? a with
    | none => simpa using fun h => hargs h.symm
    | some terms => simp
  have hright : B.argsSeenAs? (t.substitute D.templateNames s.args) a = some args ↔
      Ty.substituteAll D.templateNames s.args ((B.argsSeenAs? t a).getD []) = args := by
    by_cases hba : b = a
    · subst hba
      rw [Class.argsSeenAs?, if_pos hinst.1, Class.argsSeenAs?, if_pos hb, hinst.2]
      simp
    · have hnot : ∀ u : Ty, u.classHash? = some b → u.classHash? ≠ some a := by
        intro u hu heq
        rw [hu] at heq
        exact hba (Option.some.inj heq)
      rw [Class.argsSeenAs?, if_neg (hnot _ hinst.1), Class.argsSeenAs?, if_neg (hnot _ hb),
        hinst.2]
      cases hfind : B.inherited.find? a with
      | none => simpa using fun h => hargs h.symm
      | some terms =>
        simp [Ty.substituteAll_substituteAll (hbinds b B terms hb hB hfind)]
  rw [hleft, hright, hagree]

end Records

/-- In a program that registration accepts, a class has recorded about an ancestor what all its
bases say if and only if they all say the same. A base written with arguments is always recorded
as written. A class and a base agree if and only if the same instances of the ancestor are reached
directly and by way of the base; if they do, that also holds of their own instances, as far as
the arguments of the base bind the parameters in the record of its class. -/
theorem recorded_args_agree_iff {o : Options} {p : Program} {r : Registry}
    (h : accepted? o p = some r) {d : TypeHash} {D : Class} (hD : r.class? d = some D)
    (a : TypeHash) :
    ((∀ t ∈ D.bases, r.Reaches t a → D.recordedArgs a = r.argsThrough t a) ↔
      ∀ t ∈ D.bases, ∀ t' ∈ D.bases, r.Reaches t a → r.Reaches t' a →
        r.argsThrough t a = r.argsThrough t' a) ∧
    ∀ t ∈ D.bases, r.Reaches t a →
      (t.classHash? = some a → t.args ≠ [] → D.recordedArgs a = t.args) ∧
      (D.recordedArgs a = r.argsThrough t a ↔ ∀ args, args ≠ [] →
        ((r.upcastDistance? (.classRef d) (.applied a args)).isSome = true ↔
          (r.upcastDistance? t (.applied a args)).isSome = true)) ∧
      (D.recordedArgs a = r.argsThrough t a → Binds r t a → ∀ s : Ty, s.classHash? = some d →
        ∀ args, args ≠ [] → ((r.upcastDistance? s (.applied a args)).isSome = true ↔
          (r.upcastDistance? (t.substitute D.templateNames s.args)
            (.applied a args)).isSome = true)) := by
  have hr := (Dispatch.tables_of_accepted? h).hierarchy
  have hrec := records_of_accepted? h
  refine ⟨recordedArgs_eq_iff hr hrec hD, ?_⟩
  intro t ht hreach
  refine ⟨?_, recordedArgs_eq_iff_upcast hr hD ht hreach, ?_⟩
  · intro ha hargs
    have hwritten := inheritedArgs_written (hr.baseHashes_nodup hD) (fun _ _ hc => hr.hash_eq hc)
      ht ha hargs (hrec d D hD)
    rw [Class.recordedArgs, hwritten, Option.getD_some]
  · intro hagree hbinds s hs args hargs
    exact upcast_instance_iff hr hD ht (bases_of_accepted? h hD t ht) hreach hagree hbinds hs hargs

/-- A class of a sample program, with its template parameters and its bases, written with one
argument or none. -/
def sampleGeneric (name : String) (templates : List String)
    (bases : List (String × Option String)) : Item :=
  .classDecl ⟨⟨name, .unknown⟩, templates.map fun t => ⟨t, none⟩,
    bases.map fun b => .named b.1 (b.2.toList.map fun x => .named x [] .unknown) .unknown,
    [], [], false, .unknown⟩

/-- Two bases that instantiate a generic class with the given arguments, and a class below
both. -/
def genericDiamond (x y : String) : Program :=
  ⟨[⟨"m", [
    sampleGeneric "X" [] [],
    sampleGeneric "Y" [] [],
    sampleGeneric "G" ["T"] [],
    sampleGeneric "A" [] [("G", some x)],
    sampleGeneric "B" [] [("G", some y)],
    sampleGeneric "D" [] [("A", none), ("B", none)]]⟩]⟩

/-- What a class has recorded about an ancestor, and what those of its bases say that have it. -/
def views (r : Registry) (a : TypeHash) (D : Class) : List Ty × List (List Ty) :=
  (D.recordedArgs a, (D.bases.filter fun t =>
    (t.classHash?.bind r.class?).any fun B => B.mro.contains a).map (r.argsThrough · a))

theorem mem_views {a : TypeHash} {r : Registry} {D : Class} {args : List Ty} :
    args ∈ (views r a D).2 ↔ ∃ t ∈ D.bases, r.Reaches t a ∧ r.argsThrough t a = args := by
  have hreaches : ∀ t : Ty, (t.classHash?.bind r.class?).any (fun B => B.mro.contains a) = true ↔
      r.Reaches t a := by
    intro t
    rw [Option.any_eq_true]
    constructor
    · rintro ⟨B, hB, ha⟩
      obtain ⟨b, hb, hB⟩ := Option.bind_eq_some_iff.mp hB
      exact ⟨b, B, hb, hB, List.contains_iff_mem.mp ha⟩
    · rintro ⟨b, B, hb, hB, ha⟩
      exact ⟨B, Option.bind_eq_some_iff.mpr ⟨b, hb, hB⟩, List.contains_iff_mem.mpr ha⟩
  simp only [views, List.mem_map, List.mem_filter, hreaches, and_assoc]

set_option maxRecDepth 100000 in
theorem recorded_args_agree_diamond : ∃ r D,
    accepted? {} (genericDiamond "X" "X") = some r ∧
    r.class? (TypeHash.ofName "m$D") = some D ∧
    (∀ t ∈ D.bases, r.Reaches t (TypeHash.ofName "m$G") →
      D.recordedArgs (TypeHash.ofName "m$G") = r.argsThrough t (TypeHash.ofName "m$G")) ∧
    D.recordedArgs (TypeHash.ofName "m$G") = [.classRef (TypeHash.ofName "m$X")] := by
  have hrun : ((accepted? {} (genericDiamond "X" "X")).bind fun r =>
      (r.class? (TypeHash.ofName "m$D")).map (views r (TypeHash.ofName "m$G"))) =
        some ([.classRef (TypeHash.ofName "m$X")], [[.classRef (TypeHash.ofName "m$X")],
          [.classRef (TypeHash.ofName "m$X")]]) := by
    decide +kernel
  obtain ⟨r, hr, hrun⟩ := Option.bind_eq_some_iff.mp hrun
  obtain ⟨D, hD, hviews⟩ := Option.map_eq_some_iff.mp hrun
  refine ⟨r, D, hr, hD, (recorded_args_agree_iff hr hD _).1.mpr ?_, congrArg Prod.fst hviews⟩
  intro t ht t' ht' hreach hreach'
  have hsame : ∀ t ∈ D.bases, r.Reaches t (TypeHash.ofName "m$G") →
      r.argsThrough t (TypeHash.ofName "m$G") = [.classRef (TypeHash.ofName "m$X")] := by
    intro t ht hreach
    have hmem := mem_views.mpr ⟨t, ht, hreach, rfl⟩
    rw [hviews] at hmem
    simpa using hmem
  rw [hsame t ht hreach, hsame t' ht' hreach']

set_option maxRecDepth 100000 in
/-- A class may have recorded something else than one of its bases says. -/
theorem recorded_args_can_differ : ¬∀ (o : Options) (p : Program) (r : Registry) (d : TypeHash)
    (D : Class) (a : TypeHash), accepted? o p = some r → r.class? d = some D →
    ∀ t ∈ D.bases, r.Reaches t a → D.recordedArgs a = r.argsThrough t a := by
  intro hall
  have hrun : ((accepted? {} (genericDiamond "X" "Y")).bind fun r =>
      (r.class? (TypeHash.ofName "m$D")).map (views r (TypeHash.ofName "m$G"))) =
        some ([.classRef (TypeHash.ofName "m$X")], [[.classRef (TypeHash.ofName "m$X")],
          [.classRef (TypeHash.ofName "m$Y")]]) := by
    decide +kernel
  obtain ⟨r, hr, hrun⟩ := Option.bind_eq_some_iff.mp hrun
  obtain ⟨D, hD, hviews⟩ := Option.map_eq_some_iff.mp hrun
  have hmem : [.classRef (TypeHash.ofName "m$Y")] ∈ (views r (TypeHash.ofName "m$G") D).2 := by
    rw [hviews]
    simp
  obtain ⟨t, ht, hreach, hargs⟩ := mem_views.mp hmem
  have hsame := hall {} _ r _ D _ hr hD t ht hreach
  have hrecorded := congrArg Prod.fst hviews
  rw [hargs] at hsame
  have hXY : [Ty.classRef (TypeHash.ofName "m$X")] = [.classRef (TypeHash.ofName "m$Y")] :=
    hrecorded.symm.trans hsame
  revert hXY
  decide +kernel

end Registration

end ClassLang
