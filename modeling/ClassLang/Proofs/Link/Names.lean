import ClassLang.Proofs.Registration.Complete

/-!
# Linkable names

The name before overloads are told apart can be read back: it ends with the last `$` and what
follows, and a `.` in there separates a class from its method. A suffix starts with `~`. So
functions with the same linkable name have the same owner and the same name, and since their
suffixes are hashes of how their parameters are spelled, they are the same function unless hashes of
different parameter lists collide.
-/

namespace ClassLang

/-! ## Reading texts back -/

/-- A text is split at the last occurrence of a character. -/
theorem append_cons_inj_of_last {α : Type} {c : α} {xs xs' ys ys' : List α} (hys : c ∉ ys)
    (hys' : c ∉ ys') (h : xs ++ c :: ys = xs' ++ c :: ys') : xs = xs' ∧ ys = ys' := by
  induction xs generalizing xs' with
  | nil =>
    cases xs' with
    | nil => exact ⟨rfl, (List.cons.inj h).2⟩
    | cons a xs' =>
      obtain ⟨_, rfl⟩ := List.cons.inj h
      exact absurd (List.mem_append_right xs' List.mem_cons_self) hys
  | cons a xs ih =>
    cases xs' with
    | nil =>
      obtain ⟨_, rfl⟩ := List.cons.inj h
      exact absurd (List.mem_append_right xs List.mem_cons_self) hys'
    | cons a' xs' =>
      injection h with ha h
      obtain ⟨rfl, rfl⟩ := ih h
      exact ⟨congrArg (· :: xs) ha, rfl⟩

/-- A text is split at the first occurrence of a character. -/
theorem append_cons_inj_of_first {α : Type} {c : α} {xs xs' ys ys' : List α} (hxs : c ∉ xs)
    (hxs' : c ∉ xs') (h : xs ++ c :: ys = xs' ++ c :: ys') : xs = xs' ∧ ys = ys' := by
  have hreverse := congrArg List.reverse h
  simp only [List.reverse_append, List.reverse_cons, List.append_assoc, List.singleton_append]
    at hreverse
  obtain ⟨hys, hxs⟩ := append_cons_inj_of_last (fun hc => hxs (List.mem_reverse.mp hc))
    (fun hc => hxs' (List.mem_reverse.mp hc)) hreverse
  exact ⟨List.reverse_inj.mp hxs, List.reverse_inj.mp hys⟩

theorem IsIdentifier.not_mem {s : String} (hs : IsIdentifier s) {c : Char} (hc : c ∈ reserved) :
    c ∉ s.toList := fun hmem => hs.2 c hmem hc

/-- Hexadecimal digits are not reserved. -/
theorem hex_plain (width n : Nat) : ∀ c ∈ (Bytes.hex width n).toList, c ∉ reserved := by
  have hdigit : ∀ n < 16, Nat.digitChar n ∉ reserved := by decide
  have hgo : ∀ (width n : Nat) (acc : List Char), (∀ c ∈ acc, c ∉ reserved) →
      ∀ c ∈ Bytes.hex.go width n acc, c ∉ reserved := by
    intro width
    induction width with
    | zero => exact fun _ _ hacc => hacc
    | succ width ih =>
      intro n acc hacc
      exact ih _ _ (List.forall_mem_cons.mpr ⟨hdigit _ (Nat.mod_lt _ (by decide)), hacc⟩)
  rw [Bytes.hex, String.toList_ofList]
  exact hgo width n [] (List.forall_mem_nil _)

namespace LinkName

open CompileM Dispatch Registration

variable {p : Program} {r : Registry} {id id' : Nat} {s s' : Signature} {b b' : String}

/-! ## Names before overloads are told apart -/

/-- What follows the last `$` in the name of a function before overloads are told apart. -/
def stem (r : Registry) (s : Signature) : List Char :=
  match s.owner with
  | .module _ => s.name.toList
  | .classOf h => (r.className h).toList ++ '.' :: s.name.toList

/-- The path in the name of a function. -/
def path (r : Registry) (s : Signature) : String :=
  match s.owner with
  | .module path => path
  | .classOf h => ((r.class? h).map (·.path)).getD ""

theorem stem_module {q : String} (h : s.owner = .module q) : stem r s = s.name.toList := by
  rw [stem, h]

theorem stem_classOf {h : TypeHash} {k : Class} (howner : s.owner = .classOf h)
    (hk : r.class? h = some k) : stem r s = k.name.toList ++ '.' :: s.name.toList := by
  rw [stem, howner]
  exact congrArg (fun n : String => n.toList ++ '.' :: s.name.toList) (Registry.className_eq hk)

theorem path_module {q : String} (h : s.owner = .module q) : path r s = q := by
  rw [path, h]

theorem path_classOf {h : TypeHash} {k : Class} (howner : s.owner = .classOf h)
    (hk : r.class? h = some k) : path r s = k.path := by
  rw [path, howner]
  exact congrArg (fun o : Option Class => (o.map (·.path)).getD "") hk

theorem toList_base (hb : base r s = .ok b) : b.toList = (path r s).toList ++ '$' :: stem r s := by
  unfold base at hb
  split at hb
  · rename_i q howner
    injection hb with hb
    rw [path_module howner, stem_module howner, ← hb]
    simp [function]
  · rename_i h howner
    simp only [except_bind_eq_ok, Registry.getClass_eq_ok, except_pure_eq_ok] at hb
    obtain ⟨k, hk, rfl⟩ := hb
    rw [path_classOf howner hk, stem_classOf howner hk]
    simp [method]

theorem stem_plain (hs : Registered p r id s) (hnames : ∀ n ∈ p.names, IsIdentifier n) {c : Char}
    (hc : c ∈ reserved) (hdot : c ≠ '.') : c ∉ stem r s := by
  have hname := (hnames _ hs.name).not_mem hc
  cases howner : s.owner with
  | module q =>
    rw [stem_module howner]
    exact hname
  | classOf h =>
    obtain ⟨d, hd, k, hk, hkname⟩ := hs.owner h howner
    obtain ⟨m, hm, hitem⟩ := Program.mem_classes.mp hd
    have hclass := (hnames _ (Program.mem_names hm hitem List.mem_cons_self)).not_mem hc
    rw [stem_classOf howner hk, hkname, List.mem_append, List.mem_cons]
    rintro (hmem | rfl | hmem)
    · exact hclass hmem
    · exact hdot rfl
    · exact hname hmem

/-- The name of a function before overloads are told apart determines its owner and its name. -/
theorem base_inj (hs : Registered p r id s) (hs' : Registered p r id' s')
    (hnames : ∀ n ∈ p.names, IsIdentifier n) (hhash : ∀ {h k}, r.class? h = some k → k.hash = h)
    (hb : base r s = .ok b) (hb' : base r s' = .ok b) : s.owner = s'.owner ∧ s.name = s'.name := by
  have hsame := (toList_base hb).symm.trans (toList_base hb')
  -- The last dollar ends the path: what stands behind it has none.
  obtain ⟨hpath, hstem⟩ := append_cons_inj_of_last
    (stem_plain hs hnames (c := '$') (by decide) (by decide))
    (stem_plain hs' hnames (c := '$') (by decide) (by decide)) hsame
  have hpath := String.toList_inj.mp hpath
  -- A dot tells methods from functions, since names have none.
  have hdot := (hnames _ hs.name).not_mem (c := '.') (by decide)
  have hdot' := (hnames _ hs'.name).not_mem (c := '.') (by decide)
  cases howner : s.owner with
  | module q =>
    rw [stem_module howner] at hstem
    cases howner' : s'.owner with
    | module q' =>
      rw [stem_module howner'] at hstem
      rw [path_module howner, path_module howner'] at hpath
      exact ⟨congrArg Owner.module hpath, String.toList_inj.mp hstem⟩
    | classOf h' =>
      obtain ⟨_, _, k', hk', _⟩ := hs'.owner h' howner'
      rw [hstem, stem_classOf howner' hk'] at hdot
      exact absurd (List.mem_append_right _ List.mem_cons_self) hdot
  | classOf h =>
    obtain ⟨_, _, k, hk, _⟩ := hs.owner h howner
    rw [stem_classOf howner hk] at hstem
    cases howner' : s'.owner with
    | module q' =>
      rw [← stem_module howner' (r := r), ← hstem] at hdot'
      exact absurd (List.mem_append_right _ List.mem_cons_self) hdot'
    | classOf h' =>
      obtain ⟨_, _, k', hk', _⟩ := hs'.owner h' howner'
      rw [stem_classOf howner' hk'] at hstem
      rw [path_classOf howner hk, path_classOf howner' hk'] at hpath
      obtain ⟨hclass, hname⟩ := append_cons_inj_of_last hdot hdot' hstem
      refine ⟨congrArg Owner.classOf ?_, String.toList_inj.mp hname⟩
      have hlink : k.mangled = k'.mangled :=
        congrArg₂ Class.linkName hpath (String.toList_inj.mp hclass)
      rw [← hhash hk, ← hhash hk']
      exact congrArg TypeHash.ofName hlink

/-! ## Names in the end -/

/-- Every function has its linkable name: the one from before, or that with a suffix, which it has
whenever there are other functions with the same one. -/
def Assigned (r : Registry) : Prop :=
  ∀ {id s}, r.function? id = some s → ∃ b, base r s = .ok b ∧
    (s.mangled = b ∧ (∀ id' s', r.function? id' = some s' → base r s' = .ok b → id' = id) ∨
      s.mangled = overloaded r b s.params)

theorem named_spec {ss : List Signature} : ∀ {named : List (Signature × String)},
    (ss.mapM fun s => do return (s, ← base r s)) = Except.ok named →
      named.map (·.1) = ss ∧ ∀ x ∈ named, base r x.1 = .ok x.2 := by
  induction ss with
  | nil =>
    intro named h
    rw [List.mapM_nil, except_pure_eq_ok] at h
    exact h ▸ ⟨rfl, List.forall_mem_nil _⟩
  | cons s ss ih =>
    intro named h
    simp only [List.mapM_cons, except_bind_eq_ok, except_pure_eq_ok] at h
    obtain ⟨_, ⟨b, hb, rfl⟩, rest, hrest, rfl⟩ := h
    obtain ⟨hmap, hall⟩ := ih hrest
    exact ⟨congrArg (s :: ·) hmap, List.forall_mem_cons.mpr ⟨hb, hall⟩⟩

/-- Give a function its linkable name. -/
def rename (r : Registry) (x : Nat × String) : Registry :=
  r.modifyFunction x.1 fun s => { s with mangled := x.2 }

theorem function?_rename (r : Registry) (x : Nat × String) (id : Nat) :
    (rename r x).function? id =
      if id = x.1 then (r.function? id).map fun s => { s with mangled := x.2 }
      else r.function? id := by
  unfold rename Registry.modifyFunction Registry.function?
  dsimp only
  rw [Array.getElem?_modify]
  split <;> split <;> first | rfl | omega

theorem function?_renameAll {names : List (Nat × String)} {n : String}
    (hnodup : (names.map (·.1)).Nodup) (hmem : (id, n) ∈ names) :
    ∀ {r : Registry}, (names.foldl rename r).function? id =
      (r.function? id).map fun s => { s with mangled := n } := by
  -- Names of other functions change nothing.
  have hother : ∀ {names : List (Nat × String)} {r : Registry}, id ∉ names.map (·.1) →
      (names.foldl rename r).function? id = r.function? id := by
    intro names
    induction names with
    | nil => exact fun _ => rfl
    | cons x names ih =>
      intro r hid
      rw [List.map_cons, List.mem_cons, not_or] at hid
      rw [List.foldl_cons, ih hid.2, function?_rename, if_neg hid.1]
  induction names with
  | nil => cases hmem
  | cons x names ih =>
    intro r
    obtain ⟨hfree, hnodup⟩ := List.nodup_cons.mp hnodup
    rcases List.mem_cons.mp hmem with rfl | hmem
    · rw [List.foldl_cons, hother hfree, function?_rename, if_pos rfl]
    · have hid : id ∈ names.map (·.1) := List.mem_map_of_mem hmem
      have hne : id ≠ x.1 := by
        rintro rfl
        exact hfree hid
      rw [List.foldl_cons, ih hnodup hmem, function?_rename, if_neg hne]

/-- Two entries with the same text count twice. -/
theorem two_le_count {named : List (Signature × String)} (hs : (s, b) ∈ named)
    (hs' : (s', b) ∈ named) (hne : s ≠ s') : 1 < (named.map (·.2)).count b := by
  have hpair : List.Subperm [(s, b), (s', b)] (named.filter (·.2 == b)) := by
    refine List.subperm_of_subset (by simp [hne]) ?_
    intro x hx
    rcases List.mem_pair.mp hx with rfl | rfl
    · exact List.mem_filter.mpr ⟨hs, by simp⟩
    · exact List.mem_filter.mpr ⟨hs', by simp⟩
  have hlength := hpair.length_le
  rw [← List.countP_eq_length_filter] at hlength
  rw [List.count_eq_countP, List.countP_map]
  exact hlength

/-- What a function is called before overloads are told apart does not change. -/
theorem base_congr {r' : Registry} (hclass : ∀ k, r'.class? k = r.class? k)
    (howner : s'.owner = s.owner) (hname : s'.name = s.name) : base r' s' = base r s := by
  unfold base
  rw [howner, hname]
  split
  · rfl
  · rw [getClass_congr (hclass _)]

/-- Functions have different numbers. -/
theorem nodup_ids (hids : ∀ {id s}, r.function? id = some s → s.id = id) :
    (r.functions.toList.map (·.id)).Nodup := by
  have hrange : r.functions.toList.map (·.id) = List.range r.functions.size := by
    refine List.ext_getElem (by simp) fun i h₁ h₂ => ?_
    rw [List.getElem_map, List.getElem_range, Array.getElem_toList]
    exact hids (Array.getElem?_eq_getElem _)
  exact hrange ▸ List.nodup_range

theorem assigned_of_assignAll {r r' : Registry}
    (hids : ∀ {id s}, r.function? id = some s → s.id = id) (h : assignAll r = .ok r') :
    Assigned r' := by
  obtain ⟨hclass, hsigs, _⟩ := assignAll_effect h
  simp only [assignAll, except_bind_eq_ok, except_pure_eq_ok] at h
  obtain ⟨named, hnamed, rfl⟩ := h
  obtain ⟨hfirst, hbase⟩ := named_spec hnamed
  have hmem : ∀ {id s}, r.function? id = some s → ∃ b, base r s = .ok b ∧ (s, b) ∈ named := by
    intro id s hs
    have hs : s ∈ r.functions.toList := Array.mem_toList_iff.mpr (Array.mem_of_getElem? hs)
    rw [← hfirst] at hs
    obtain ⟨⟨s, b⟩, hx, rfl⟩ := List.mem_map.mp hs
    exact ⟨b, hbase _ hx, hx⟩
  have hnodup : ((finalNames r named).map (·.1)).Nodup := by
    have hfinal : (finalNames r named).map (·.1) = (named.map (·.1)).map (·.id) := by
      simp [finalNames]
    rw [hfinal, hfirst]
    exact nodup_ids hids
  intro id s hs
  obtain ⟨s₀, hs₀, heq⟩ := hsigs.exists_before hs
  obtain ⟨b, hb, hin⟩ := hmem hs₀
  obtain ⟨howner, hname, hparams⟩ :
      s.owner = s₀.owner ∧ s.name = s₀.name ∧ s.params = s₀.params := by
    rw [heq]
    exact ⟨rfl, rfl, rfl⟩
  refine ⟨b, (base_congr hclass howner hname).trans hb, ?_⟩
  -- The name that the function got is its base, or its base with the parameters.
  have hfinal : (id, if 1 < (named.map (·.2)).count b then overloaded r b s₀.params else b) ∈
      finalNames r named := List.mem_map.mpr ⟨_, hin, by rw [← hids hs₀]⟩
  have hmangled : s.mangled =
      if 1 < (named.map (·.2)).count b then overloaded r b s₀.params else b := by
    have hrename := function?_renameAll hnodup hfinal (r := r)
    rw [hs₀] at hrename
    have hs : some s = _ := hs.symm.trans hrename
    injection hs with hs
    rw [hs]
  split at hmangled
  · refine .inr (hmangled.trans ?_)
    have hname := fun k =>
      congrArg (fun o : Option Class => (o.map (·.name)).getD k.describe) (hclass k)
    rw [overloaded, overloaded, Registry.typeNames_congr hname, hparams]
  · rename_i hcount
    refine .inl ⟨hmangled, fun id' s' hs' hb' => ?_⟩
    obtain ⟨s₀', hs₀', heq'⟩ := hsigs.exists_before hs'
    obtain ⟨b', hb₀, hin'⟩ := hmem hs₀'
    have hsame : base r s₀' = .ok b := by
      rw [← hb']
      refine (base_congr hclass ?_ ?_).symm <;> rw [heq']
    obtain rfl : b' = b := by
      rw [hb₀] at hsame
      injection hsame
    by_contra hne
    -- Another function with the same base would count as the second.
    refine hcount (two_le_count hin' hin fun heq => hne ?_)
    rw [← hids hs₀, ← hids hs₀', heq]

/-- Among functions that share a name before overloads are told apart, the hash of the suffix tells
apart parameters that are spelled differently. -/
def Distinguishes (r : Registry) : Prop :=
  ∀ s ∈ r.functions.toList, ∀ s' ∈ r.functions.toList, (base r s).toOption = (base r s').toOption →
    (TypeHash.ofSignature (r.typeNames s.params)).shortHex =
      (TypeHash.ofSignature (r.typeNames s'.params)).shortHex →
    r.typeNames s.params = r.typeNames s'.params

instance (r : Registry) : Decidable (Distinguishes r) := by
  unfold Distinguishes
  infer_instance

/-- The suffix of a linkable name. -/
def suffixOf (r : Registry) (params : List Ty) : List Char :=
  '~' :: (TypeHash.ofSignature (r.typeNames params)).shortHex.toList

theorem toList_overloaded (r : Registry) (b : String) (params : List Ty) :
    (overloaded r b params).toList = b.toList ++ suffixOf r params := by
  simp [overloaded, suffixOf]

theorem dollar_not_mem_suffix (r : Registry) (params : List Ty) : '$' ∉ suffixOf r params := by
  rw [suffixOf, List.mem_cons]
  rintro (h | h)
  · cases h
  · exact hex_plain _ _ _ h (by decide)

/-- A linkable name determines the name from before. -/
theorem eq_base_of_append (hs : Registered p r id s) (hs' : Registered p r id' s')
    (hnames : ∀ n ∈ p.names, IsIdentifier n) (hb : base r s = .ok b) (hb' : base r s' = .ok b')
    {xs xs' : List Char} (hxs : xs = [] ∨ ∃ ts, xs = suffixOf r ts)
    (hxs' : xs' = [] ∨ ∃ ts, xs' = suffixOf r ts) (h : b.toList ++ xs = b'.toList ++ xs') :
    b = b' ∧ xs = xs' := by
  have hdollar : ∀ {xs : List Char}, (xs = [] ∨ ∃ ts, xs = suffixOf r ts) → '$' ∉ xs := by
    rintro _ (rfl | ⟨ts, rfl⟩)
    · exact List.not_mem_nil
    · exact dollar_not_mem_suffix r ts
  have hstem : ∀ {id s}, Registered p r id s → '~' ∉ stem r s ∧ '$' ∉ stem r s := fun hs =>
    ⟨stem_plain hs hnames (by decide) (by decide), stem_plain hs hnames (by decide) (by decide)⟩
  rw [toList_base hb, toList_base hb', List.append_assoc, List.append_assoc, List.cons_append,
    List.cons_append] at h
  obtain ⟨hpath, hrest⟩ := append_cons_inj_of_last
    (fun hc => (List.mem_append.mp hc).elim (hstem hs).2 (hdollar hxs))
    (fun hc => (List.mem_append.mp hc).elim (hstem hs').2 (hdollar hxs')) h
  -- The suffix starts at the only `~`.
  have hsplit : stem r s = stem r s' ∧ xs = xs' := by
    rcases hxs with rfl | ⟨ts, rfl⟩ <;> rcases hxs' with rfl | ⟨ts', rfl⟩
    · simpa using hrest
    · rw [List.append_nil] at hrest
      exact absurd (hrest ▸ List.mem_append_right _ List.mem_cons_self) (hstem hs).1
    · rw [List.append_nil] at hrest
      exact absurd (hrest ▸ List.mem_append_right _ List.mem_cons_self) (hstem hs').1
    · obtain ⟨hsame, hsuffix⟩ := append_cons_inj_of_first (hstem hs).1 (hstem hs').1 hrest
      exact ⟨hsame, congrArg ('~' :: ·) hsuffix⟩
  refine ⟨String.toList_inj.mp ?_, hsplit.2⟩
  rw [toList_base hb, toList_base hb', hpath, hsplit.1]

theorem exists_suffix (h : s.mangled = b ∨ s.mangled = overloaded r b s.params) :
    ∃ xs, (xs = [] ∨ ∃ ts, xs = suffixOf r ts) ∧ s.mangled.toList = b.toList ++ xs := by
  rcases h with h | h
  · exact ⟨[], .inl rfl, by rw [h, List.append_nil]⟩
  · exact ⟨_, .inr ⟨_, rfl⟩, by rw [h, toList_overloaded]⟩

/-- Functions with the same linkable name are the same. -/
theorem mangled_inj {c : Compilation} (hc : Complete p c) (hnames : ∀ n ∈ p.names, IsIdentifier n)
    (hassigned : Assigned c.registry) (hhash : Distinguishes c.registry)
    (hs : c.registry.function? id = some s) (hs' : c.registry.function? id' = some s')
    (h : s.mangled = s'.mangled) : id = id' := by
  obtain ⟨b, hb, hmangled⟩ := hassigned hs
  obtain ⟨b', hb', hmangled'⟩ := hassigned hs'
  have hr := hc.registered hs
  have hr' := hc.registered hs'
  obtain ⟨xs, hxs, hlist⟩ := exists_suffix (hmangled.imp_left And.left)
  obtain ⟨xs', hxs', hlist'⟩ := exists_suffix (hmangled'.imp_left And.left)
  obtain ⟨rfl, _⟩ := eq_base_of_append hr hr' hnames hb hb' hxs hxs' (by rw [← hlist, ← hlist', h])
  rcases hmangled with ⟨_, honly⟩ | hsuffix
  · exact (honly id' s' hs' hb').symm
  rcases hmangled' with ⟨_, honly⟩ | hsuffix'
  · exact honly id s hs hb
  -- Both have a suffix, so their parameters are spelled alike.
  obtain ⟨howner, hname⟩ := base_inj hr hr' hnames hc.tables.hierarchy.hash_eq hb hb'
  have hhex := congrArg String.toList h
  rw [hsuffix, hsuffix', toList_overloaded, toList_overloaded] at hhex
  have hmem : ∀ {id s}, c.registry.function? id = some s → s ∈ c.registry.functions.toList :=
    fun hs => Array.mem_toList_iff.mpr (Array.mem_of_getElem? hs)
  have hspelled := hhash s (hmem hs) s' (hmem hs') (by rw [hb, hb'])
    (String.toList_inj.mp (List.cons.inj (List.append_cancel_left hhex)).2)
  have hparams := Registry.typeNames_inj hc.unique hr.nodup hr.named (howner ▸ hr'.named) hspelled
  exact hc.different hs hs' howner hname hparams

end LinkName

end ClassLang
