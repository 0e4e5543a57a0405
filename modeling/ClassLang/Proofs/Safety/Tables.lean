import ClassLang.Proofs.Dispatch.Tables
import ClassLang.Proofs.Safety.Layout

/-!
# Building method tables is safe

The bases and the ancestors of a class are registered, so the slots that it inherits and the methods
that it may override are found. Every slot of the finished table is bound: either a method of the
class fills it, or it comes from a base, whose table was built before; there the slot is bound to a
method of an ancestor, and the ancestors of the base are ancestors of the class. So a class that is
refused is refused at a position.
-/

namespace ClassLang

open CompileM Registration

namespace Dispatch

variable {r : Registry} {c : Class} {m : OwnMethod} {e : CompileError}

/-! ## Reading the class body -/

theorem inheritedRanks_ok {ts : List Ty} (hts : r.KnowsAll ts) :
    ∀ ranks, ∃ ranks', inheritedRanks r c ts ranks = .ok ranks' := by
  induction ts with
  | nil => exact fun ranks => ⟨ranks, rfl⟩
  | cons t ts ih =>
    intro ranks
    obtain ⟨ht, hts⟩ := Registry.knowsAll_cons.mp hts
    unfold inheritedRanks
    cases hh : t.classHash? with
    | none => exact ih hts ranks
    | some hash =>
      obtain ⟨base, hbase, _⟩ := (ht.has hh).getClass
      obtain ⟨ranks', hranks⟩ := ih hts (addRanks c base ranks)
      exact ⟨ranks', except_bind_eq_ok.mpr ⟨base, hbase, hranks⟩⟩

theorem declarer?_ok {slot : Nat} {hs : List TypeHash} (hhs : ∀ h ∈ hs, r.Has h) :
    ∃ d, declarer? r slot hs = .ok d := by
  induction hs with
  | nil => exact ⟨none, rfl⟩
  | cons h hs ih =>
    obtain ⟨hh, hhs⟩ := List.forall_mem_cons.mp hhs
    obtain ⟨k, hk, _⟩ := hh.getClass
    obtain ⟨d, hd⟩ := ih hhs
    unfold declarer?
    cases hm : k.methodInSlot? slot with
    | some m => exact ⟨some (k, m), except_bind_eq_ok.mpr ⟨k, hk, by rw [hm]; rfl⟩⟩
    | none => exact ⟨d, except_bind_eq_ok.mpr ⟨k, hk, by rw [hm]; exact hd⟩⟩

theorem isLocated_of_throw {α : Type} {cause : Cause} {span : Span}
    (h : (throw (.located cause span) : Except CompileError α) = .error e) : e.isLocated = true := by
  injection h with h
  exact h ▸ rfl

theorem isLocated_of_checkOverride {k : Rank} (hmro : ∀ h ∈ c.mro.drop 1, r.Has h)
    (he : checkOverride r c m k = .error e) : e.isLocated = true := by
  obtain ⟨d, hd⟩ : ∃ d, declarer? r k.slot (c.mro.drop 1) = .ok d := declarer?_ok hmro
  -- Whatever is in the slot, what is left is to compare the types.
  have hlast : ∀ {b : Bool} {cause : Cause} {u : Unit},
      (if b = true then throw (.located cause m.span) else pure u : Except CompileError Unit) =
        .error e → e.isLocated = true := by
    intro b cause u h
    cases b with
    | true => exact isLocated_of_throw h
    | false => cases h
  unfold checkOverride at he
  rcases except_bind_eq_error.mp he with he | ⟨d', _, he⟩
  · rw [hd] at he
    cases he
  · cases d' with
    | none => exact hlast he
    | some x =>
      dsimp only at he
      split at he
      · injection he with he
        exact he ▸ rfl
      · exact hlast he

theorem isLocated_of_overrideRanks {ranks : List Rank} (hmro : ∀ h ∈ c.mro.drop 1, r.Has h)
    (he : overrideRanks r c m ranks = .error e) : e.isLocated = true := by
  induction ranks with
  | nil => cases he
  | cons k rest ih =>
    unfold overrideRanks at he
    split at he
    · rcases except_bind_eq_error.mp he with he | ⟨_, _, he⟩
      · exact isLocated_of_checkOverride hmro he
      · rcases except_bind_eq_error.mp he with he | ⟨_, _, he⟩
        · exact ih he
        · cases he
    · rcases except_bind_eq_error.mp he with he | ⟨_, _, he⟩
      · exact ih he
      · cases he

theorem isLocated_of_assignSlots {ranks : List Rank} (hmro : ∀ h ∈ c.mro.drop 1, r.Has h)
    (he : (assignSlots r c m ranks).1 = .error e) : e.isLocated = true := by
  unfold assignSlots at he
  split at he
  · cases he
  · rcases except_bind_eq_error.mp he with he | ⟨_, _, he⟩
    · exact isLocated_of_overrideRanks hmro he
    · cases he

theorem isLocated_of_checkDeclared {earlier : List OwnMethod}
    (he : checkDeclared c earlier m = .error e) : e.isLocated = true := by
  unfold checkDeclared at he
  cases hsuits : m.isAbstract && !c.isAbstract <;> rw [hsuits] at he
  · rw [if_neg Bool.false_ne_true] at he
    split at he
    · exact isLocated_of_throw he
    · cases he
  · injection he with he
    exact he ▸ rfl

theorem isLocated_of_readMethods {own : List OwnMethod} :
    ∀ {r : Registry} {earlier : List OwnMethod} {methods : List Method} {ranks : List Rank},
      (∀ h ∈ c.mro.drop 1, r.Has h) →
      (readMethods c own r earlier methods ranks).1 = .error e → e.isLocated = true := by
  induction own with
  | nil =>
    intro r earlier methods ranks _ he
    cases he
  | cons m rest ih =>
    intro r earlier methods ranks hmro he
    unfold readMethods at he
    split at he
    · rename_i hdeclared
      injection he with he
      exact isLocated_of_checkDeclared (he ▸ hdeclared)
    · split at he
      · rename_i e' r' hassign
        injection he with he
        exact isLocated_of_assignSlots hmro (he ▸ congrArg Prod.fst hassign)
      · rename_i method ranks' r' hassign
        refine ih ?_ he
        rcases assignSlots_cases hassign with ⟨_, _, _, rfl⟩ | ⟨_, _, _, _, _, _, rfl⟩
        · exact hmro
        · exact hmro

/-! ## Binding slots -/

theorem methodFor?_of_declared {methods : List Method} {slot : Nat} {n : Method}
    (hn : n ∈ methods) (hslot : n.occupies slot = true) :
    ∃ x, methodFor? r c methods slot = some x := by
  cases hfind : methods.find? fun x => x.occupies slot with
  | some x =>
    refine ⟨x, ?_⟩
    unfold methodFor?
    rw [hfind]
  | none => exact absurd hslot (List.find?_eq_none.mp hfind n hn)

theorem methodFor?_of_ancestor {methods : List Method} {slot : Nat} {h : TypeHash} {k : Class}
    {n : Method} (hh : h ∈ c.mro.drop 1) (hk : r.class? h = some k)
    (hn : k.methodInSlot? slot = some n) : ∃ x, methodFor? r c methods slot = some x := by
  unfold methodFor?
  split
  · exact ⟨_, rfl⟩
  · have hsome : ((c.mro.drop 1).findSome? fun h =>
        (r.class? h).bind (·.methodInSlot? slot)).isSome = true :=
      List.findSome?_isSome_iff.mpr ⟨h, hh, by rw [hk, Option.bind_some, hn]; rfl⟩
    exact Option.isSome_iff_exists.mp hsome

/-- A slot that is bound in the table of a class is one of a method of an ancestor. -/
theorem exists_of_methodFor? {h : TypeHash} {slot : Nat} {n : Method} (hr : Hierarchy r)
    (hc : r.class? h = some c) (hn : methodFor? r c c.methods slot = some n) :
    ∃ a ∈ c.mro, ∃ k, r.class? a = some k ∧ k.methodInSlot? slot = some n := by
  unfold methodFor? at hn
  split at hn
  · rename_i x hx
    injection hn with hn
    exact ⟨h, hr.self_mem_mro hc, c, hc, hn ▸ hx⟩
  · obtain ⟨a, ha, hn⟩ := List.exists_of_findSome?_eq_some hn
    obtain ⟨k, hk, hn⟩ := Option.bind_eq_some_iff.mp hn
    exact ⟨a, List.mem_of_mem_drop ha, k, hk, hn⟩

theorem bindSlots_ok {methods : List Method} {ranks : List Rank}
    (h : ∀ k ∈ ranks, ∃ n, methodFor? r c methods k.slot = some n) :
    ∃ vtable, bindSlots r c methods ranks = .ok vtable := by
  induction ranks with
  | nil => exact ⟨[], rfl⟩
  | cons k ranks ih =>
    obtain ⟨⟨n, hn⟩, hrest⟩ := List.forall_mem_cons.mp h
    obtain ⟨vtable, hvtable⟩ := ih hrest
    unfold bindSlots
    rw [hn]
    exact ⟨_, except_bind_eq_ok.mpr ⟨vtable, hvtable, rfl⟩⟩

/-- A slot that a class inherits is bound, because it is bound in the table of the base. -/
theorem Progress.methodFor?_of_inherited {r₀ : Registry} {methods : List (TypeHash × OwnMethod)}
    {before : List PendingClass} (hprog : Progress r₀ r methods before) (hr : Hierarchy r)
    {h : TypeHash} (hc : r.class? h = some c) {inh : List Rank}
    (hinh : inheritedRanks r c c.bases [] = .ok inh) {k : Rank} (hk : k ∈ inh) (own : List Method) :
    ∃ n, methodFor? r c own k.slot = some n := by
  rcases (inheritedRanks_inherited hinh).origin k hk with hnil | ⟨_, base, hfirst, k₁, hk₁, rfl⟩
  · exact absurd hnil List.not_mem_nil
  · obtain ⟨_, b, hb, hbase⟩ := firstSeeing?_sees hfirst
    have hpending : Pending before b := by
      by_contra hnot
      rw [(hprog.untabled b base hbase hnot).2.1] at hk₁
      exact absurd hk₁ List.not_mem_nil
    obtain ⟨_, htabled⟩ := hprog.tabled b base hbase hpending
    obtain ⟨_, _, n, hn, _⟩ := exists_right_of_forall₂ htabled.bound hk₁
    obtain ⟨a, ha, d, hd, hin⟩ := exists_of_methodFor? hr hbase hn
    obtain ⟨rest, hmro, hbases, _⟩ := hr.mro_eq hc
    refine methodFor?_of_ancestor (h := a) ?_ hd hin
    rw [hmro]
    exact (hbases b hb base hbase).subset ha

/-- A class is refused at a position. -/
theorem Progress.isLocated_of_methodTable {r₀ : Registry} {methods : List (TypeHash × OwnMethod)}
    {before : List PendingClass} (hprog : Progress r₀ r methods before) (hr : Hierarchy r)
    {h : TypeHash} (hc : r.class? h = some c) (hbases : r.KnowsAll c.bases) {own : List OwnMethod}
    (he : (methodTable r c own).1 = .error e) : e.isLocated = true := by
  obtain ⟨inh, hinh⟩ := inheritedRanks_ok (c := c) hbases []
  have hmro : ∀ a ∈ c.mro.drop 1, r.Has a := fun a ha =>
    hr.exists_of_mem_mro hc (List.mem_of_mem_drop ha)
  unfold methodTable at he
  rw [hinh] at he
  dsimp only at he
  split at he
  · rename_i e' r' hread
    injection he with he
    exact isLocated_of_readMethods hmro (he ▸ congrArg Prod.fst hread)
  · rename_i ms ranks r' hread
    obtain ⟨next, rfl, hbody⟩ := readMethods_read (read_nil
      ((inheritedRanks_inherited hinh).nodup .nil) (inherited_bound hinh hprog.slots)) hread
    -- Every slot has a method: one of a base, or the one of the body that introduced it.
    have hbound : ∀ k ∈ ranks, ∃ n, methodFor? { r with nextSlot := next } c ms k.slot = some n := by
      intro k hk
      rcases hbody.origin k hk with ⟨k₀, hk₀, hslot⟩ | ⟨_, o, ho, heq⟩
      · exact hslot ▸ hprog.methodFor?_of_inherited hr hc hinh hk₀ ms
      · rw [List.nil_append] at ho
        obtain ⟨n, hn, slot, more, rfl⟩ := exists_right_of_forall₂ hbody.methods_eq
          (by rwa [List.nil_append])
        refine methodFor?_of_declared hn ((hbody.occupies _ hn k.slot).mpr ⟨k, hk, rfl, ?_, ?_⟩)
        · rw [heq]
          rfl
        · rw [heq]
          rfl
    obtain ⟨vtable, hvtable⟩ := bindSlots_ok hbound
    unfold finish at he
    rcases except_bind_eq_error.mp he with he | ⟨_, _, he⟩
    · rw [hvtable] at he
      cases he
    · split at he
      · dsimp only at he
        split at he
        · injection he with he
          exact he ▸ rfl
        · cases he
      · cases he

end Dispatch

namespace CompileM

variable {c : Compilation} {r₀ : Registry} {methods : List (TypeHash × OwnMethod)}

/-! ## The steps -/

theorem safe_buildMethodTable {before : List PendingClass} {p : PendingClass} {own : List OwnMethod}
    (hr : Hierarchy r₀) (hclosed : r₀.Closed) (hp : r₀.Has p.hash)
    (hprog : Dispatch.Progress r₀ c.registry methods before) :
    Safe Drafts (buildMethodTable p own) c fun _ _ => True := by
  obtain ⟨k₀, hk₀⟩ := hp
  obtain ⟨k, hk, hheader⟩ := hprog.headers.exists_class hk₀
  have hbases : c.registry.KnowsAll k.bases := by
    have hbases : k.bases = k₀.bases := (congrArg Class.bases hheader :)
    exact hbases ▸ (hclosed.classes hk₀).bases.mono fun _ => Registry.has_of_map hprog.headers
  unfold buildMethodTable
  refine .askRegistry_bind (Registry.getClass_eq_ok.mpr hk) ?_
  refine (safe_inModule (P := fun _ _ => True) (Q := fun _ _ => True) ?_
    fun _ _ _ _ => trivial).bind fun t c₁ h₁ _ => ?_
  · have hupdate : Safe Drafts (updateRegistry fun r => Dispatch.methodTable r k own)
        (c.entered p.path) fun x _ => x = (Dispatch.methodTable c.registry k own).1 := by
      obtain ⟨next, hnext⟩ := Dispatch.methodTable_registry c.registry k own
      refine safe_modifyGet (.of_same rfl rfl rfl rfl rfl fun h hh => ?_) rfl
      show (Dispatch.methodTable c.registry k own).2.Has h
      rw [hnext]
      exact hh
    refine hupdate.bind fun x c₁ _ hx => .conclude (fun _ _ => trivial) fun e he => ?_
    exact hprog.isLocated_of_methodTable (hr.congr hprog.headers) hk hbases (hx ▸ he)
  · refine (Safe.forM (I := fun _ => True) (fun m _ c₂ _ _ =>
      safe_modifyRegistry (fun _ hh => hh) trivial) trivial).bind fun _ c₂ h₂ _ => ?_
    exact safe_modifyClass (h₂.classes _ (h₁.classes _ ⟨k, hk⟩)) trivial

theorem safe_buildMethodTables (hr : Hierarchy r₀) (hclosed : r₀.Closed)
    {after : List PendingClass} :
    ∀ {before : List PendingClass} {c : Compilation}, (∀ p ∈ after, r₀.Has p.hash) →
      Dispatch.Progress r₀ c.registry methods before → Dispatch.InOrder r₀ (before ++ after) →
      Safe Drafts (buildMethodTables methods after) c fun _ _ => True := by
  induction after with
  | nil =>
    intro before c _ _ _
    exact .pure trivial
  | cons p after ih =>
    intro before c hps hprog horder
    obtain ⟨hp, hps⟩ := List.forall_mem_cons.mp hps
    refine (safe_buildMethodTable hr hclosed hp hprog).traced.bind fun _ c₁ _ ⟨hstep, _⟩ => ?_
    have hprog₁ := Dispatch.buildMethodTable_progress hr hprog horder hstep
    rw [List.append_cons] at horder
    exact ih hps hprog₁ horder

/-! ## Linkable names -/

theorem assignAll_ok {r : Registry} (hclosed : r.Closed) : ∃ r', LinkName.assignAll r = .ok r' := by
  have hbase : ∀ s ∈ r.functions.toList, ∃ x, (do return (s, ← LinkName.base r s) :
      Except CompileError (Signature × String)) = .ok x := by
    intro s hs
    obtain ⟨id, hid⟩ := List.mem_iff_getElem?.mp hs
    have hid : r.function? id = some s := by
      rw [← hid]
      exact Array.getElem?_toList.symm
    have hknown := hclosed.functions hid
    unfold LinkName.base
    cases howner : s.owner with
    | module path => exact ⟨_, rfl⟩
    | classOf h =>
      obtain ⟨k, hk, _⟩ := (hknown.owner h howner).getClass
      refine ⟨(s, LinkName.method k.path k.name s.name), except_bind_eq_ok.mpr ⟨_, ?_, rfl⟩⟩
      exact except_bind_eq_ok.mpr ⟨k, hk, rfl⟩
  have hall : ∃ named, r.functions.toList.mapM (fun s => do return (s, ← LinkName.base r s)) =
      (.ok named : Except CompileError (List (Signature × String))) := by
    generalize r.functions.toList = ss at hbase
    induction ss with
    | nil => exact ⟨[], rfl⟩
    | cons s rest ih =>
      obtain ⟨⟨x, hx⟩, hrest⟩ := List.forall_mem_cons.mp hbase
      obtain ⟨named, hnamed⟩ := ih hrest
      refine ⟨x :: named, ?_⟩
      rw [List.mapM_cons, hx, hnamed]
      rfl
  obtain ⟨named, hnamed⟩ := hall
  exact ⟨_, except_bind_eq_ok.mpr ⟨named, hnamed, rfl⟩⟩

theorem safe_assignLinkNames (hclosed : c.registry.Closed) :
    Safe Drafts assignLinkNames c fun _ _ => True := by
  obtain ⟨r', hr'⟩ := assignAll_ok hclosed
  have hclass := (Dispatch.assignAll_effect hr').1
  unfold assignLinkNames
  refine .askRegistry_bind hr' (safe_modifyRegistry (fun h ⟨k, hk⟩ => ⟨k, ?_⟩) trivial)
  rw [hclass, hk]

end CompileM

end ClassLang
