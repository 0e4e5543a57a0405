import ClassLang.Proofs.Lowering.Scopes
import ClassLang.Proofs.Registration.Scopes
import ClassLang.Proofs.Writes.Expressions

/-!
# Variables and the storage that is written

Variables that are in scope do not share storage: a local one gets the storage above those before
it, and when its scope is left both are gone. A *guard* looks after the constants among them. A step
is guarded if what it emits writes into no constant, unless that is being initialized, and calls
functions with frames that start above all variables. Expressions are, since each is confined to an
area without constants.
-/

-- The instances of long steps are large terms.
set_option synthInstance.maxSize 1000

namespace ClassLang

open CompileM Lowering

/-! ## Where variables lie -/

/-- The storage of a variable. -/
def Registry.storageOf (r : Registry) (b : Binding) : Access := (b.address, r.length b.type)

/-- The storage of the variable ends below this offset if it is in the frame. -/
def Binding.EndsBelow (r : Registry) (n : Nat) (b : Binding) : Prop :=
  ∀ k, b.address = .frame k → k + r.length b.type ≤ n

theorem Binding.EndsBelow.mono {r : Registry} {n m : Nat} {b : Binding} (h : b.EndsBelow r n)
    (hle : n ≤ m) : b.EndsBelow r m := fun k hk => Nat.le_trans (h k hk) hle

/-- What lies above a variable is apart from it. -/
theorem Binding.EndsBelow.apart {r : Registry} {n k l : Nat} {b : Binding} (h : b.EndsBelow r n)
    (hk : n ≤ k) : Access.Apart (.frame k, l) (r.storageOf b) := by
  unfold Registry.storageOf
  cases ha : b.address with
  | frame j => exact .inr (Nat.le_trans (h j ha) hk)
  | global j | literal j => trivial

/-! ## Variables in scope -/

/-- The scope has a name for the variable. -/
def Scope.Binds (x : Scope) (b : Binding) : Prop :=
  ∃ name e, x.find? name = some e ∧ e.meaning = .variable b

/-- The variable is in scope, hidden by another one or not. -/
def Scopes.Binds (s : Scopes) (b : Binding) : Prop := ∃ x ∈ s.chain, x.Binds b

theorem Scope.all_iff_binds {P : Binding → Prop} {x : Scope} :
    x.All (fun d => ∀ b, d = .variable b → P b) ↔ ∀ b, x.Binds b → P b :=
  ⟨fun h b ⟨name, e, he, hb⟩ => h name e he b hb, fun h name e he b hb => h b ⟨name, e, he, hb⟩⟩

namespace Scopes

variable {s s' : Scopes} {name : String} {d : Meaning} {span : Span} {b : Binding}

theorem binds_of_find? {e : Entry} (he : s.find? name = some e) (hb : e.meaning = .variable b) :
    s.Binds b := by
  obtain ⟨x, hx, hfind⟩ := exists_mem_of_find? he
  exact ⟨x, hx, name, e, hfind, hb⟩

/-- The home of a name is the storage of a variable in scope. -/
theorem exists_binds_of_mem_homes {h : Home} (hh : h ∈ s.homes name) :
    ∃ b, s.Binds b ∧ h = ⟨⟨b.type, b.address⟩, b.isConst⟩ := by
  unfold homes at hh
  split at hh
  · rename_i b hb
    obtain ⟨e, he, hmeaning⟩ := Option.map_eq_some_iff.mp hb
    exact ⟨b, binds_of_find? he hmeaning, List.mem_singleton.mp hh⟩
  · cases hh

theorem binds_enter {kind : ScopeKind} (h : (s.enter kind).Binds b) : s.Binds b := by
  obtain ⟨x, hx, hb⟩ := h
  rcases List.mem_cons.mp hx with rfl | hx
  · obtain ⟨_, _, he, _⟩ := hb
    cases he
  · exact ⟨x, hx, hb⟩

/-- A name adds the variable that it is defined for, and no other. -/
theorem binds_define (h : s.define name d span = .ok s') (hb : s'.Binds b) :
    s.Binds b ∨ d = .variable b := by
  have hall := all_define (P := fun m => ∀ b, m = .variable b → s.Binds b ∨ d = .variable b)
    (fun x hx => Scope.all_iff_binds.mpr fun b hb => .inl ⟨x, hx, hb⟩) (fun b hd => .inr hd)
    (fun _ _ _ _ b hb => by cases hb) h
  obtain ⟨x, hx, hb⟩ := hb
  exact Scope.all_iff_binds.mp (hall x hx) b hb

end Scopes

/-! ## Functions in scope -/

/-- If the name stands for functions, they are not methods. -/
def Meaning.Free (r : Registry) : Meaning → Prop
  | .functions ids => ∀ id ∈ ids, ∃ s, r.function? id = some s ∧ s.isMethod = false
  | _ => True

/-- No name in scope stands for methods, hidden or not. -/
def Scopes.Free (r : Registry) (s : Scopes) : Prop := ∀ x ∈ s.chain, x.All (·.Free r)

theorem Meaning.Outer.free {r : Registry} {V : Binding → Prop} {name : String} {d : Meaning}
    (h : d.Outer r V name) : d.Free r := by
  cases d with
  | functions ids =>
    intro id hid
    obtain ⟨s, hs, _, hfree⟩ := h.2 id hid
    exact ⟨s, hs, hfree⟩
  | _ => trivial

namespace Scopes.Free

variable {r : Registry} {s s' : Scopes} {name : String}

theorem enter (h : s.Free r) (kind : ScopeKind) : (s.enter kind).Free r :=
  List.forall_mem_cons.mpr ⟨Scope.all_opened kind, h⟩

theorem define (h : s.Free r) {d : Meaning} {span : Span} (hd : d.Free r)
    (hdefine : s.define name d span = .ok s') : s'.Free r :=
  all_define h hd (fun _ _ hids hmore id hid =>
    (Scope.mem_mergeIds.mp hid).elim (hids id) (hmore id)) hdefine

theorem of_find? (h : s.Free r) {e : Entry} (he : s.find? name = some e) : e.meaning.Free r := by
  obtain ⟨x, hx, hfind⟩ := exists_mem_of_find? he
  exact h x hx name e hfind

end Scopes.Free

/-! ## Storage in scope -/

/-- Variables in scope do not share storage. Those in the frame lie below its top, and so does the
result of the function, which is apart from all of them. -/
structure Spaced (r : Registry) (s : Scopes) (top : Nat) : Prop where
  below : ∀ b, s.Binds b → b.EndsBelow r top
  apart : ∀ b b', s.Binds b → s.Binds b' → b = b' ∨ (r.storageOf b).Apart (r.storageOf b')
  result : ∀ f, s.function? = some f → r.length f.result ≤ top ∧
    ∀ b, s.Binds b → Access.Apart (.frame 0, r.length f.result) (r.storageOf b)

namespace Spaced

variable {r : Registry} {s s' : Scopes} {n m k : Nat}

theorem mono (h : Spaced r s n) (hle : n ≤ m) : Spaced r s m where
  below b hb := (h.below b hb).mono hle
  apart := h.apart
  result f hf := ⟨Nat.le_trans (h.result f hf).1 hle, (h.result f hf).2⟩

/-- A scope without variables is entered. -/
theorem enter (h : Spaced r s n) {kind : ScopeKind}
    (hkind : ∀ f, (s.enter kind).function? = some f → r.length f.result ≤ n ∧
      ∀ b, s.Binds b → Access.Apart (.frame 0, r.length f.result) (r.storageOf b)) :
    Spaced r (s.enter kind) n where
  below b hb := h.below b (Scopes.binds_enter hb)
  apart b b' hb hb' := h.apart b b' (Scopes.binds_enter hb) (Scopes.binds_enter hb')
  result f hf := ⟨(hkind f hf).1, fun b hb => (hkind f hf).2 b (Scopes.binds_enter hb)⟩

/-- A name that is not that of a variable. -/
theorem define (h : Spaced r s n) {name : String} {d : Meaning} {span : Span}
    (hd : ∀ b, d ≠ .variable b) (hdefine : s.define name d span = .ok s') : Spaced r s' n where
  below b hb := h.below b ((Scopes.binds_define hdefine hb).resolve_right (hd b))
  apart b b' hb hb' := h.apart b b' ((Scopes.binds_define hdefine hb).resolve_right (hd b))
    ((Scopes.binds_define hdefine hb').resolve_right (hd b'))
  result f hf := by
    obtain ⟨hle, hall⟩ := h.result f (Scopes.function?_congr (Scopes.kinds_define hdefine) ▸ hf)
    exact ⟨hle, fun b hb => hall b ((Scopes.binds_define hdefine hb).resolve_right (hd b))⟩

/-- A variable gets the storage above all others. -/
theorem bind (h : Spaced r s n) {name : String} {b : Binding} {span : Span} (hb : b.address = .frame n)
    (hm : n + r.length b.type ≤ m) (hdefine : s.define name (.variable b) span = .ok s') :
    Spaced r s' m := by
  have hcases : ∀ b', s'.Binds b' → s.Binds b' ∨ b' = b := fun b' hb' =>
    (Scopes.binds_define hdefine hb').imp_right fun heq => by
      injection heq with heq
      exact heq.symm
  have hle : n ≤ m := Nat.le_trans (Nat.le_add_right ..) hm
  -- What was bound before lies below the storage that the variable gets.
  have hnew : ∀ b', s.Binds b' → (r.storageOf b).Apart (r.storageOf b') := fun b' hb' => by
    show Access.Apart (b.address, _) _
    rw [hb]
    exact (h.below b' hb').apart (Nat.le_refl n)
  refine ⟨fun b' hb' => ?_, fun b₁ b₂ h₁ h₂ => ?_, fun f hf => ?_⟩
  · rcases hcases b' hb' with hb' | rfl
    · exact (h.below b' hb').mono hle
    · intro k hk
      rw [hb] at hk
      injection hk with hk
      exact hk ▸ hm
  · rcases hcases b₁ h₁ with h₁ | rfl <;> rcases hcases b₂ h₂ with h₂ | rfl
    · exact h.apart b₁ b₂ h₁ h₂
    · exact .inr (hnew b₁ h₁).symm
    · exact .inr (hnew b₂ h₂)
    · exact .inl rfl
  · obtain ⟨hlow, hall⟩ := h.result f (Scopes.function?_congr (Scopes.kinds_define hdefine) ▸ hf)
    refine ⟨Nat.le_trans hlow hle, fun b' hb' => ?_⟩
    rcases hcases b' hb' with hb' | rfl
    · exact hall b' hb'
    · show Access.Apart _ (b'.address, _)
      rw [hb]
      exact .inl (Nat.le_trans (Nat.le_of_eq (Nat.zero_add _)) hlow)

end Spaced

/-! ## Guards -/

/-- What is looked after while code is compiled against a registry. -/
structure Guard where
  registry : Registry
  fits : ∀ {t name offset type}, registry.field? t name = some (offset, type) →
    offset + registry.length type ≤ registry.length t
  /-- No assignment loses track of a constant. -/
  tracked : Prop
  /-- Storage that is being initialized. -/
  Initializes : Access → Prop

/-- The bytes are apart from all constants in scope but those that are being initialized. -/
def Guard.Spares (G : Guard) (s : Scopes) (x : Access) : Prop :=
  ∀ b, s.Binds b → b.isConst = true → ¬G.Initializes (G.registry.storageOf b) →
    x.Apart (G.registry.storageOf b)

/-- The emission writes into no constant, and what it calls gets a frame above all variables. No
name stands for methods. -/
structure Emission.Heeds (G : Guard) (e : Emission) : Prop where
  registry : e.registry = G.registry
  free : e.scopes.Free G.registry
  spares : G.tracked → ∀ x ∈ e.writes, G.Spares e.scopes x
  calls : ∀ base, e.instr.frame? = some base → ∃ k, base = .frame k ∧
    ∀ b, e.scopes.Binds b → b.EndsBelow G.registry k

namespace Guard

variable {G : Guard} {c c' : Compilation}

/-- The guard looks after this state. -/
structure Watches (G : Guard) (c : Compilation) : Prop where
  registry : c.registry = G.registry
  free : c.scopes.Free G.registry
  spaced : Spaced G.registry c.scopes c.frame.top

theorem Watches.mono (h : G.Watches c) (hregistry : c'.registry = c.registry)
    (hscopes : c'.scopes = c.scopes) (htop : c.frame.top ≤ c'.frame.top) : G.Watches c' :=
  ⟨hregistry.trans h.registry, hscopes ▸ h.free, hscopes ▸ h.spaced.mono htop⟩

/-- What an expression may write: all but constants. -/
def area (G : Guard) (c : Compilation) (h : G.Watches c) : Area where
  registry := G.registry
  scopes := c.scopes
  base := c.frame.top
  Allows x := G.tracked → G.Spares c.scopes x
  fresh hk _ b hb _ _ := (h.spaced.below b hb).apart hk
  shorter hx hm ht b hb hconst hown := (hx ht b hb hconst hown).shorter hm
  field hx hf ht b hb hconst hown := (hx ht b hb hconst hown).part (G.fits hf)

theorem covers_area (h : G.Watches c) : (G.area c h).Covers c := ⟨h.registry, rfl, Nat.le_refl _⟩

/-- The assignments to these targets do not lose track of constants if the guard relies on that. -/
def Admits (G : Guard) (targets : List Expr) : Prop :=
  G.tracked → ∀ t ∈ targets, t.keepsTrack = true

theorem admits_append {ts us : List Expr} : G.Admits (ts ++ us) ↔ G.Admits ts ∧ G.Admits us := by
  unfold Admits
  simp only [List.forall_mem_append, imp_and]

/-- An assignment that keeps track of constants goes to none: the place of a constant is constant,
and other variables are apart from it. -/
theorem offers_home (hc : G.Watches c) : ∀ {t : Expr}, t.keepsTrack = true →
    ∀ h ∈ t.homes G.registry c.scopes, h.isConst = false → (G.area c hc).Offers h.slot
  | .name n _, _, h, hmem, hconst => by
    intro _ b' hb' hconst' _
    obtain ⟨b, hb, rfl⟩ := Scopes.exists_binds_of_mem_homes hmem
    refine (hc.spaced.apart b b' hb hb').resolve_left ?_
    rintro rfl
    rw [hconst'] at hconst
    cases hconst
  -- The place of a receiver counts as constant.
  | .receiver _, _, h, hmem, hconst => by
    obtain ⟨_, _, rfl⟩ := List.mem_map.mp hmem
    cases hconst
  | .member object f _, htrack, h, hmem, hconst => by
    obtain ⟨whole, hwhole, hfield⟩ := List.mem_filterMap.mp hmem
    have hobject : object.keepsTrack = true := htrack
    obtain ⟨hsame, hoffers⟩ := (G.area c hc).offers_field hfield
    exact hoffers (offers_home hc hobject whole hwhole (hsame ▸ hconst))
  | .cast e t _, htrack, h, hmem, _ => by
    cases t with
    | named => cases htrack
    | _ => cases hmem
  | .assign target value _, htrack, h, hmem, _ => by
    have hname : target.isName = true := htrack
    simp only [Expr.homes, hname, if_true] at hmem
    cases hmem
  | .literal .., _, _, hmem, _ | .scopedName .., _, _, hmem, _ | .placeholder .., _, _, hmem, _
  | .binary .., _, _, hmem, _ | .index .., _, _, hmem, _ | .unary .., _, _, hmem, _
  | .instanceOf .., _, _, hmem, _ | .call .., _, _, hmem, _ | .newObject .., _, _, hmem, _
  | .newArray .., _, _, hmem, _ | .array .., _, _, hmem, _ | .conditional .., _, _, hmem, _
  | .switch .., _, _, hmem, _ => by cases hmem

theorem Admits.permits {ts : List Expr} (h : G.Admits ts) (hc : G.Watches c) :
    (G.area c hc).Permits ts := by
  intro t ht home hmem hconst htracked
  exact offers_home hc (h htracked t ht) home hmem hconst htracked

end Guard

/-! ## Guarded steps -/

/-- Names were added to the innermost scope, and storage was taken. -/
structure Advances (c c' : Compilation) : Prop where
  top : c.frame.top ≤ c'.frame.top
  scopes : ∃ scope, scope.kind = c.scopes.current.kind ∧ c'.scopes = c.scopes.replace scope

namespace Advances

variable {c c₁ c' : Compilation}

theorem of_same (htop : c.frame.top ≤ c'.frame.top) (hscopes : c'.scopes = c.scopes) :
    Advances c c' := ⟨htop, _, rfl, by rw [hscopes, Scopes.replace_current]⟩

theorem trans (h₁ : Advances c c₁) (h₂ : Advances c₁ c') : Advances c c' := by
  obtain ⟨scope₁, hkind₁, hscopes₁⟩ := h₁.scopes
  obtain ⟨scope₂, hkind₂, hscopes₂⟩ := h₂.scopes
  refine ⟨Nat.le_trans h₁.top h₂.top, scope₂, ?_, by rw [hscopes₂, hscopes₁, Scopes.replace_replace]⟩
  rw [hkind₂, hscopes₁, Scopes.current_replace, hkind₁]

theorem define {name : String} {d : Meaning} {span : Span} {scopes : Scopes}
    (h : c.scopes.define name d span = .ok scopes) : Advances c { c with scopes := scopes } := by
  obtain ⟨scope, hscope, rfl⟩ := Scopes.define_effect h
  exact ⟨Nat.le_refl _, scope, Scope.kind_define hscope, rfl⟩

/-- When a scope is left, its names are gone. -/
theorem truncate {kind : ScopeKind} (h : Advances (inside kind c) c') :
    c'.scopes.truncate c.scopes.depth = c.scopes := by
  obtain ⟨scope, _, hscopes⟩ := h.scopes
  rw [hscopes]
  exact Scopes.truncate_replace_push c.scopes _ scope

end Advances

/-- What is known of a guarded step from a state: all that it emits heeds the guard, which goes on
to watch what comes after. -/
structure Guarded (G : Guard) {α : Type} (m : CompileM α) (c : Compilation) : Prop where
  emissions : ∀ e ∈ CompileM.emissions m c, e.Heeds G
  yields : ∀ {a c'}, Yields m c a c' → G.Watches c' ∧ Advances c c'

/-- The step is guarded from all states that are watched. -/
def Guards (G : Guard) (α : Type) (m : CompileM α) : Prop := ∀ c, G.Watches c → Guarded G m c

section Guards

variable {G : Guard} {α β : Type} {m : CompileM α} {f : α → CompileM β} {c : Compilation}

theorem Guarded.bind (hm : Guarded G m c)
    (hf : ∀ a c₁, Yields m c a c₁ → G.Watches c₁ → Guarded G (f a) c₁) : Guarded G (m >>= f) c where
  emissions e he := by
    rcases mem_emissions_bind he with he | ⟨a, c₁, hyields, he⟩
    · exact hm.emissions e he
    · exact (hf a c₁ hyields (hm.yields hyields).1).emissions e he
  yields h := by
    obtain ⟨a, c₁, h₁, h₂⟩ := yields_bind.mp h
    obtain ⟨hc₁, hfirst⟩ := hm.yields h₁
    obtain ⟨hc', hrest⟩ := (hf a c₁ h₁ hc₁).yields h₂
    exact ⟨hc', hfirst.trans hrest⟩

theorem Guarded.of_mute (hm : Mute m)
    (h : ∀ {a c'}, Yields m c a c' → G.Watches c' ∧ Advances c c') : Guarded G m c :=
  ⟨fun _ he => absurd (hm c ▸ he) List.not_mem_nil, h⟩

instance : Reading (Guards G) where
  reads {_} m hm c hc := by
    refine .of_mute (fun c => ?_) fun {a c'} hy => ?_
    · obtain ⟨o, ho⟩ := hm.run c
      show (m.run c).2 = []
      rw [ho]
    · obtain rfl : c' = c := hy.keeps (f := id)
      exact ⟨hc, .of_same (Nat.le_refl _) rfl⟩
  bind hm hf c hc := (hm c hc).bind fun a c₁ _ hc₁ => hf a c₁ hc₁
  defer _ c hc := .of_mute (fun _ => rfl) fun hy => by
    rw [yields_modify] at hy
    exact hy ▸ ⟨hc.mono rfl rfl (Nat.le_refl _), .of_same (Nat.le_refl _) rfl⟩

/-- A step that is confined to what may be written from this state on. -/
theorem Guarded.of_confined {Q : α → Prop} (hc : G.Watches c) (h : Confined (G.area c hc) m Q) :
    Guarded G m c where
  emissions e he := by
    have hinside := h.emissions (Guard.covers_area hc) e he
    refine ⟨hinside.registry, ?_, fun htracked x hx => ?_, fun base hcall => ?_⟩
    · rw [show e.scopes = c.scopes from hinside.scopes]
      exact hc.free
    · rw [show e.scopes = c.scopes from hinside.scopes]
      exact hinside.writes x hx htracked
    · obtain ⟨k, rfl, hk⟩ := hinside.calls base hcall
      rw [show e.scopes = c.scopes from hinside.scopes]
      exact ⟨k, rfl, fun b hb => (hc.spaced.below b hb).mono hk⟩
  yields hy := by
    obtain ⟨hcovers, -⟩ := h.yields (Guard.covers_area hc) hy
    exact ⟨hc.mono (hcovers.registry.trans hc.registry.symm) hcovers.scopes hcovers.top,
      .of_same hcovers.top hcovers.scopes⟩

theorem guards_of_confined {Q : α → Prop} (h : ∀ c hc, Confined (G.area c hc) m Q) : Guards G α m :=
  fun c hc => .of_confined hc (h c hc)

instance (kind : LabelKind) : Has (Guards G) (freshLabel kind) :=
  ⟨guards_of_confined fun _ _ => .freshLabel⟩

instance (l : Label) : Has (Guards G) (emitLabel l) :=
  ⟨guards_of_confined fun _ _ => .silent fun _ => rfl⟩

instance (l : Label) : Has (Guards G) (emitGoto l) :=
  ⟨guards_of_confined fun _ _ => .silent fun _ => rfl⟩

/-- A step in a scope of its own, if the state in the scope is watched. -/
theorem Guarded.inScope {kind : ScopeKind} (hc : G.Watches c) (hkind : G.Watches (inside kind c))
    (hm : Guards G α m) : Guarded G (inScope kind m) c where
  emissions e he := by
    rw [emissions_inScope] at he
    exact (hm _ hkind).emissions e he
  yields hy := by
    obtain ⟨c₁, frame, hbody, hrestore, rfl⟩ := yields_inScope hy
    obtain ⟨hc₁, hadvances⟩ := (hm _ hkind).yields hbody
    have hscopes := hadvances.truncate
    have htop : c.frame.top ≤ frame.top := Nat.le_of_eq (Frame.top_restore hrestore).symm
    exact ⟨hc.mono (hc₁.registry.trans hc.registry.symm) hscopes htop, .of_same htop hscopes⟩

/-- Inside of a function, scopes do not change its result. -/
theorem guards_inScope {kind : ScopeKind} (hkind : ∀ s : Scopes, (s.enter kind).function? = s.function?)
    (hm : Guards G α m) : Guards G α (inScope kind m) := fun _ hc =>
  .inScope hc ⟨hc.registry, hc.free.enter _,
    hc.spaced.enter fun f hf => hc.spaced.result f (hkind _ ▸ hf)⟩ hm

end Guards

end ClassLang
