import ClassLang.Compile
import ClassLang.Proofs.Lowering.Brackets
import ClassLang.Proofs.Lowering.Scopes
import ClassLang.Proofs.Lowering.Traversal

/-!
# What diagnostics depend on

Where a value is decides which instructions are emitted and how much storage is taken, and nothing
else. Here this is made precise by forgetting: the *outline* of a state is what is left of it
without the code, the storage of the frame and the places of variables, and outcomes are blurred in
the same way. Two steps *agree* if from states of one outline they come to states of one outline,
with outcomes that look alike when blurred. In particular both fail or none does, with the same
error.

Steps that agree are put together to steps that agree. What follows a step that yields a slot must
agree for any two places of the slot; its type is the same on both sides.
-/

-- The instances of long steps are large terms.
set_option synthInstance.maxSize 1000

namespace ClassLang

open CompileM

/-! ## Forgetting places -/

/-- What is left of a value when places are forgotten. -/
class Blur (α : Type) where
  blur : α → α

export Blur (blur)

instance (priority := low) {α : Type} : Blur α := ⟨id⟩

/-- Values without places. -/
class Exact (α : Type) [Blur α] : Prop where
  eq : ∀ a : α, blur a = a

instance (priority := low) {α : Type} : Exact α := ⟨fun _ => rfl⟩

instance : Blur Address := ⟨fun _ => .frame 0⟩

instance : Blur Slot := ⟨fun s => ⟨s.type, blur s.address⟩⟩

instance : Blur Location where
  blur
    | .fixed a => .fixed (blur a)
    | .through p offset => .through (blur p) offset

instance : Blur Place := ⟨fun p => { p with location := blur p.location }⟩

instance : Blur Binding := ⟨fun b => { b with address := blur b.address }⟩

instance : Blur Meaning where
  blur
    | .variable b => .variable (blur b)
    | d => d

instance : Blur PendingGlobal := ⟨fun g => { g with address := blur g.address }⟩

instance : Blur Entry := ⟨fun e => { e with meaning := blur e.meaning }⟩

instance {α : Type} [Blur α] : Blur (List α) := ⟨List.map blur⟩

instance {α : Type} [Blur α] : Blur (Option α) := ⟨Option.map blur⟩

instance {ε α : Type} [Blur α] : Blur (Except ε α) := ⟨Except.map blur⟩

instance {α β : Type} [Blur α] [Blur β] : Blur (α × β) := ⟨Prod.map blur blur⟩

instance {α β : Type} [Blur α] [Blur β] [Exact α] [Exact β] : Exact (α × β) :=
  ⟨fun (a, b) => Prod.ext (Exact.eq a) (Exact.eq b)⟩

instance {α : Type} [Blur α] [Exact α] : Exact (List α) where
  eq as := by
    have hid : (blur : α → α) = id := funext Exact.eq
    show as.map blur = as
    rw [hid, List.map_id]

instance {ε α : Type} [Blur α] [Exact α] : Exact (Except ε α) where
  eq
    | .error _ => rfl
    | .ok a => congrArg Except.ok (Exact.eq a)

namespace Table

variable {κ α β : Type} [DecidableEq κ]

theorem mapValues_insert (f : α → β) (t : Table κ α) (k : κ) (v : α) :
    (t.insert k v).mapValues f = (t.mapValues f).insert k (f v) := by
  obtain ⟨entries⟩ := t
  refine congrArg Table.mk ?_
  show (put k v entries).map (fun e => (e.1, f e.2)) = put k (f v) (entries.map fun e => (e.1, f e.2))
  induction entries with
  | nil => rfl
  | cons e rest ih =>
    simp only [put, List.map_cons]
    split
    · rfl
    · rw [List.map_cons, ih]

end Table

instance {κ α : Type} [Blur α] : Blur (Table κ α) := ⟨Table.mapValues blur⟩

instance {κ α : Type} [Blur α] [Exact α] : Exact (Table κ α) where
  eq t := by
    have hid : (fun e : κ × α => (e.1, blur e.2)) = id := funext fun e => Prod.ext rfl (Exact.eq e.2)
    show Table.mk (t.entries.map fun e => (e.1, blur e.2)) = t
    rw [hid, List.map_id]

instance : Blur Scope := ⟨fun s => { s with entries := blur s.entries }⟩

instance : Blur Scopes := ⟨fun s => ⟨blur s.global, blur s.inner⟩⟩

/-- A state without its code, its storage in the frame and the places of variables. -/
def Compilation.outline (c : Compilation) : Compilation :=
  { c with
    options := { c.options with optimize := true }
    scopes := blur c.scopes
    moduleScopes := blur c.moduleScopes
    frame := { c.frame with top := 0, blocks := c.frame.blocks.map fun _ => 0, code := #[] }
    listing := .empty
    globals := blur c.globals }

instance : Blur Compilation := ⟨Compilation.outline⟩

instance : Blur Checkpoint := ⟨fun k => { k with top := 0 }⟩

instance : Blur (Array Instr) := ⟨fun _ => #[]⟩

instance : Blur Lowering.Branch := ⟨fun b => { b with value := blur b.value }⟩

/-! ## Values that look alike -/

/-- Two values are the same but for places. -/
class Alike {α : Type} [Blur α] (a b : α) : Prop where
  eq : blur a = blur b

section Alike

variable {α : Type} [Blur α]

instance alike_refl (a : α) : Alike a a := ⟨rfl⟩

/-- Two values that look alike. -/
structure Twins (α : Type) [Blur α] where
  left : α
  right : α
  alike : Alike left right

instance alike_twins (p : Twins α) : Alike p.left p.right := p.alike

theorem Alike.exact {a b : α} [Exact α] (h : Alike a b) : a = b := by
  rw [← Exact.eq a, ← Exact.eq b]
  exact h.eq

instance alike_address (a b : Address) : Alike a b := ⟨rfl⟩

instance (t : Ty) (a b : Address) : Alike (Slot.mk t a) (Slot.mk t b) := ⟨rfl⟩

instance (t : Ty) (l l' : Location) (isConst : Bool) (name : Option String) [h : Alike l l'] :
    Alike (Place.mk t l isConst name) (Place.mk t l' isConst name) :=
  ⟨congrArg (Place.mk t · isConst name) h.eq⟩

instance (a b : α) (as bs : List α) [h : Alike a b] [hs : Alike as bs] :
    Alike (a :: as) (b :: bs) := by
  refine ⟨?_⟩
  show blur a :: blur as = blur b :: blur bs
  rw [h.eq, hs.eq]

instance (v w : Slot) (join : Label) (span : Span) [h : Alike v w] :
    Alike (Lowering.Branch.mk v join span) (Lowering.Branch.mk w join span) :=
  ⟨congrArg (Lowering.Branch.mk · join span) h.eq⟩

end Alike

theorem Alike.type {v w : Slot} (h : Alike v w) : v.type = w.type := by
  have heq := h.eq
  injection heq

theorem Alike.head {α : Type} [Blur α] {a b : α} {as bs : List α}
    (h : Alike (a :: as) (b :: bs)) : Alike a b ∧ Alike as bs :=
  ⟨⟨(List.cons.inj h.eq).1⟩, ⟨(List.cons.inj h.eq).2⟩⟩

/-- Locations that look alike are of one kind. -/
theorem Alike.location_cases {P : Location → Location → Prop} {l l' : Location} (h : Alike l l')
    (hfixed : ∀ a b, P (.fixed a) (.fixed b))
    (hthrough : ∀ p q offset, P (.through p offset) (.through q offset)) : P l l' := by
  have heq := h.eq
  cases l <;> cases l' <;> cases heq
  · exact hfixed _ _
  · exact hthrough _ _ _

instance (l l' : Location) (n : Nat) [h : Alike l l'] : Alike (l.shift n) (l'.shift n) := by
  refine h.location_cases (P := fun l l' => Alike (l.shift n) (l'.shift n)) ?_ ?_
  · exact fun a b => ⟨rfl⟩
  · exact fun p q offset => ⟨rfl⟩

instance (t : Ty) (p q : Address) (offset : Nat) :
    Alike (Place.behind t p offset) (Place.behind t q offset) := ⟨rfl⟩

instance (t : Ty) (a b : Address) : Alike (Place.ofSlot ⟨t, a⟩) (Place.ofSlot ⟨t, b⟩) := ⟨rfl⟩

/-- Meanings that look alike are the same, or variables at two places. -/
theorem Alike.meaning_cases {P : Meaning → Meaning → Prop} {d d' : Meaning} (h : Alike d d')
    (hsame : ∀ d, P d d)
    (hvariable : ∀ t a b isConst span, P (.variable ⟨t, a, isConst, span⟩)
      (.variable ⟨t, b, isConst, span⟩)) : P d d' := by
  have heq := h.eq
  cases d with
  | «variable» b =>
    cases d' with
    | «variable» b' =>
      obtain ⟨t, a, isConst, span⟩ := b
      obtain ⟨t', a', isConst', span'⟩ := b'
      injection heq with heq
      injection heq with ht _ hconst hspan
      subst ht hconst hspan
      exact hvariable _ _ _ _ _
    | _ => cases heq
  | _ =>
    cases d' <;> cases heq
    exact hsame _

section State

variable {c d : Compilation}

theorem Alike.registry (h : Alike c d) : c.registry = d.registry := by
  have heq : c.outline = d.outline := h.eq
  show c.outline.registry = d.outline.registry
  rw [heq]

theorem Alike.path (h : Alike c d) : c.path = d.path := by
  have heq : c.outline = d.outline := h.eq
  show c.outline.path = d.outline.path
  rw [heq]

theorem Alike.bodies (h : Alike c d) : c.bodies = d.bodies := by
  have heq : c.outline = d.outline := h.eq
  show c.outline.bodies = d.outline.bodies
  rw [heq]

theorem Alike.globals (h : Alike c d) : Alike c.globals d.globals := by
  have heq : c.outline = d.outline := h.eq
  refine ⟨?_⟩
  show c.outline.globals = d.outline.globals
  rw [heq]

theorem Alike.entryPoint (h : Alike c d) : c.options.entryPoint = d.options.entryPoint := by
  have heq : c.outline = d.outline := h.eq
  show c.outline.options.entryPoint = d.outline.options.entryPoint
  rw [heq]

theorem Alike.deferring (h : Alike c d) : c.deferring = d.deferring := by
  have heq : c.outline = d.outline := h.eq
  show c.outline.deferring = d.outline.deferring
  rw [heq]

theorem Alike.scopes (h : Alike c d) : Alike c.scopes d.scopes := by
  have heq : c.outline = d.outline := h.eq
  refine ⟨?_⟩
  show c.outline.scopes = d.outline.scopes
  rw [heq]

end State

/-! ## Scopes -/

namespace Scopes

variable {s s' : Scopes}

theorem chain_blur (s : Scopes) : (blur s).chain = blur s.chain := by
  show s.inner.map blur ++ [blur s.global] = (s.inner ++ [s.global]).map blur
  rw [List.map_append]
  rfl

theorem find?_blur (s : Scopes) (name : String) : (blur s).find? name = blur (s.find? name) := by
  unfold find?
  rw [chain_blur]
  show (s.chain.map blur).findSome? _ = (s.chain.findSome? _).map blur
  induction s.chain with
  | nil => rfl
  | cons scope rest ih =>
    have hscope : (blur scope).find? name = (scope.find? name).map blur :=
      Table.find?_mapValues blur scope.entries name
    rw [List.map_cons, List.findSome?_cons, List.findSome?_cons, hscope]
    cases scope.find? name with
    | none => exact ih
    | some e => rfl

theorem kinds_blur (s : Scopes) : (blur s).kinds = s.kinds := by
  unfold kinds
  rw [chain_blur]
  exact List.map_map

theorem kinds_of_alike (h : blur s = blur s') : s.kinds = s'.kinds := by
  rw [← kinds_blur s, h, kinds_blur]

theorem depth_of_alike (h : blur s = blur s') : s.depth = s'.depth := by
  have hkinds := congrArg List.length (kinds_of_alike h)
  simpa [kinds, chain, depth] using hkinds

theorem pop_blur (s : Scopes) : (blur s).pop = blur s.pop := by
  obtain ⟨global, _ | ⟨first, rest⟩⟩ := s <;> rfl

theorem current_blur (s : Scopes) : (blur s).current = blur s.current := by
  obtain ⟨global, _ | ⟨first, rest⟩⟩ := s <;> rfl

end Scopes

/-- Defining a name and forgetting places can be exchanged. -/
theorem Scope.define_blur (s : Scope) (name : String) (d : Meaning) (span : Span) :
    (blur s).define name (blur d) span = blur (s.define name d span) := by
  have hfind : (blur s).find? name = (s.find? name).map blur :=
    Table.find?_mapValues blur s.entries name
  have hinsert : ∀ e : Entry, ({ blur s with entries := (blur s).entries.insert name (blur e) } : Scope) =
      blur { s with entries := s.entries.insert name e } := fun e =>
    congrArg (Scope.mk s.kind) (Table.mapValues_insert blur s.entries name e).symm
  unfold define
  rw [hfind]
  cases hold : s.find? name with
  | none => exact congrArg Except.ok (hinsert ⟨d, span⟩)
  | some e =>
    obtain ⟨old, first⟩ := e
    cases old with
    | functions ids =>
      cases d with
      | functions more => exact congrArg Except.ok (hinsert ⟨.functions (mergeIds ids more), first⟩)
      | _ => rfl
    | _ => cases d <;> rfl

theorem Scopes.define_blur (s : Scopes) (name : String) (d : Meaning) (span : Span) :
    (blur s).define name (blur d) span = blur (s.define name d span) := by
  obtain ⟨global, _ | ⟨first, rest⟩⟩ := s
  · have hglobal := global.define_blur name d span
    simp only [define, defineGlobal]
    show (blur global).define name (blur d) span >>= _ = _
    rw [hglobal]
    cases global.define name d span <;> rfl
  · have hfirst := first.define_blur name d span
    show (blur first).define name (blur d) span >>= _ = _
    rw [hfirst]
    simp only [define]
    cases first.define name d span <;> rfl

end ClassLang
