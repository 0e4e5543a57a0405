import ClassLang.Code.LiteralPool
import ClassLang.Proofs.Machine.Store

/-!
# Literals in storage

The pool only grows at its end, and what was put there under a key stays. For integers and
characters the key is the literal itself, so the bytes at its place are those of the literal.
-/

namespace ClassLang

/-- Integers and characters. -/
def Literal.isIntegral : Literal → Bool
  | int _ | char _ => true
  | _ => false

namespace LiteralPool

/-- A pool that was made by storing literals. -/
inductive Built : LiteralPool → Prop where
  | empty : Built .empty
  | intern {p : LiteralPool} (l : Literal) (h : Built p) : Built (p.intern l).2

/-- At the place of an integer or character there are its bytes. -/
def Sound (p : LiteralPool) : Prop :=
  ∀ l offset, l.isIntegral = true → p.offsets.find? l = some offset →
    ∀ i b, l.encode[i]? = some b → p.bytes[offset + i]? = some b

/-- The literals are in storage. -/
def InStore (p : LiteralPool) (m : Store) : Prop :=
  ∀ i b, p.bytes[i]? = some b → m (.literal i) = b

theorem intern_bytes (p : LiteralPool) (l : Literal) :
    ∃ more, (p.intern l).2.bytes = p.bytes ++ more := by
  unfold intern
  split
  · exact ⟨#[], by simp⟩
  · exact ⟨_, rfl⟩

theorem getElem?_append_of_eq_some {xs ys : Array UInt8} {i : Nat} {b : UInt8}
    (h : xs[i]? = some b) : (xs ++ ys)[i]? = some b := by
  obtain ⟨hi, _⟩ := Array.getElem?_eq_some_iff.mp h
  rw [Array.getElem?_append_left hi]
  exact h

theorem key_of_isIntegral {l : Literal} (h : l.key.isIntegral = true) : l.key = l := by
  cases l <;> first | rfl | cases h

/-- Storing a literal keeps all others, and the literal itself gets a place with its bytes. -/
theorem Sound.intern {p : LiteralPool} (hp : p.Sound) (l : Literal) : (p.intern l).2.Sound := by
  unfold LiteralPool.intern
  split
  · exact hp
  · intro k offset hk hfind i b hb
    dsimp only at hfind ⊢
    by_cases hkey : l.key = k
    · have hl : l.key = l := key_of_isIntegral (hkey ▸ hk)
      rw [hkey, Table.find?_insert_self] at hfind
      injection hfind with hfind
      rw [← hfind, Array.getElem?_append_right (Nat.le_add_right ..), Nat.add_sub_cancel_left,
        ← hl, hkey]
      simpa using hb
    · rw [Table.find?_insert_of_ne _ hkey] at hfind
      exact getElem?_append_of_eq_some (hp k offset hk hfind i b hb)

theorem intern_place {p : LiteralPool} (hp : p.Sound) {l : Literal} (hl : l.isIntegral = true) :
    ∃ offset, (p.intern l).1 = .literal offset ∧
      ∀ i b, l.encode[i]? = some b → (p.intern l).2.bytes[offset + i]? = some b := by
  have hkey : l.key = l := by
    cases l <;> first | rfl | cases hl
  have hsound := hp.intern l
  unfold LiteralPool.intern at hsound ⊢
  split
  · rename_i offset hfind
    rw [hkey] at hfind
    exact ⟨offset, rfl, hp l offset hl hfind⟩
  · rename_i hnone
    rw [hnone] at hsound
    exact ⟨_, rfl, hsound l _ hl (by rw [hkey]; exact Table.find?_insert_self ..)⟩

theorem Built.sound {p : LiteralPool} (h : p.Built) : p.Sound := by
  induction h with
  | empty =>
    intro l offset _ hfind
    rw [LiteralPool.empty, Table.find?_empty] at hfind
    cases hfind
  | intern l _ ih => exact ih.intern l

/-- Storage that holds a pool holds what the pool was before it grew. -/
theorem InStore.of_append {p q : LiteralPool} {m : Store} {more : Array UInt8}
    (h : q.InStore m) (hq : q.bytes = p.bytes ++ more) : p.InStore m := by
  intro i b hb
  exact h i b (hq ▸ getElem?_append_of_eq_some hb)

/-- The bytes of a literal in storage. -/
theorem InStore.read {p : LiteralPool} {m : Store} (h : p.InStore m) {bs : List UInt8}
    {offset : Nat} (hbs : ∀ i b, bs[i]? = some b → p.bytes[offset + i]? = some b) :
    m.read (.literal offset) bs.length = bs := by
  refine List.ext_getElem (m.length_read ..) ?_
  intro i _ hi
  simp only [Store.read, List.getElem_map, List.getElem_range]
  exact h _ _ (hbs i _ (List.getElem?_eq_getElem hi))

end LiteralPool

end ClassLang
