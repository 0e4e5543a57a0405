/-!
# Insertion-ordered tables

A `Table` maps keys to values and remembers the order in which keys were first inserted.
Writing a key that is already present changes its value and keeps its place, so the order
of a table only ever grows at the end. Looking a key up finds the first entry under it,
and inserting never makes a second one.
-/

namespace ClassLang

/-- A finite map that keeps its keys in the order of their first insertion. -/
structure Table (κ : Type) (α : Type) where
  entries : List (κ × α)

namespace Table

variable {κ α : Type} [DecidableEq κ]

/-- The table without entries. -/
def empty : Table κ α := ⟨[]⟩

instance : Inhabited (Table κ α) := ⟨empty⟩

/-- The first value stored under `k` in a list of entries. -/
def lookup (k : κ) : List (κ × α) → Option α
  | [] => none
  | (k', v) :: rest => if k' = k then some v else lookup k rest

/-- The value stored under `k`. -/
def find? (t : Table κ α) (k : κ) : Option α := lookup k t.entries

/-- Whether `k` has a value. -/
def contains (t : Table κ α) (k : κ) : Bool := (t.find? k).isSome

/-- Store `v` under `k` in a list of entries, in place if `k` is present, at the end if not. -/
def put (k : κ) (v : α) : List (κ × α) → List (κ × α)
  | [] => [(k, v)]
  | (k', v') :: rest => if k' = k then (k', v) :: rest else (k', v') :: put k v rest

/-- Store `v` under `k`. A present key keeps its place, a new key goes to the end. -/
def insert (t : Table κ α) (k : κ) (v : α) : Table κ α := ⟨put k v t.entries⟩

/-- Apply `f` to the value under `k`, if there is one. -/
def modify (t : Table κ α) (k : κ) (f : α → α) : Table κ α :=
  match t.find? k with
  | some v => t.insert k (f v)
  | none => t

/-- A table with other values. -/
def mapValues {β : Type} (f : α → β) (t : Table κ α) : Table κ β :=
  ⟨t.entries.map fun e => (e.1, f e.2)⟩

/-- The values, in key order. -/
def values (t : Table κ α) : List α := t.entries.map (·.2)

/-- The keys, in order of first insertion. -/
def keys (t : Table κ α) : List κ := t.entries.map (·.1)

/-! ## Lookup after a write -/

theorem lookup_put_self (k : κ) (v : α) (es : List (κ × α)) : lookup k (put k v es) = some v := by
  induction es with
  | nil => simp [put, lookup]
  | cons e rest ih =>
    obtain ⟨k', v'⟩ := e
    by_cases h : k' = k <;> simp [put, lookup, h, ih]

theorem lookup_put_of_ne {k j : κ} (h : k ≠ j) (v : α) (es : List (κ × α)) :
    lookup j (put k v es) = lookup j es := by
  induction es with
  | nil => simp [put, lookup, h]
  | cons e rest ih =>
    obtain ⟨k', v'⟩ := e
    by_cases hk : k' = k
    · subst hk
      simp [put, lookup, h]
    · simp only [put, if_neg hk, lookup, ih]

/-- The value just written is the one found. -/
@[simp]
theorem find?_insert_self (t : Table κ α) (k : κ) (v : α) : (t.insert k v).find? k = some v :=
  lookup_put_self k v t.entries

/-- Writing one key leaves the others alone. -/
theorem find?_insert_of_ne (t : Table κ α) {k j : κ} (h : k ≠ j) (v : α) :
    (t.insert k v).find? j = t.find? j :=
  lookup_put_of_ne h v t.entries

/-- Nothing is stored in the empty table. -/
@[simp]
theorem find?_empty (k : κ) : (empty : Table κ α).find? k = none := rfl

/-- What is found after a change under one key. -/
theorem find?_modify (t : Table κ α) (k j : κ) (f : α → α) :
    (t.modify k f).find? j = if j = k then (t.find? k).map f else t.find? j := by
  unfold modify
  by_cases hj : j = k
  · subst hj
    cases h : t.find? j with
    | none => simp [h]
    | some v => simp
  · rw [if_neg hj]
    cases h : t.find? k with
    | none => rfl
    | some v => exact find?_insert_of_ne t (Ne.symm hj) (f v)

/-! ## Lookup and values -/

theorem find?_mapValues {β : Type} (f : α → β) (t : Table κ α) (k : κ) :
    (t.mapValues f).find? k = (t.find? k).map f := by
  obtain ⟨entries⟩ := t
  induction entries with
  | nil => rfl
  | cons e rest ih =>
    show (if e.1 = k then some (f e.2) else lookup k (rest.map fun e => (e.1, f e.2))) =
      (if e.1 = k then some e.2 else lookup k rest).map f
    split
    · rfl
    · exact ih

theorem mem_values_of_find? {t : Table κ α} {k : κ} {v : α} (h : t.find? k = some v) :
    v ∈ t.values := by
  obtain ⟨entries⟩ := t
  induction entries with
  | nil => cases h
  | cons e rest ih =>
    have h : (if e.1 = k then some e.2 else lookup k rest) = some v := h
    split at h
    · injection h with h
      exact h ▸ List.mem_cons_self
    · exact List.mem_cons_of_mem _ (ih h)

end Table

end ClassLang
