import ClassLang.Proofs.Elision.Contents
import ClassLang.Proofs.Ty.Lengths

/-!
# Conversions of bytes

What a conversion makes of the bytes of a value depends on the two types alone. Conversions that
copy bits clear a wider place first, so they need their operand to be apart from it; the others
read their operand before they write.
-/

namespace ClassLang

namespace Elision

open CompileM Lowering Machine

variable {u : Arithmetic} {r : Registry} {dest : Option Slot} {top : Nat}
  {c c₁ c' : Compilation}

/-! ## What a step makes of storage -/

/-- The piece of code that a step from `c` to `c'` adds leaves `value` in a slot. Of what lies below
`top` it changes nothing but the destination. -/
structure Maps (u : Arithmetic) (r : Registry) (dest : Option Slot) (top : Nat)
    (c c' : Compilation) (piece : List Instr) (slot : Slot) (value : Store → List UInt8) :
    Prop where
  grows : Grows c c' piece
  literals : c'.literals = c.literals
  runs : ∀ m, ∃ m', Runs u piece m m' ∧ m'.contents r slot = value m ∧ m.Leaves r top dest m'

namespace Maps

variable {s₁ s₂ : List Instr} {slot mid : Slot}

/-- A value that is in its slot already. -/
theorem stay (slot : Slot) : Maps u r dest top c c [] slot (·.contents r slot) :=
  ⟨.nil c, rfl, fun m => ⟨m, .nil m, rfl, .refl _ _ _ m⟩⟩

/-- Steps that add no code. -/
theorem silent {value : Store → List UInt8} (h : Maps u r dest top c₁ c' s₁ slot value)
    (hgrows : Grows c c₁ []) (hliterals : c₁.literals = c.literals) :
    Maps u r dest top c c' s₁ slot value :=
  ⟨hgrows.trans h.grows, h.literals.trans hliterals, h.runs⟩

theorem mono {value : Store → List UInt8} (h : Maps u r dest top c c' s₁ slot value) {low : Nat}
    (hle : low ≤ top) : Maps u r dest low c c' s₁ slot value := by
  refine ⟨h.grows, h.literals, fun m => ?_⟩
  obtain ⟨m', hruns, hvalue, hleaves⟩ := h.runs m
  exact ⟨m', hruns, hvalue, hleaves.mono hle⟩

/-- What the first step makes is what the second starts from. -/
theorem trans {f : Store → List UInt8} {g : List UInt8 → List UInt8}
    (h₁ : Maps u r none top c c₁ s₁ mid f)
    (h₂ : Maps u r dest top c₁ c' s₂ slot fun m => g (m.contents r mid)) :
    Maps u r dest top c c' (s₁ ++ s₂) slot fun m => g (f m) := by
  refine ⟨h₁.grows.trans h₂.grows, h₂.literals.trans h₁.literals, fun m => ?_⟩
  obtain ⟨m₁, hruns₁, hvalue₁, hleaves₁⟩ := h₁.runs m
  obtain ⟨m₂, hruns₂, hvalue₂, hleaves₂⟩ := h₂.runs m₁
  exact ⟨m₂, hruns₁.trans hruns₂, by rw [hvalue₂, hvalue₁],
    (hleaves₁.offer dest).trans hleaves₂ (Nat.le_refl _)⟩

/-- One instruction that writes a slot. -/
theorem emit {i : Instr} {value : Store → List UInt8}
    (hslot : slot.beyond top ∨ slot ∈ dest) (hlen : ∀ m, (value m).length = r.length slot.type)
    (heffect : ∀ m, effect? u i m = some (m.write slot.address (value m))) :
    Maps u r dest top c (c.add [i]) [i] slot value := by
  refine ⟨.emit c i, rfl, fun m => ?_⟩
  exact ⟨_, .effect (heffect m), Store.contents_write (hlen m),
    .write hslot (Nat.le_of_eq (hlen m))⟩

end Maps

/-! ## Copying -/

/-- Copying bytes that are where they should be is no different from doing it. -/
theorem runs_moveCode (dst src : Address) (n : Nat) (m : Store) :
    Runs u (moveCode dst src n) m (m.write dst (m.read src n)) := by
  unfold moveCode
  split
  · exact .effect rfl
  · rename_i h
    have hsame : m.write dst (m.read src n) = m := by
      by_cases heq : dst = src
      · rw [heq]
        exact m.write_read src n
      · have hn : n = 0 := Nat.eq_zero_of_not_pos fun hn => h ⟨heq, hn⟩
        rw [hn]
        exact m.write_read dst 0
    rw [hsame]
    exact .nil m

theorem grows_moveCode (c : Compilation) (dst src : Address) (n : Nat) :
    Grows c (c.add (moveCode dst src n)) (moveCode dst src n) :=
  .of_adds (.of_frame (n := 0) rfl (labels_moveCode ..))

/-- Bytes cut off or filled up with zeros. -/
def resized (n : Nat) (bs : List UInt8) : List UInt8 := (bs ++ List.replicate n 0).take n

theorem resized_of_length_eq {n : Nat} {bs : List UInt8} (h : bs.length = n) :
    resized n bs = bs := by
  rw [resized, ← h, List.take_left]

theorem immediate_zero (n : Nat) : immediate 0 n = List.replicate n 0 := by
  simp [immediate, List.map_const']

/-- Copying bits into a slot that is apart from where they are. -/
theorem maps_copyBits {value slot : Slot} {v : Unit} (hslot : slot.beyond top ∨ slot ∈ dest)
    (hapart : r.length value.type < r.length slot.type → ∀ b, value.spans r b → ¬slot.spans r b)
    (h : Yields (copyBits slot.address value.address (r.length value.type) (r.length slot.type))
      c v c') :
    ∃ piece, Maps u r dest top c c' piece slot fun m =>
      resized (r.length slot.type) (m.contents r value) := by
  unfold copyBits at h
  split at h
  · rename_i hwider
    simp only [yields_bind, yields_emit, yields_move] at h
    obtain ⟨_, _, rfl, rfl⟩ := h
    rw [Nat.min_eq_left (Nat.le_of_lt hwider)]
    refine ⟨_, (Grows.emit c _).trans (grows_moveCode ..), rfl, fun m => ?_⟩
    -- A wider slot is cleared first, which does not touch the value.
    have hclear : Runs u [.imm slot.address 0 (r.length slot.type)] m
        (m.write slot.address (List.replicate (r.length slot.type) 0)) := by
      refine .effect ?_
      rw [effect?, immediate_zero]
    have hvalue : (m.write slot.address (List.replicate (r.length slot.type) 0)).contents r value =
        m.contents r value := by
      refine Store.contents_congr fun b hb => m.write_outside ?_
      intro i hi heq
      exact hapart hwider b hb ⟨i, by simpa using hi, heq⟩
    refine ⟨_, hclear.trans (runs_moveCode _ _ _ _), ?_, ?_⟩
    · rw [Store.contents, Store.read_write_zeros, resized, ← hvalue]
      rfl
    · refine Store.Leaves.trans (.write hslot ?_) (.write hslot ?_) (Nat.le_refl _)
      · simp
      · rw [Store.length_read]
        exact Nat.le_of_lt hwider
  · rename_i hnot
    have hle := Nat.le_of_not_lt hnot
    rw [yields_move, Nat.min_eq_right hle] at h
    subst h
    refine ⟨_, grows_moveCode .., rfl, fun m => ?_⟩
    refine ⟨_, runs_moveCode _ _ _ _, ?_, .write hslot (Nat.le_of_eq (Store.length_read ..))⟩
    rw [Store.contents_write (Store.length_read ..), resized, Store.contents,
      List.take_append_of_le_length (by rw [Store.length_read]; exact hle), Store.take_read,
      Nat.min_eq_left hle]

/-! ## Converting -/

/-- What a conversion makes of the bytes of a value. -/
def converted (u : Arithmetic) (r : Registry) (source target : Ty) (bs : List UInt8) :
    List UInt8 :=
  match (r.conversion? source target).map Conversion.kind with
  | some .identity | some .charByte | none => bs
  | some .intWiden => Prim.int.encode (Bytes.word bs)
  | some .intToFloat => Prim.float.encode (u.intToFloat (Bytes.word bs))
  | some .intNarrow => Prim.char.encode (Bytes.word bs)
  | some .floatToInt =>
    let result := if r.length target = Prim.int.size then Prim.int else Prim.char
    result.encode (u.floatToInt (Bytes.word bs))
  | some _ => resized (r.length target) bs

theorem converted_self (u : Arithmetic) (r : Registry) (t : Ty) (bs : List UInt8) :
    converted u r t t bs = bs := by
  unfold converted Registry.conversion? Registry.conversionAlong?
  rw [if_pos rfl]
  rfl

/-- The word of a value, from its bytes. -/
theorem value_eq_word {value : Slot} {p : Prim} (h : r.length value.type = p.size) (m : Store) :
    m.value p value.address = Bytes.word (m.contents r value) := by
  rw [Store.value, Store.contents, h]

/-- Moving the bytes of a value that is as long as the slot. -/
theorem maps_move {value slot : Slot} {v : Unit} (hslot : slot.beyond top ∨ slot ∈ dest)
    (hlength : r.length value.type = r.length slot.type)
    (h : Yields (move slot.address value.address (r.length slot.type)) c v c') :
    ∃ piece, Maps u r dest top c c' piece slot (·.contents r value) := by
  rw [yields_move] at h
  subst h
  refine ⟨_, grows_moveCode .., rfl, fun m => ⟨_, runs_moveCode _ _ _ _, ?_, ?_⟩⟩
  · rw [Store.contents_write (Store.length_read ..), Store.contents, hlength]
  · exact .write hslot (Nat.le_of_eq (Store.length_read ..))

/-- A character becomes a float by way of an integer, which is written where the float is. -/
theorem maps_charToFloat {value slot : Slot} (hslot : slot.beyond top ∨ slot ∈ dest)
    (hvalue : r.length value.type = Prim.char.size) (hlength : r.length slot.type = 8) :
    Maps u r dest top c
      ((c.add [.convert .charToInt slot.address value.address]).add
        [.convert .intToFloat slot.address slot.address])
      [.convert .charToInt slot.address value.address,
        .convert .intToFloat slot.address slot.address] slot
      fun m => Prim.float.encode (u.intToFloat (Bytes.word (m.contents r value))) := by
  have hlen : ∀ {p : Prim} {w : Int64}, p.size = 8 → (p.encode w).length = r.length slot.type := by
    intro p w hp
    rw [Prim.length_encode, hlength, hp]
  refine ⟨(Grows.emit c _).trans (.emit _ _), rfl, fun m => ?_⟩
  refine ⟨_, (Runs.effect rfl).trans (.effect rfl), ?_, ?_⟩
  · dsimp only [Machine.conversion, id]
    rw [Store.contents_write (hlen rfl), Store.value_write_encode, Prim.fit_int,
      value_eq_word hvalue]
  · exact Store.Leaves.trans (.write hslot (Nat.le_of_eq (hlen rfl)))
      (.write hslot (Nat.le_of_eq (hlen rfl))) (Nat.le_refl _)

/-- A float becomes a character by way of an integer in fresh storage. -/
theorem maps_floatToChar {value slot : Slot} {v : Unit} (hslot : slot.beyond top ∨ slot ∈ dest)
    (htop : top ≤ c.frame.top) (hvalue : r.length value.type = Prim.float.size)
    (hlength : r.length slot.type = 1)
    (h : Yields (do
      let wide ← CompileM.alloc Prim.int.size
      CompileM.emit (.convert .floatToInt wide value.address)
      CompileM.emit (.convert .intToChar slot.address wide)) c v c') :
    ∃ piece, Maps u r dest top c c' piece slot fun m =>
      Prim.char.encode (u.floatToInt (Bytes.word (m.contents r value))) := by
  simp only [yields_bind, yields_alloc, yields_emit, and_assoc, exists_and_left,
    exists_eq_left] at h
  obtain ⟨_, _, rfl, rfl⟩ := h
  refine ⟨_, (Grows.of_adds (adds_alloc c _)).trans ((Grows.emit _ _).trans (.emit _ _)), rfl,
    fun m => ?_⟩
  refine ⟨_, (Runs.effect rfl).trans (.effect rfl), ?_, ?_⟩
  · dsimp only [Machine.conversion, id]
    rw [Store.contents_write (by rw [Prim.length_encode, hlength]; rfl),
      Store.value_write_encode, Prim.fit_int, value_eq_word hvalue]
  · refine Store.Leaves.trans (Store.Leaves.write_beyond
      (s := ⟨.int, .frame c.frame.top⟩) ⟨_, rfl, htop⟩ _) (.write hslot ?_) (Nat.le_refl _)
    rw [Prim.length_encode, hlength]
    exact Nat.le_refl _

/-- Converting into a slot that is apart from the value, or the same. -/
theorem maps_convertInto {value slot : Slot} {k : Conversion} {v : Unit}
    (hk : r.conversion? value.type slot.type = some k) (hr : c.registry = r)
    (hslot : slot.beyond top ∨ slot ∈ dest) (htop : top ≤ c.frame.top)
    (hapart : value.apart r slot) (h : Yields (convertInto value slot k) c v c') :
    ∃ piece, Maps u r dest top c c' piece slot fun m =>
      converted u r value.type slot.type (m.contents r value) := by
  have hlengths := Registry.conversion?_lengths hk
  simp only [convertInto, yields_bind, yields_lengthOf, and_assoc, exists_and_left,
    exists_eq_left, hr] at h
  cases hkind : k.kind
  -- Each kind of conversion is a move, one or two instructions, or a copy of bits.
  all_goals
    simp only [hkind] at h hlengths
    simp only [converted, hk, Option.map_some, hkind]
  case identity => exact maps_move hslot (congrArg r.length hlengths) h
  case charByte => exact maps_move hslot (hlengths.1.trans hlengths.2.symm) h
  case intWiden =>
    rw [yields_emit] at h
    subst h
    refine ⟨_, .emit hslot (fun m => ?_) fun m => ?_⟩
    · rw [Prim.length_encode, hlengths.2]
      rfl
    · rw [← value_eq_word (p := .char) hlengths.1]
      rfl
  case intNarrow =>
    rw [yields_emit] at h
    subst h
    refine ⟨_, .emit hslot (fun m => ?_) fun m => ?_⟩
    · rw [Prim.length_encode, hlengths.2]
      rfl
    · rw [← value_eq_word (p := .int) hlengths.1]
      rfl
  case intToFloat =>
    split at h
    · rename_i hint
      rw [yields_emit] at h
      subst h
      rw [if_pos hint] at hlengths
      refine ⟨_, .emit hslot (fun m => ?_) fun m => ?_⟩
      · rw [Prim.length_encode, hlengths.2]
        rfl
      · rw [← value_eq_word (p := .int) hlengths.1]
        rfl
    · rename_i hint
      simp only [yields_bind, yields_emit] at h
      obtain ⟨_, _, rfl, rfl⟩ := h
      -- A byte goes by way of the slot, as an integer of eight bytes.
      rw [if_neg hint] at hlengths
      exact ⟨_, maps_charToFloat hslot hlengths.1 hlengths.2⟩
  case floatToInt =>
    split at h
    · rename_i hint
      rw [yields_emit] at h
      subst h
      rw [if_pos hint]
      refine ⟨_, .emit hslot (fun m => ?_) fun m => ?_⟩
      · rw [Prim.length_encode, hint]
      · rw [← value_eq_word (p := .float) hlengths.1]
        rfl
    · rename_i hint
      rw [if_neg hint]
      exact maps_floatToChar hslot htop hlengths.1 (hlengths.2.resolve_left hint) h
  all_goals
    refine maps_copyBits hslot (fun hwider => ?_) h
    -- Only a conversion to a wider type clears the slot, and then the two are not the same.
    rcases hapart with heq | hapart
    · exact absurd (congrArg Slot.type heq) hlengths
    · exact hapart

end Elision

end ClassLang
