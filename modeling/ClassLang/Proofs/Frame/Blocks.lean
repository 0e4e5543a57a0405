import ClassLang.Code.Frame

/-!
# Blocks are closed last in, first out

A frame is used in any way: blocks are opened, storage is taken, functions are started, and
checkpoints that were returned at some time are restored, also twice or after their block is gone.
What is open is recorded beside the frame, each block as the frame that it was opened in. Restoring
is refused unless as many blocks are open as when the checkpoint was returned, and then it closes
the innermost one. The top goes back to that of the checkpoint. So it goes back to where the
innermost block was opened if the checkpoint is that of a block that is still open; a checkpoint
that outlived its block may lead elsewhere.
-/

namespace ClassLang.Frame

/-- A frame in use. -/
structure History where
  frame : Frame
  /-- The checkpoints that were returned so far. -/
  issued : List Checkpoint
  /-- The frame as it was when each open block was opened, innermost first. -/
  opened : List Frame

namespace History

def start (registerCount : Nat) : History := ⟨.initial registerCount, [], []⟩

def pushBlock (s : History) : History :=
  ⟨s.frame.pushBlock.2, s.frame.pushBlock.1 :: s.issued, s.frame :: s.opened⟩

def alloc (s : History) (length : Nat) : History := { s with frame := (s.frame.alloc length).2 }

def beginFunction (s : History) : History :=
  { s with frame := s.frame.beginFunction, opened := [] }

/-- Restore a checkpoint. If that is refused, the frame is used on as it is. -/
def restore (s : History) (c : Checkpoint) : Except InternalFault Unit × History :=
  match s.frame.restore c with
  | .ok f => (.ok (), { s with frame := f, opened := s.opened.tail })
  | .error e => (.error e, s)

/-- One use of a frame. -/
inductive Step : History → History → Prop where
  | pushBlock (s : History) : Step s s.pushBlock
  | alloc (s : History) (length : Nat) : Step s (s.alloc length)
  | beginFunction (s : History) : Step s s.beginFunction
  | restore {s : History} {c : Checkpoint} (hc : c ∈ s.issued) : Step s (s.restore c).2

/-- What a frame with some registers can come to. -/
inductive Reached (registerCount : Nat) : History → Prop where
  | start : Reached registerCount (start registerCount)
  | step {s s' : History} (h : Reached registerCount s) (hs : Step s s') : Reached registerCount s'

variable {s s' : History} {c : Checkpoint} {b : Frame} {outer : List Frame} {n : Nat}

/-! ## Restoring -/

/-- The history after the innermost block was closed. -/
def closed (s : History) (c : Checkpoint) : History :=
  ⟨{ s.frame with blocks := s.frame.blocks.tail, top := c.top }, s.issued, s.opened.tail⟩

theorem restore_of_eq (h : s.frame.depth = c.depth) : s.restore c = (.ok (), s.closed c) := by
  unfold restore Frame.restore
  rw [if_pos h]
  rfl

theorem restore_of_ne (h : s.frame.depth ≠ c.depth) :
    s.restore c = (.error (.unbalancedRestore c.depth s.frame.depth), s) := by
  unfold restore Frame.restore
  rw [if_neg h]

/-! ## Blocks inside of each other -/

/-- The frame knows where its open blocks were opened. -/
structure Nested (s : History) : Prop where
  blocks : s.frame.blocks = s.opened.map (·.top)
  /-- A block was opened when just the blocks outside of it were open. -/
  inside : ∀ {b outer}, b :: outer <:+ s.opened → b.blocks = outer.map (·.top)
  /-- A checkpoint counts the block that was opened for it. -/
  issued : ∀ c ∈ s.issued, 0 < c.depth

theorem nested_start (registerCount : Nat) : Nested (start registerCount) where
  blocks := rfl
  inside h := absurd (List.suffix_nil.mp h) (List.cons_ne_nil _ _)
  issued _ hc := by cases hc

theorem Nested.pushBlock (h : Nested s) : Nested s.pushBlock where
  blocks := congrArg (s.frame.top :: ·) h.blocks
  inside {b outer} hsuffix := by
    rcases List.suffix_cons_iff.mp hsuffix with heq | hsuffix
    · obtain ⟨rfl, rfl⟩ := List.cons.inj heq
      exact h.blocks
    · exact h.inside hsuffix
  issued c hc := by
    rcases List.mem_cons.mp hc with rfl | hc
    · exact Nat.succ_pos _
    · exact h.issued c hc

theorem Nested.closed (h : Nested s) (c : Checkpoint) : Nested (s.closed c) where
  blocks := by
    show s.frame.blocks.tail = s.opened.tail.map (·.top)
    rw [h.blocks, List.map_tail]
  inside hsuffix := h.inside (hsuffix.trans (List.tail_suffix _))
  issued := h.issued

theorem Nested.step (h : Nested s) (hs : Step s s') : Nested s' := by
  cases hs with
  | pushBlock => exact h.pushBlock
  | alloc => exact ⟨h.blocks, h.inside, h.issued⟩
  | beginFunction =>
    exact ⟨rfl, fun hsuffix => absurd (List.suffix_nil.mp hsuffix) (List.cons_ne_nil _ _), h.issued⟩
  | @restore c _ =>
    by_cases hdepth : s.frame.depth = c.depth
    · rw [restore_of_eq hdepth]
      exact h.closed c
    · rw [restore_of_ne hdepth]
      exact h

theorem Reached.nested (h : Reached n s) : Nested s := by
  induction h with
  | start => exact nested_start n
  | step _ hs ih => exact ih.step hs

theorem Nested.depth (h : Nested s) : s.frame.depth = s.opened.length := by
  show s.frame.blocks.length = s.opened.length
  rw [h.blocks, List.length_map]

/-- The block of a checkpoint is the innermost one if as many blocks are open as the checkpoint
says. -/
theorem Nested.innermost (h : Nested s) (hb : b ∈ s.opened)
    (hdepth : s.opened.length = b.pushBlock.1.depth) : ∃ outer, s.opened = b :: outer := by
  -- The checkpoint counts `b` and what is outside of it, so nothing is open inside of it.
  obtain ⟨inner, outer, hopened⟩ := List.append_of_mem hb
  have hblocks : b.blocks.length = outer.length := by
    rw [h.inside ⟨inner, hopened.symm⟩, List.length_map]
  have hdepth : s.opened.length = b.blocks.length + 1 := hdepth
  have hlength := congrArg List.length hopened
  rw [List.length_append, List.length_cons] at hlength
  obtain rfl : inner = [] := List.length_eq_zero_iff.mp (by omega)
  exact ⟨outer, hopened⟩

/-! ## Where the top goes -/

/-- What becomes of a frame when a checkpoint is restored. -/
structure Restores (s : History) (c : Checkpoint) : Prop where
  ok_iff : (s.restore c).1 = .ok () ↔ s.opened.length = c.depth
  /-- Nothing changes if restoring is refused. -/
  refused : ∀ {e s'}, s.restore c = (.error e, s') → s' = s
  /-- Otherwise the innermost block is closed. The top is the one at which it was opened exactly if
  the checkpoint was returned at the same one. -/
  closes : ∀ {s'}, s.restore c = (.ok (), s') → ∃ b outer, s.opened = b :: outer ∧
    s'.opened = outer ∧ s'.frame.blocks = b.blocks ∧ (s'.frame.top = b.top ↔ c.top = b.top)
  /-- The checkpoint of an open block closes that block or nothing, and leads back to its top. -/
  own : ∀ {b s'}, b ∈ s.opened → b.pushBlock.1 = c → s.restore c = (.ok (), s') →
    s.opened.head? = some b ∧ s'.frame.blocks = b.blocks ∧ s'.frame.top = b.top

theorem Nested.restores_of_ne (h : Nested s) (hdepth : s.frame.depth ≠ c.depth) : Restores s c where
  ok_iff := by
    rw [restore_of_ne hdepth, ← h.depth]
    refine ⟨fun hok => ?_, fun heq => absurd heq hdepth⟩
    cases hok
  refused hrestore := by
    rw [restore_of_ne hdepth] at hrestore
    cases hrestore
    rfl
  closes hrestore := by
    rw [restore_of_ne hdepth] at hrestore
    cases hrestore
  own _ _ hrestore := by
    rw [restore_of_ne hdepth] at hrestore
    cases hrestore

theorem Nested.blocks_closed (h : Nested s) (hopened : s.opened = b :: outer) :
    (s.closed c).frame.blocks = b.blocks := by
  have hsuffix : b :: outer <:+ s.opened := hopened ▸ List.suffix_refl _
  show s.frame.blocks.tail = b.blocks
  rw [h.blocks, hopened, h.inside hsuffix]
  rfl

theorem Nested.restores_of_eq (h : Nested s) (hpos : 0 < c.depth)
    (hdepth : s.frame.depth = c.depth) : Restores s c where
  ok_iff := by
    rw [restore_of_eq hdepth, ← h.depth]
    exact ⟨fun _ => hdepth, fun _ => rfl⟩
  refused hrestore := by
    rw [restore_of_eq hdepth] at hrestore
    cases hrestore
  closes hrestore := by
    rw [restore_of_eq hdepth] at hrestore
    cases hrestore
    rw [h.depth] at hdepth
    obtain ⟨b, outer, hopened⟩ := List.exists_cons_of_length_pos (hdepth ▸ hpos)
    exact ⟨b, outer, hopened, congrArg List.tail hopened, h.blocks_closed hopened, Iff.rfl⟩
  own hb hbc hrestore := by
    rw [restore_of_eq hdepth] at hrestore
    cases hrestore
    rw [h.depth] at hdepth
    obtain ⟨outer, hopened⟩ := h.innermost hb (hbc ▸ hdepth)
    exact ⟨by rw [hopened]; rfl, h.blocks_closed hopened, congrArg Checkpoint.top hbc.symm⟩

/-- Whatever was done with a frame before: restoring a checkpoint closes the innermost block or is
refused, and the top goes back to where that block was opened exactly if the checkpoint was returned
at that top, as is the case for the checkpoint of a block that is open. -/
theorem restore_rewinds_iff (h : Reached n s) (hc : c ∈ s.issued) : Restores s c := by
  by_cases hdepth : s.frame.depth = c.depth
  · exact h.nested.restores_of_eq (h.nested.issued c hc) hdepth
  · exact h.nested.restores_of_ne hdepth

/-- Two blocks are opened, with storage taken before, between and behind. -/
def twoBlocks : History := (((start 8).alloc 8).pushBlock.alloc 1).pushBlock.alloc 4

/-- The checkpoint of the outer block is refused while the inner one is open; that of the inner
block leads back to where it was opened. -/
theorem restore_rewinds_twoBlocks :
    Reached 8 twoBlocks ∧ twoBlocks.issued = [⟨9, 2⟩, ⟨8, 1⟩] ∧
    (twoBlocks.restore ⟨8, 1⟩).1 = .error (.unbalancedRestore 1 2) ∧ Restores twoBlocks ⟨8, 1⟩ ∧
    (twoBlocks.restore ⟨9, 2⟩).2.frame.top = 9 ∧ Restores twoBlocks ⟨9, 2⟩ := by
  have hreached : Reached 8 twoBlocks :=
    .step (.step (.step (.step (.step .start (.alloc _ 8)) (.pushBlock _)) (.alloc _ 1)) (.pushBlock _))
      (.alloc _ 4)
  exact ⟨hreached, rfl, rfl, restore_rewinds_iff hreached (.tail _ (.head _)), rfl,
    restore_rewinds_iff hreached (.head _)⟩

/-- A block is opened and closed, and another one is opened further up. -/
def reopened : History := (((start 8).pushBlock.restore ⟨0, 1⟩).2.alloc 8).pushBlock

/-- The checkpoint of the first block is taken for the second one: the top goes back to 0, and the
second block was opened at 8. -/
theorem restore_can_miss :
    Reached 8 reopened ∧ ⟨0, 1⟩ ∈ reopened.issued ∧ (reopened.restore ⟨0, 1⟩).1 = .ok () ∧
    (reopened.restore ⟨0, 1⟩).2.frame.top = 0 ∧ reopened.opened.map (·.top) = [8] := by
  have hreached : Reached 8 reopened :=
    .step (.step (.step (.step .start (.pushBlock _)) (.restore (.head _))) (.alloc _ 8)) (.pushBlock _)
  exact ⟨hreached, .tail _ (.head _), rfl, rfl, rfl⟩

end History

end ClassLang.Frame
