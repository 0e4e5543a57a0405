import ClassLang.Proofs.Lowering.Piece

/-!
# The code of an expression is a fragment

The code that lowering an expression adds never returns and jumps only inside of itself. A step
that builds one construct out of several parts jumps between the parts, so a fragment may also
have labels outside that it jumps to; they are gone when the construct is complete. `Emits` says
of a step that its code is complete, and there is one instance for each function that lowers
something, so that the fact about a whole is found from those about its parts.
-/

namespace ClassLang

namespace Machine

/-- The labels that some code jumps to. -/
def targets (piece : List Instr) : List Label :=
  piece.filterMap fun
    | .goto l | .ifTrue _ l | .ifFalse _ l => some l
    | _ => none

@[simp]
theorem targets_append (s₁ s₂ : List Instr) : targets (s₁ ++ s₂) = targets s₁ ++ targets s₂ :=
  List.filterMap_append

end Machine

/-- Jumps to `targets` go to labels that are `defined` here or lie `outside`. The labels `placed`
are among those that are defined. -/
structure Settled (targets defined placed outside : List Label) : Prop where
  targets : ∀ l ∈ targets, l ∈ defined ∨ l ∈ outside
  defines : ∀ l ∈ placed, l ∈ defined

namespace Settled

variable {t t₁ t₂ d d₁ d₂ p p₁ p₂ o o₁ o₂ : List Label}

/-- Nothing is jumped to or placed. -/
theorem nil (d o : List Label) : Settled [] d [] o :=
  ⟨fun _ hl => absurd hl List.not_mem_nil, fun _ hl => absurd hl List.not_mem_nil⟩

theorem append (h₁ : Settled t₁ d₁ p₁ o₁) (h₂ : Settled t₂ d₂ p₂ o₂) :
    Settled (t₁ ++ t₂) (d₁ ++ d₂) (p₁ ++ p₂) (o₁ ++ o₂) where
  targets l hl := by
    rw [List.mem_append, List.mem_append]
    rcases List.mem_append.mp hl with hl | hl
    · exact (h₁.targets l hl).imp .inl .inl
    · exact (h₂.targets l hl).imp .inr .inr
  defines l hl := by
    rw [List.mem_append]
    exact (List.mem_append.mp hl).imp (h₁.defines l) (h₂.defines l)

theorem widen (h : Settled t d p o) (ho : ∀ l ∈ o, l ∈ o₁) : Settled t d p o₁ :=
  ⟨fun l hl => (h.targets l hl).imp_right (ho l), h.defines⟩

/-- What is placed is not outside. -/
theorem complete {m : List Label} (h : Settled t d p o) (hperm : m.Perm p)
    (ho : ∀ l ∈ o, l ∈ m ∨ l ∈ o₁) : Settled t d [] o₁ := by
  refine ⟨?_, fun _ hl => absurd hl List.not_mem_nil⟩
  intro l hl
  rcases h.targets l hl with hl | hl
  · exact .inl hl
  · exact (ho l hl).imp_left fun hmade => h.defines l (hperm.mem_iff.mp hmade)

end Settled

open CompileM

namespace Lowering

/-- A step from `c` to `c'` adds a piece of code that never returns and that jumps only inside of
itself and to the labels `outside`. -/
structure Fragment (c c' : Compilation) (piece : List Instr) (made placed outside : List Label) :
    Prop extends Adds c c' piece made placed,
      Settled (Machine.targets piece) (Machine.labels piece) placed outside where
  ret : .ret ∉ piece

namespace Fragment

variable {c c₁ c' : Compilation} {s s₁ s₂ : List Instr} {m m₁ m₂ p p₁ p₂ o o₁ o₂ : List Label}

/-- A step that adds no code. -/
theorem of_adds (h : Adds c c' [] m []) : Fragment c c' [] m [] [] :=
  { h, Settled.nil _ _ with ret := List.not_mem_nil }

theorem nil (c : Compilation) : Fragment c c [] [] [] [] := .of_adds (.nil c)

theorem trans (h₁ : Fragment c c₁ s₁ m₁ p₁ o₁) (h₂ : Fragment c₁ c' s₂ m₂ p₂ o₂) :
    Fragment c c' (s₁ ++ s₂) (m₁ ++ m₂) (p₁ ++ p₂) (o₁ ++ o₂) where
  toAdds := h₁.toAdds.trans h₂.toAdds
  toSettled := by
    rw [Machine.targets_append, Machine.labels_append]
    exact h₁.toSettled.append h₂.toSettled
  ret hmem := (List.mem_append.mp hmem).elim h₁.ret h₂.ret

theorem widen (h : Fragment c c' s m p o) (ho : ∀ l ∈ o, l ∈ o₁) : Fragment c c' s m p o₁ :=
  { h with toSettled := h.toSettled.widen ho }

/-- A construct is complete when it has placed the labels that it made and jumps to no others. -/
theorem complete (h : Fragment c c' s m p o) (hperm : m.Perm p) (ho : ∀ l ∈ o, l ∈ m ∨ l ∈ o₁) :
    Fragment c c' s [] [] o₁ :=
  { h with toAdds := h.toAdds.settle hperm, toSettled := h.toSettled.complete hperm ho }

theorem instr (c : Compilation) {i : Instr} (hi : i.isLabel = false) (hret : i ≠ .ret) :
    Fragment c (c.add [i]) [i] [] [] (Machine.targets [i]) where
  toAdds := adds_emit hi
  toSettled := ⟨fun _ hl => .inr hl, fun _ hl => absurd hl List.not_mem_nil⟩
  ret hmem := hret (List.mem_singleton.mp hmem).symm

theorem straight (c : Compilation) {i : Instr} (hi : i.isStraight = true) :
    Fragment c (c.add [i]) [i] [] [] [] := by
  have htargets : Machine.targets [i] = [] := by
    cases i <;> first | rfl | cases hi
  have hlabel : i.isLabel = false := by
    cases i <;> first | rfl | cases hi
  have hret : i ≠ .ret := by
    rintro rfl
    cases hi
  exact htargets ▸ Fragment.instr c hlabel hret

theorem label (c : Compilation) (l : Label) :
    Fragment c (c.add [.label l]) [.label l] [] [l] [] :=
  { adds_label c l with
    toSettled := ⟨fun _ hl => absurd hl List.not_mem_nil, fun _ hl => hl⟩
    ret := by simp }

theorem goto (c : Compilation) (l : Label) : Fragment c (c.add [.goto l]) [.goto l] [] [] [l] :=
  .instr c rfl Instr.noConfusion

theorem ifTrue (c : Compilation) (a : Address) (l : Label) :
    Fragment c (c.add [.ifTrue a l]) [.ifTrue a l] [] [] [l] := .instr c rfl Instr.noConfusion

theorem ifFalse (c : Compilation) (a : Address) (l : Label) :
    Fragment c (c.add [.ifFalse a l]) [.ifFalse a l] [] [] [l] := .instr c rfl Instr.noConfusion

theorem freshLabel {k : LabelKind} {l : Label} (h : Yields (freshLabel k) c l c') :
    Fragment c c' [] [l] [] [] := .of_adds (adds_freshLabel h)

end Fragment

/-! ## Complete steps -/

/-- The code of the step is a complete fragment. -/
def Emits (α : Type) (m : CompileM α) : Prop :=
  ∀ ⦃c c' a⦄, Yields m c a c' → ∃ piece, Fragment c c' piece [] [] []

variable {α β : Type}

theorem emits_of_keeps (m : CompileM α) [Keeps id m] : Emits α m := by
  intro c c' a h
  have heq : c' = c := h.keeps (f := id)
  exact ⟨[], heq ▸ .nil c⟩

theorem emits_bind {m : CompileM α} {g : α → CompileM β} (hm : Emits α m)
    (hg : ∀ a, Emits β (g a)) : Emits β (m >>= g) := by
  intro c c' b h
  rw [yields_bind] at h
  obtain ⟨a, c₁, h₁, h₂⟩ := h
  obtain ⟨s₁, hs₁⟩ := hm h₁
  obtain ⟨s₂, hs₂⟩ := hg a h₂
  exact ⟨s₁ ++ s₂, hs₁.trans hs₂⟩

theorem emits_emit {i : Instr} {region : Nat} (hi : i.isStraight = true) :
    Emits Unit (emit i region) := by
  intro c c' a h
  rw [yields_emit] at h
  exact ⟨[i], h ▸ .straight c hi⟩

/-- Registers are taken and given back without code. -/
theorem emits_withRegister {body : Register → CompileM α} (hbody : ∀ reg, Emits α (body reg)) :
    Emits α (withRegister body) := by
  intro c c' a h
  obtain ⟨reg, c₁, c₂, hrun, hbefore, hafter⟩ := silent_withRegister h
  obtain ⟨piece, hpiece⟩ := hbody reg hrun
  exact ⟨_, ((Fragment.of_adds hbefore.adds).trans hpiece).trans (.of_adds hafter.adds)⟩

/-- Giving temporaries back does not change the code. -/
theorem fragment_withTemps {body : CompileM α} {c c' : Compilation} {a : α} {outside : List Label}
    (hbody : ∀ ⦃c c' a⦄, Yields body c a c' → ∃ piece, Fragment c c' piece [] [] outside)
    (h : Yields (withTemps body) c a c') : ∃ piece, Fragment c c' piece [] [] outside := by
  obtain ⟨c₁, hrun, _, _, hadds⟩ := adds_withTemps h
  obtain ⟨piece, hpiece⟩ := hbody hrun
  exact ⟨piece, { hadds hpiece.toAdds, hpiece with }⟩

/-- The code of a probe is thrown away, but its labels stay used. -/
theorem emits_probe {body : CompileM α} (hbody : Emits α body) : Emits α (probe body) := by
  intro c c' a h
  simp only [probe, pushBlock, yields_bind, yields_updateFrame, yields_get, yields_modify,
    yields_attempt, yields_modifyFrame, yields_restore, yields_conclude] at h
  obtain ⟨_, _, ⟨rfl, rfl⟩, _, c, ⟨rfl, rfl⟩, _, _, rfl, r, c₁, hrun, _, _, rfl, _, _, rfl, _, _,
    ⟨frame, hrestore, rfl⟩, hr, rfl⟩ := h
  obtain ⟨piece, hpiece⟩ := hbody (yields_of_attempt hrun hr)
  unfold Frame.restore at hrestore
  split at hrestore
  · injection hrestore with hrestore
    subst hrestore
    have hcode : c₁.frame.code.toList = c.frame.code.toList ++ piece := hpiece.code
    refine ⟨[], .of_adds ⟨⟨?_, hpiece.made_le, fun _ => Nat.zero_le _⟩, Nat.le_refl _, hpiece.pool,
      hpiece.sound, ?_⟩⟩
    · simp [Frame.truncate, Frame.pushBlock, hcode]
    · have hcontext := congrArg Compilation.context hpiece.context
      exact hcontext
  · cases hrestore

instance : Basic Emits where
  reads m _ := emits_of_keeps m
  bind := emits_bind
  emit _ _ hi _ := emits_emit hi
  link _ _ := emits_emit
  alloc n c c' a h := by
    rw [yields_alloc] at h
    obtain ⟨_, rfl⟩ := h
    exact ⟨[], .of_adds (adds_alloc _ n)⟩
  intern _ _ _ _ h := ⟨[], .of_adds (adds_intern h).1⟩
  warn _ _ _ _ _ h := ⟨[], .of_adds (adds_warn h).1⟩
  defer _ c c' a h := by
    rw [yields_modify] at h
    subst h
    exact ⟨[], .of_adds (.of_same rfl rfl (Nat.le_refl _) rfl rfl)⟩
  withRegister _ hbody := emits_withRegister hbody
  withTemps hbody _ _ _ h := fragment_withTemps hbody h
  probe := emits_probe

/-- The code of a step of lowering is a complete fragment. -/
theorem emits {m : CompileM α} [h : Has Emits m] {c c' : Compilation} {a : α}
    (hrun : Yields m c a c') : ∃ piece, Fragment c c' piece [] [] [] := h.out hrun

end Lowering

end ClassLang
