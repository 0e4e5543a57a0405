import ClassLang.Proofs.Lowering.Context
import ClassLang.Proofs.Lowering.Emission
import ClassLang.Proofs.Machine.Literals
import ClassLang.Proofs.Machine.Run

/-!
# What a compiled piece of code adds

A step of lowering adds a piece of code, takes storage, makes labels and stores literals.
`Adds` keeps the accounts of this. Every label that a piece defines was made by the step itself
or handed to it, and no label is defined twice: counted for each label, those defined in the
piece and those handed out are at most those made and those handed in. The accounts of two steps
add up, so what is made by one and defined by the other cancels.
-/

namespace ClassLang

open CompileM

/-- How many labels of a kind were made. -/
def Frame.made (f : Frame) (k : LabelKind) : Nat := (f.labelCounts.find? k).getD 0

/-- One if a label was made between two states of the frame, zero if not. -/
def Frame.newLabel (f f' : Frame) (l : Label) : Nat :=
  if f.made l.kind ≤ l.id ∧ l.id < f'.made l.kind then 1 else 0

theorem Frame.newLabel_add {f f₁ f₂ : Frame} (h₁ : ∀ k, f.made k ≤ f₁.made k)
    (h₂ : ∀ k, f₁.made k ≤ f₂.made k) (l : Label) :
    f.newLabel f₁ l + f₁.newLabel f₂ l = f.newLabel f₂ l := by
  have := h₁ l.kind
  have := h₂ l.kind
  unfold newLabel
  split <;> split <;> split <;> omega

/-- A frame got `piece` more code. The labels `made` are left to be defined later, and `placed` are
labels made before that the piece defines. -/
structure Frame.Extends (f f' : Frame) (piece : List Instr) (made placed : List Label) : Prop where
  code : f'.code.toList = f.code.toList ++ piece
  made_le : ∀ k, f.made k ≤ f'.made k
  labels : ∀ l, (Machine.labels piece).count l + made.count l ≤
    f.newLabel f' l + placed.count l

namespace Frame.Extends

variable {f f₁ f' : Frame} {s s₁ s₂ : List Instr} {m m₁ m₂ p p₁ p₂ : List Label}

theorem nil (f : Frame) : f.Extends f [] [] [] where
  code := (List.append_nil _).symm
  made_le _ := Nat.le_refl _
  labels _ := Nat.zero_le _

theorem trans (h₁ : f.Extends f₁ s₁ m₁ p₁) (h₂ : f₁.Extends f' s₂ m₂ p₂) :
    f.Extends f' (s₁ ++ s₂) (m₁ ++ m₂) (p₁ ++ p₂) where
  code := by rw [h₂.code, h₁.code, List.append_assoc]
  made_le k := Nat.le_trans (h₁.made_le k) (h₂.made_le k)
  labels l := by
    have hl₁ := h₁.labels l
    have hl₂ := h₂.labels l
    have hadd := Frame.newLabel_add h₁.made_le h₂.made_le l
    rw [Machine.labels_append, List.count_append, List.count_append, List.count_append]
    omega

/-- Labels that are made and then placed are settled. -/
theorem settle (h : f.Extends f' s m p) (hperm : m.Perm p) : f.Extends f' s [] [] where
  code := h.code
  made_le := h.made_le
  labels l := by
    have hl := h.labels l
    have hcount := hperm.count_eq l
    rw [List.count_nil]
    omega

/-- No label of a finished piece is defined twice. -/
theorem labels_nodup (h : f.Extends f' s [] []) : (Machine.labels s).Nodup := by
  rw [List.nodup_iff_count]
  intro l
  have hl := h.labels l
  have hnew : f.newLabel f' l ≤ 1 := by
    unfold Frame.newLabel
    split <;> omega
  rw [List.count_nil] at hl
  omega

/-- The labels of a finished piece are new. -/
theorem made_of_mem_labels (h : f.Extends f' s [] []) {l : Label} (hl : l ∈ Machine.labels s) :
    f.made l.kind ≤ l.id ∧ l.id < f'.made l.kind := by
  have hcount := List.count_pos_iff.mpr hl
  have hnew := h.labels l
  rw [List.count_nil] at hnew
  unfold Frame.newLabel at hnew
  split at hnew
  · assumption
  · omega

/-- Code without labels and storage. -/
theorem of_append (f : Frame) (n : Nat) (hs : Machine.labels s = []) :
    f.Extends ((f.grow n).append s) s [] [] where
  code := Frame.append_code ..
  made_le _ := Nat.le_refl _
  labels l := by
    rw [hs]
    exact Nat.zero_le _

end Frame.Extends

namespace Lowering

/-- A step from `c` to `c'` adds `piece`. It leaves the labels `made` to be defined later, and
`placed` are labels made before that it defines. -/
structure Adds (c c' : Compilation) (piece : List Instr) (made placed : List Label) : Prop
    extends Frame.Extends c.frame c'.frame piece made placed where
  top : c.frame.top ≤ c'.frame.top
  pool : ∃ more, c'.literals.bytes = c.literals.bytes ++ more
  sound : c.literals.Sound → c'.literals.Sound
  context : c'.context = c.context

namespace Adds

/-- A step that leaves code, labels and literals alone. -/
theorem of_same {c c' : Compilation} (hcode : c'.frame.code = c.frame.code)
    (hcounts : c'.frame.labelCounts = c.frame.labelCounts) (htop : c.frame.top ≤ c'.frame.top)
    (hliterals : c'.literals = c.literals) (hcontext : c'.context = c.context) :
    Adds c c' [] [] [] where
  code := by rw [hcode, List.append_nil]
  made_le k := Nat.le_of_eq (by rw [Frame.made, Frame.made, hcounts])
  labels _ := Nat.zero_le _
  top := htop
  pool := ⟨#[], by rw [hliterals, Array.append_empty]⟩
  sound h := hliterals ▸ h
  context := hcontext

theorem nil (c : Compilation) : Adds c c [] [] [] :=
  .of_same rfl rfl (Nat.le_refl _) rfl rfl

theorem trans {c c₁ c₂ : Compilation} {s₁ s₂ : List Instr} {m₁ m₂ p₁ p₂ : List Label}
    (h₁ : Adds c c₁ s₁ m₁ p₁) (h₂ : Adds c₁ c₂ s₂ m₂ p₂) :
    Adds c c₂ (s₁ ++ s₂) (m₁ ++ m₂) (p₁ ++ p₂) where
  toExtends := h₁.toExtends.trans h₂.toExtends
  top := Nat.le_trans h₁.top h₂.top
  pool := by
    obtain ⟨more₁, hmore₁⟩ := h₁.pool
    obtain ⟨more₂, hmore₂⟩ := h₂.pool
    exact ⟨more₁ ++ more₂, by rw [hmore₂, hmore₁, Array.append_assoc]⟩
  sound h := h₂.sound (h₁.sound h)
  context := h₂.context.trans h₁.context

/-- Labels that are made and then placed are settled. -/
theorem settle {c c' : Compilation} {s : List Instr} {m p : List Label} (h : Adds c c' s m p)
    (hperm : m.Perm p) : Adds c c' s [] [] :=
  { h with toExtends := h.toExtends.settle hperm }

theorem registry {c c' : Compilation} {s : List Instr} {m p : List Label}
    (h : Adds c c' s m p) : c'.registry = c.registry := by
  have hcontext := congrArg Compilation.registry h.context
  exact hcontext

theorem scopes {c c' : Compilation} {s : List Instr} {m p : List Label}
    (h : Adds c c' s m p) : c'.scopes = c.scopes := by
  have hcontext := congrArg Compilation.scopes h.context
  exact hcontext

theorem inStore {c c' : Compilation} {s : List Instr} {m p : List Label} (h : Adds c c' s m p)
    {store : Store} (hs : c'.literals.InStore store) : c.literals.InStore store := by
  obtain ⟨more, hmore⟩ := h.pool
  exact hs.of_append hmore

/-- A step that only changes the frame, by code without labels and by storage. -/
theorem of_frame {c c' : Compilation} {s : List Instr} {n : Nat}
    (h : c' = { c with frame := (c.frame.grow n).append s }) (hs : Machine.labels s = []) :
    Adds c c' s [] [] := by
  subst h
  exact { Frame.Extends.of_append c.frame n hs with
    top := Nat.le_add_right ..
    pool := ⟨#[], by simp⟩
    sound := id
    context := rfl }

end Adds

theorem adds_emit {c : Compilation} {i : Instr} (h : i.isLabel = false) :
    Adds c (c.add [i]) [i] [] [] := by
  refine .of_frame (n := 0) rfl ?_
  cases i <;> first | rfl | cases h

theorem adds_label (c : Compilation) (l : Label) :
    Adds c (c.add [.label l]) [.label l] [] [l] where
  code := Frame.append_code ..
  made_le _ := Nat.le_refl _
  labels k := by
    show [l].count k + 0 ≤ _
    omega
  top := Nat.le_refl _
  pool := ⟨#[], Array.append_empty.symm⟩
  sound := id
  context := rfl

theorem adds_alloc (c : Compilation) (n : Nat) :
    Adds c { c with frame := c.frame.grow n } [] [] [] := by
  refine .of_frame (n := n) ?_ rfl
  rw [Frame.append_nil]

theorem adds_freshLabel {c c' : Compilation} {k : LabelKind} {l : Label}
    (h : Yields (freshLabel k) c l c') : Adds c c' [] [l] [] := by
  rw [freshLabel, yields_updateFrame] at h
  obtain ⟨rfl, rfl⟩ := h
  have hmade : ∀ j, (c.frame.freshLabel k).2.made j =
      if j = k then c.frame.made j + 1 else c.frame.made j := by
    intro j
    unfold Frame.made Frame.freshLabel
    split
    · rename_i hj
      rw [hj, Table.find?_insert_self]
      rfl
    · rename_i hj
      rw [Table.find?_insert_of_ne _ (Ne.symm hj)]
  refine ⟨⟨(List.append_nil _).symm, ?_, ?_⟩, Nat.le_refl _, ⟨#[], by simp⟩, id, rfl⟩
  · intro j
    rw [hmade]
    split <;> omega
  · intro l
    rw [Machine.labels_nil, List.count_nil, List.count_singleton]
    unfold Frame.newLabel
    rw [hmade]
    split
    · rename_i heq
      have heq := eq_of_beq heq
      subst heq
      have hkind : (c.frame.freshLabel k).1.kind = k := rfl
      have hid : (c.frame.freshLabel k).1.id = c.frame.made k := rfl
      refine Nat.le_of_eq ?_
      rw [hkind, hid, if_pos rfl, if_pos ⟨Nat.le_refl _, Nat.lt_succ_self _⟩]
    · exact Nat.zero_le _

theorem adds_intern {c c' : Compilation} {l : Literal} {a : Address}
    (h : Yields (intern l) c a c') : Adds c c' [] [] [] ∧
      a = (c.literals.intern l).1 ∧ c'.literals = (c.literals.intern l).2 := by
  rw [intern, yields_modifyGet] at h
  injection h with ha hc
  subst ha hc
  exact ⟨{ Frame.Extends.nil c.frame with
    top := Nat.le_refl _
    pool := c.literals.intern_bytes l
    sound := fun hs => hs.intern l
    context := rfl }, rfl, rfl⟩

/-- A warning is no code. -/
theorem adds_warn {c c' : Compilation} {caution : Caution} {span : Span} {u : Unit}
    (h : Yields (warn caution span) c u c') :
    Adds c c' [] [] [] ∧ c'.frame = c.frame ∧ c'.literals = c.literals := by
  rw [warn, yields_modify] at h
  subst h
  split
  · exact ⟨.of_same rfl rfl (Nat.le_refl _) rfl rfl, rfl, rfl⟩
  · exact ⟨.nil c, rfl, rfl⟩

/-- A step that adds no code and takes no storage. -/
structure Silent (c c' : Compilation) : Prop where
  adds : Adds c c' [] [] []
  top : c'.frame.top = c.frame.top
  literals : c'.literals = c.literals

/-- Registers are taken and given back without code. -/
theorem silent_withRegister {α : Type} {body : Register → CompileM α} {c c' : Compilation} {a : α}
    (h : Yields (withRegister body) c a c') :
    ∃ reg c₁ c₂, Yields (body reg) c₁ a c₂ ∧ Silent c c₁ ∧ Silent c₂ c' := by
  simp only [withRegister, ofInternal, yields_bind, yields_get, yields_conclude,
    yields_modifyFrame, yields_pure] at h
  obtain ⟨_, _, ⟨rfl, rfl⟩, ⟨reg, frame⟩, c, ⟨hacquire, rfl⟩, _, _, rfl, _, c₁, hrun, _, _, rfl,
    rfl, rfl⟩ := h
  have htaken : frame.code = c.frame.code ∧ frame.labelCounts = c.frame.labelCounts ∧
      frame.top = c.frame.top := by
    unfold Frame.acquire at hacquire
    split at hacquire
    · cases hacquire
    · injection hacquire with hacquire
      injection hacquire with _ hframe
      subst hframe
      exact ⟨rfl, rfl, rfl⟩
  obtain ⟨hcode, hcounts, htop⟩ := htaken
  exact ⟨reg, _, c₁, hrun,
    ⟨.of_same hcode hcounts (Nat.le_of_eq htop.symm) rfl rfl, htop, rfl⟩,
    ⟨.of_same rfl rfl (Nat.le_refl _) rfl rfl, rfl, rfl⟩⟩

/-- Giving temporaries back changes nothing but the top of the frame. -/
theorem adds_withTemps {α : Type} {body : CompileM α} {c c' : Compilation} {a : α}
    (h : Yields (withTemps body) c a c') :
    ∃ c₁, Yields body { c with frame := c.frame.pushBlock.2 } a c₁ ∧
      c'.frame.top = c.frame.top ∧ c'.literals = c₁.literals ∧
      ∀ {s m p}, Adds { c with frame := c.frame.pushBlock.2 } c₁ s m p → Adds c c' s m p := by
  obtain ⟨c₁, frame, hbody, hrestore, rfl⟩ := yields_withTemps h
  unfold Frame.restore at hrestore
  split at hrestore
  · injection hrestore with hrestore
    subst hrestore
    refine ⟨c₁, hbody, rfl, rfl, ?_⟩
    intro s m p hadds
    exact ⟨⟨hadds.code, hadds.made_le, hadds.labels⟩, Nat.le_refl _, hadds.pool, hadds.sound,
      hadds.context⟩
  · cases hrestore

end Lowering

end ClassLang
