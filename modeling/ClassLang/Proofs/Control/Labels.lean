import ClassLang.Proofs.Control.Body
import ClassLang.Proofs.Control.Faithful
import ClassLang.Proofs.Registration.Listing

/-!
# Labels of a whole program

Labels are numbered across the whole compilation, so the labels of different sections are
different. Inside of a section every label that was made for a construct is placed by it, and the
labels that a statement jumps to are those of the statements around it, in the same function.
-/

-- The instances of long steps are large terms.
set_option synthInstance.maxSize 1000

namespace ClassLang

open CompileM Lowering

/-- The code of all functions and of the entry section. -/
def Listing.sections (l : Listing) : List (List Instr) :=
  l.functions.toList.map (·.code.toList) ++ [l.entry.toList]

/-! ## Sections one after the other -/

/-- Sections that were compiled so far: no label is placed twice in them, all of them were made,
and jumps stay in their section. -/
structure Hygienic (c : Compilation) (sections : List (List Instr)) : Prop where
  nodup : (sections.flatMap Machine.labels).Nodup
  made : ∀ l ∈ sections.flatMap Machine.labels, l.id < c.frame.made l.kind
  targets : ∀ code ∈ sections, ∀ l ∈ Machine.targets code, l ∈ Machine.labels code

namespace Hygienic

variable {c c' : Compilation} {sections : List (List Instr)}

theorem nil (c : Compilation) : Hygienic c [] where
  nodup := .nil
  made _ hl := absurd hl List.not_mem_nil
  targets _ hcode := absurd hcode List.not_mem_nil

/-- A section whose labels are new. -/
theorem add (h : Hygienic c sections) {code : List Instr} (hnodup : (Machine.labels code).Nodup)
    (hnew : ∀ l ∈ Machine.labels code, c.frame.made l.kind ≤ l.id ∧ l.id < c'.frame.made l.kind)
    (hle : ∀ k, c.frame.made k ≤ c'.frame.made k)
    (htargets : ∀ l ∈ Machine.targets code, l ∈ Machine.labels code) :
    Hygienic c' (sections ++ [code]) where
  nodup := by
    rw [List.flatMap_append, List.flatMap_singleton, List.nodup_append]
    refine ⟨h.nodup, hnodup, ?_⟩
    rintro l hl k hk rfl
    exact Nat.not_lt.mpr (hnew l hk).1 (h.made l hl)
  made l hl := by
    rw [List.flatMap_append, List.flatMap_singleton, List.mem_append] at hl
    rcases hl with hl | hl
    · exact Nat.lt_of_lt_of_le (h.made l hl) (hle l.kind)
    · exact (hnew l hl).2
  targets s hs := by
    rcases List.mem_append.mp hs with hs | hs
    · exact h.targets s hs
    · obtain rfl := List.mem_singleton.mp hs
      exact htargets

/-- Each label that is jumped to is placed once in the section. -/
theorem count_eq_one (h : Hygienic c sections) {code : List Instr} (hcode : code ∈ sections)
    {l : Label} (hl : l ∈ Machine.targets code) : (Machine.labels code).count l = 1 := by
  have hnodup : (Machine.labels code).Nodup := by
    obtain ⟨before, after, rfl⟩ := List.append_of_mem hcode
    have hall := h.nodup
    rw [List.flatMap_append, List.flatMap_cons] at hall
    exact (List.nodup_append.mp (List.nodup_append.mp hall).2.1).1
  have hle := List.nodup_iff_count.mp hnodup l
  have hpos := List.count_pos_iff.mpr (h.targets code hcode l hl)
  omega

end Hygienic

/-! ## Functions -/

namespace Chunk

theorem mem_targets_codeOf {l : Label} {cs : List Chunk} :
    l ∈ Machine.targets (codeOf cs) ↔ ∃ x ∈ cs, l ∈ Machine.targets x.code := by
  induction cs with
  | nil => simp [Machine.targets]
  | cons x cs ih => simp [ih]

theorem mem_labels_codeOf {l : Label} {cs : List Chunk} {x : Chunk} (hx : x ∈ cs)
    (hl : l ∈ Machine.labels x.code) : l ∈ Machine.labels (codeOf cs) := by
  obtain ⟨before, after, rfl⟩ := List.append_of_mem hx
  rw [codeOf_append, codeOf_cons, Machine.labels_append, Machine.labels_append, List.mem_append,
    List.mem_append]
  exact .inr (.inl hl)

end Chunk

open Chunk

/-- The code of chunks jumps to its own labels and to those around. -/
theorem Compiles.targets_code {c c' : Compilation} {cs : List Chunk} {made placed outside : List Label}
    {results : List Expr} (h : Compiles c c' cs made placed outside results) {l : Label}
    (hl : l ∈ Machine.targets (codeOf cs)) : l ∈ Machine.labels (codeOf cs) ∨ l ∈ outside := by
  obtain ⟨x, hx, hl⟩ := mem_targets_codeOf.mp hl
  have hjump : ∀ {k}, k ∈ Chunk.targets cs → k ∈ Machine.labels (codeOf cs) ∨ k ∈ outside :=
    fun hk => (h.targets _ hk).imp_left mem_labels_of_placed
  have hcompiled := h.compiled x hx
  cases x with
  | leaf _ code => exact .inl (mem_labels_codeOf hx (hcompiled.1.targets l hl))
  | test t code a sense target =>
    rw [Chunk.code, Machine.targets_append, List.mem_append] at hl
    rcases hl with hl | hl
    · refine .inl (mem_labels_codeOf hx ?_)
      rw [Chunk.code, Machine.labels_append, List.mem_append]
      exact .inl (hcompiled.1.targets l hl)
    · obtain rfl : l = target := by
        cases sense <;> exact List.mem_singleton.mp hl
      exact hjump (List.mem_filterMap.mpr ⟨_, hx, rfl⟩)
  | label k => cases hl
  | goto k =>
    obtain rfl := List.mem_singleton.mp hl
    exact hjump (List.mem_filterMap.mpr ⟨_, hx, rfl⟩)
  | ret => cases hl

namespace Bodies

theorem hygienic_compileBody {id : Nat} {body : PendingBody} {c c' : Compilation} {u : Unit}
    (hc : Hygienic c (c.listing.functions.toList.map (·.code.toList)))
    (h : Yields (compileBody id body) c u c') :
    Hygienic c' (c'.listing.functions.toList.map (·.code.toList)) := by
  obtain ⟨s, block, c₀, c₁, cs, n, tail, _, _, hcompiled⟩ := yields_compileBody h
  -- What encloses the chunks, the arguments and a last return, has no labels and jumps nowhere.
  have hquiet : Machine.labels tail = [] ∧ Machine.targets tail = [] := by
    rcases hcompiled.tail_eq with rfl | ⟨rfl, _⟩ <;> exact ⟨rfl, rfl⟩
  have hlabels : Machine.labels (.args n :: (codeOf cs ++ tail)) = Machine.labels (codeOf cs) := by
    show Machine.labels (codeOf cs ++ tail) = _
    rw [Machine.labels_append, hquiet.1, List.append_nil]
  have htargets : Machine.targets (.args n :: (codeOf cs ++ tail)) =
      Machine.targets (codeOf cs) := by
    show Machine.targets (codeOf cs ++ tail) = _
    rw [Machine.targets_append, hquiet.2, List.append_nil]
  have hmade : ∀ k, c.frame.made k ≤ c₀.frame.made k ∧ c'.frame.made k = c₁.frame.made k :=
    hcompiled.made
  have hadd : Hygienic c' (c.listing.functions.toList.map (·.code.toList) ++
      [.args n :: (codeOf cs ++ tail)]) := by
    refine hc.add ?_ ?_ ?_ ?_
    · rw [hlabels]
      exact hcompiled.chunks.labels_nodup
    · intro l hl
      rw [hlabels] at hl
      have hnew := hcompiled.chunks.made_of_mem_labels hl
      have := hmade l.kind
      omega
    · intro k
      have := hmade k
      have := hcompiled.chunks.made_le k
      omega
    · intro l hl
      rw [htargets] at hl
      rw [hlabels]
      exact (hcompiled.chunks.targets_code hl).resolve_right List.not_mem_nil
  rw [hcompiled.listing]
  simpa [Listing.addFunction] using hadd

theorem hygienic_compileBodies {ids : List Nat} {c c' : Compilation} {n : Nat}
    (hc : Hygienic c (c.listing.functions.toList.map (·.code.toList)))
    (h : Yields (compileBodies ids) c n c') :
    Hygienic c' (c'.listing.functions.toList.map (·.code.toList)) := by
  induction ids generalizing c n with
  | nil =>
    rw [compileBodies, yields_pure] at h
    exact h.2 ▸ hc
  | cons id rest ih =>
    simp only [compileBodies, yields_bind, yields_get] at h
    obtain ⟨_, c, ⟨rfl, rfl⟩, h⟩ := h
    split at h
    · exact ih hc h
    · simp only [yields_bind, yields_pure] at h
      obtain ⟨_, c₁, hbody, _, _, hrest, _, rfl⟩ := h
      exact ih (hygienic_compileBody hc hbody) hrest

/-! ## The entry section -/

/-- The step adds code that jumps only inside of itself, and lists nothing. -/
def AddsCode {α : Type} (m : CompileM α) : Prop :=
  ∀ ⦃c c' a⦄, Yields m c a c' → c'.listing = c.listing ∧
    ∃ piece, c.frame.Extends c'.frame piece [] [] ∧
      Settled (Machine.targets piece) (Machine.labels piece) [] []

namespace AddsCode

variable {α β : Type}

theorem bind {m : CompileM α} {g : α → CompileM β} (hm : AddsCode m) (hg : ∀ a, AddsCode (g a)) :
    AddsCode (m >>= g) := by
  intro c c' b h
  rw [yields_bind] at h
  obtain ⟨a, c₁, h₁, h₂⟩ := h
  obtain ⟨hl₁, s₁, hs₁, ht₁⟩ := hm h₁
  obtain ⟨hl₂, s₂, hs₂, ht₂⟩ := hg a h₂
  refine ⟨hl₂.trans hl₁, s₁ ++ s₂, hs₁.trans hs₂, ?_⟩
  rw [Machine.targets_append, Machine.labels_append]
  exact ht₁.append ht₂

/-- Whatever lowers expressions. -/
theorem of_emits (m : CompileM α) [Has Emits m] : AddsCode m := by
  intro c c' a h
  obtain ⟨piece, hpiece⟩ := emits h
  have hlisting := congrArg Compilation.listing hpiece.context
  exact ⟨hlisting, piece, hpiece.toExtends, hpiece.toSettled⟩

theorem inModule {path : String} {body : CompileM α} (hbody : AddsCode body) :
    AddsCode (inModule path body) := by
  intro c c' a h
  obtain ⟨c₁, _, _, hrun, _, rfl⟩ := yields_inModule h
  have hadds := hbody hrun
  exact hadds

theorem forM {g : α → CompileM PUnit} (hg : ∀ a, AddsCode (g a)) (xs : List α) :
    AddsCode (xs.forM g) := by
  induction xs with
  | nil => exact of_emits (pure _)
  | cons x xs ih => exact (hg x).bind fun _ => ih

end AddsCode

instance : Looks entryPoint := by
  unfold entryPoint
  refine .bind fun c => .bind fun c => ?_
  split
  · infer_instance
  · refine .bind fun overloads => ?_
    split <;> infer_instance
  · infer_instance

theorem addsCode_initGlobal (g : PendingGlobal) : AddsCode (initGlobal g) := by
  unfold initGlobal
  refine AddsCode.inModule ?_
  split <;> exact AddsCode.of_emits _

/-- Call the entry point and stop. -/
def startProgram (s : Signature) (base : Address) : CompileM Unit := do
  if !s.params.isEmpty then
    emit (.argv (← alloc (← pointerSize)))
  let region ← fromRegistry fun r => r.length s.result + r.lengths s.params
  emit (.callFn s.mangled base) region
  emit .stop

theorem addsCode_startProgram (s : Signature) (base : Address) :
    AddsCode (startProgram s base) := by
  unfold startProgram
  exact AddsCode.of_emits _

/-- The entry section initializes the globals and then starts the program. -/
theorem compileEntry_spec {c c' : Compilation} {u : Unit} (h : Yields compileEntry c u c') :
    ∃ c₁ s a c₂ c₃,
      Yields (c.globals.forM initGlobal) { c with frame := c.frame.beginFunction } () c₁ ∧
      Yields entryPoint c₁ s c₁ ∧ Yields (allocFor s.result) c₁ a c₂ ∧
      Yields (startProgram s c₁.frame.topAddress) c₂ () c₃ ∧
      c' = { c₃ with frame := c₃.frame.takeCode.2,
                     listing := { c₃.listing with entry := c₃.frame.code } } := by
  simp only [compileEntry, yields_bind, yields_modifyFrame, yields_get] at h
  obtain ⟨_, _, rfl, _, _, ⟨rfl, rfl⟩, _, c₁, hglobals, s, c₂, hentry, _, c₂, ⟨rfl, rfl⟩, a, c₃,
    hresult, h⟩ := h
  obtain rfl : c₂ = c₁ := hentry.keeps (f := id)
  refine ⟨c₂, s, a, c₃, ?_⟩
  -- Calling the entry point is the same with and without the arguments of the program.
  split at h
  · rename_i hargs
    simp only [yields_bind, yields_updateFrame, yields_modify] at h
    obtain ⟨n, c₄, hn, a, c₅, ha, _, c₆, hargv, region, c₆', hregion, _, c₇, hcall, _, c₈, hstop,
      _, _, ⟨rfl, rfl⟩, rfl⟩ := h
    refine ⟨c₈, hglobals, hentry, hresult, ?_, rfl⟩
    simp only [startProgram, hargs, if_true, yields_bind]
    exact ⟨n, c₄, hn, a, c₅, ha, _, c₆, hargv, region, c₆', hregion, _, c₇, hcall, hstop⟩
  · rename_i hargs
    simp only [yields_bind, yields_updateFrame, yields_modify] at h
    obtain ⟨region, c₆, hregion, _, c₇, hcall, _, c₈, hstop, _, _, ⟨rfl, rfl⟩, rfl⟩ := h
    refine ⟨c₈, hglobals, hentry, hresult, ?_, rfl⟩
    rw [startProgram, if_neg hargs]
    simp only [yields_bind]
    exact ⟨region, c₆, hregion, _, c₇, hcall, hstop⟩

theorem yields_compileEntry {c c' : Compilation} {u : Unit} (h : Yields compileEntry c u c') :
    ∃ frame piece, c.frame.beginFunction.Extends frame piece [] [] ∧
      Settled (Machine.targets piece) (Machine.labels piece) [] [] ∧
      (∀ k, c'.frame.made k = frame.made k) ∧
      c'.listing = { c.listing with entry := piece.toArray } := by
  obtain ⟨c₁, s, a, c₂, c₃, hglobals, hentry, hresult, hstart, rfl⟩ := compileEntry_spec h
  obtain ⟨hl₁, s₁, hs₁, ht₁⟩ := AddsCode.forM addsCode_initGlobal _ hglobals
  obtain ⟨hl₂, s₂, hs₂, ht₂⟩ := AddsCode.of_emits _ hresult
  obtain ⟨hl₃, s₃, hs₃, ht₃⟩ := addsCode_startProgram s _ hstart
  have hall := (hs₁.trans hs₂).trans hs₃
  have hsettled := (ht₁.append ht₂).append ht₃
  simp only [← Machine.targets_append, ← Machine.labels_append] at hsettled
  refine ⟨c₃.frame, _, hall, hsettled, fun _ => rfl, ?_⟩
  have hlisting : c₃.listing = c.listing := hl₃.trans (hl₂.trans hl₁)
  have hcode : c₃.frame.code = (s₁ ++ s₂ ++ s₃).toArray := by
    rw [← Array.toList_inj]
    exact hall.code
  rw [← hlisting, ← hcode]

theorem hygienic_compileEntry {c c' : Compilation} {u : Unit}
    (hc : Hygienic c (c.listing.functions.toList.map (·.code.toList)))
    (h : Yields compileEntry c u c') : Hygienic c' c'.listing.sections := by
  obtain ⟨frame, piece, hextends, hsettled, hmade, hlisting⟩ := yields_compileEntry h
  rw [hlisting]
  refine hc.add hextends.labels_nodup ?_ ?_ ?_
  · intro l hl
    have hnew : c.frame.made l.kind ≤ l.id ∧ l.id < frame.made l.kind :=
      hextends.made_of_mem_labels hl
    exact ⟨hnew.1, (hmade l.kind).symm ▸ hnew.2⟩
  · intro k
    have hle : c.frame.made k ≤ frame.made k := hextends.made_le k
    exact (hmade k).symm ▸ hle
  · intro l hl
    exact (hsettled.targets l hl).resolve_right List.not_mem_nil

end Bodies

/-! ## Programs -/

/-- In the listing of a program that compiles no label is placed twice, also not in different
sections, and every label that a section jumps to is placed once in the same section. -/
theorem labels_hygienic {o : Options} {p : Program} {c c' : Compilation}
    (hstart : Compilation.start o = .ok c) (h : Yields (compileProgram p) c () c') :
    (c'.listing.sections.flatMap Machine.labels).Nodup ∧
      ∀ code ∈ c'.listing.sections, ∀ l ∈ Machine.targets code,
        (Machine.labels code).count l = 1 := by
  simp only [compileProgram, Bodies.run, yields_bind, yields_get, yields_pure] at h
  obtain ⟨_, c₁, hregister, _, c₂, ⟨_, c₁, ⟨rfl, rfl⟩, _, c₃, hbodies, _, c₄, hentry, _, rfl⟩, _, rfl⟩ :=
    h
  have hempty : c₁.listing = .empty := by
    rw [hregister.keeps (f := Compilation.listing)]
    simp only [Compilation.start, except_bind_eq_ok, except_pure_eq_ok] at hstart
    obtain ⟨_, _, _, _, rfl⟩ := hstart
    rfl
  have hnone : Hygienic c₁ (c₁.listing.functions.toList.map (·.code.toList)) := by
    rw [hempty]
    exact .nil c₁
  have hall := Bodies.hygienic_compileEntry (Bodies.hygienic_compileBodies hnone hbodies) hentry
  exact ⟨hall.nodup, fun code hcode l hl => hall.count_eq_one hcode hl⟩

/-- Two functions and a global, all with jumps: `var g = if 1 then 2 else 3`,
`f(x: int) int { if x and g { return 1 } else { return 2 } }` and
`main() { while f(g) { switch g { case 1 { break } default { continue } } } }`. -/
def jumpingProgram : Program :=
  let number (v : Int64) := Expr.literal (.int v) .unknown
  let g := Expr.name "g" .unknown
  let int := TypeExpr.named "int" [] .unknown
  let ident (name : String) : Ident := ⟨name, .unknown⟩
  ⟨[⟨"", [
    .global ⟨ident "g", some int, some (.conditional (number 1) (number 2) (number 3) .unknown), false,
      .unknown⟩,
    .function ⟨ident "f", [⟨"x", int, .unknown⟩], some int, some [
      .branch (.binary .and (.name "x" .unknown) g .unknown) [.ret (some (number 1)) .unknown]
        (some (.block [.ret (some (number 2)) .unknown] .unknown)) .unknown], false, false, .unknown⟩,
    .function ⟨ident "main", [], none, some [
      .whileLoop (.call (.name "f" .unknown) [g] .unknown) [
        .switch g [.mk [number 1] [.leave .unknown] .unknown] (some [.again .unknown]) .unknown]
        .unknown], false, false, .unknown⟩]⟩]⟩

/-- The program compiles, and its sections share no label. -/
theorem jumpingProgram_hygienic : ∃ c c', Compilation.start {} = .ok c ∧
    Yields (compileProgram jumpingProgram) c () c' ∧
    (c'.listing.sections.flatMap Machine.labels).Nodup ∧
    ∀ code ∈ c'.listing.sections, ∀ l ∈ Machine.targets code,
      (Machine.labels code).count l = 1 := by
  have hok : ((Compilation.start {}).toOption.any fun c =>
      ((compileProgram jumpingProgram).run.run c).1.isOk) = true := by decide +kernel
  obtain ⟨c, hstart, hok⟩ := exists_ok_of_any hok
  have hrun := yields_of_isOk hok
  exact ⟨c, _, hstart, hrun, labels_hygienic hstart hrun⟩

end ClassLang
