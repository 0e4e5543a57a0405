import ClassLang.Proofs.Dispatch.ObjectTags
import ClassLang.Proofs.Dispatch.Vtable
import ClassLang.Proofs.Registration.Layout
import ClassLang.Proofs.Safety.Tables

/-!
# The registry of an accepted program is sound

When all declarations are registered, what was registered mentions only what is registered: the
slots of a class are in terms of its own methods and of the slots of its bases. Fields lie one
behind the other up to the end of the object, and every slot that is seen is bound. So expressions
can be compiled against that registry.
-/

namespace ClassLang

open CompileM Registration Dispatch

variable {r r' : Registry}

/-! ## Slots -/

/-- The slots of classes are of known types, because what they descend from is. -/
theorem Dispatch.Tables.knows_ranks (ht : Tables r)
    (hinherited : ∀ {h c}, r.class? h = some c → ∀ e ∈ c.inherited.entries, r.KnowsAll e.2)
    (hfunctions : ∀ {id s}, r.function? id = some s → s.Known r) {h : TypeHash} {c : Class}
    (hc : r.class? h = some c) : ∀ k ∈ c.ranks, r.KnowsAll k.params ∧ r.Knows k.result := by
  refine ht.hierarchy.induction
    (P := fun _ c => ∀ k ∈ c.ranks, r.KnowsAll k.params ∧ r.Knows k.result) ?_ hc
  intro h c hc ih k hk
  obtain ⟨own, inh, htabled, hsigned⟩ := ht.tabled hc
  have hown : ∀ o ∈ own, r.KnowsAll o.params ∧ r.Knows o.result := by
    intro o ho
    obtain ⟨s, hs, hdesc⟩ := (hsigned o ho).signature
    exact ⟨hdesc.params ▸ (hfunctions hs).params, hdesc.result ▸ (hfunctions hs).result⟩
  rcases htabled.rank_cases hk with ⟨_, o, ho, heq⟩ | ⟨base, k₀, hdesc⟩
  · rw [heq]
    exact hown o ho
  · obtain ⟨_, b, hb, hbase⟩ := firstSeeing?_sees hdesc.first
    obtain ⟨hparams, hresult⟩ := ih b hb base hbase k₀ hdesc.mem
    refine ⟨?_, ?_⟩
    · rw [hdesc.params]
      intro t ht
      obtain ⟨u, hu, rfl⟩ := List.mem_map.mp ht
      exact (hparams u hu).inOwnTerms (hinherited hc) base
    · rcases hdesc.result with ⟨heq, _⟩ | ⟨o, ho, _, heq, _⟩
      · exact heq ▸ hresult.inOwnTerms (hinherited hc) base
      · exact heq ▸ (hown o ho).2

/-- Building tables and giving names keeps a registry closed. -/
theorem Registry.Closed.tabled (h : r.Closed) (hlayouts : SameLayouts r r')
    (hsigs : SameSignatures r r') (ht : Tables r') : r'.Closed := by
  have hhas : ∀ k, r.Has k → r'.Has k := fun _ => Registry.has_of_map hlayouts.classes
  have hfunctions : ∀ {id s}, r'.function? id = some s → s.Known r' ∧ s.id = id := by
    intro id s hs
    have hid := hsigs id
    rw [hs, Option.map_some, eq_comm, Option.map_eq_some_iff] at hid
    obtain ⟨s₀, hs₀, heq⟩ := hid
    simp only [Signature.mk.injEq] at heq
    obtain ⟨hnumber, _, _, howner, hparams, _, hresult, _⟩ := heq
    have hknown := (h.functions hs₀).mono hhas
    exact ⟨⟨hparams ▸ hknown.params, hresult ▸ hknown.result, howner ▸ hknown.owner⟩,
      hnumber ▸ h.numbered hs₀⟩
  -- Classes and functions are as before but for tables, slots and names, which mention no new
  -- class.
  have hclass : ∀ {k c'}, r'.class? k = some c' → ∃ c : Class, laidOut c = laidOut c' ∧ c.Known r' := by
    intro k c' hc'
    obtain ⟨c, hc, heq⟩ := hlayouts.exists_class_before hc'
    exact ⟨c, heq, (h.classes hc).mono hhas⟩
  have hinherited : ∀ {k c'}, r'.class? k = some c' →
      ∀ e ∈ c'.inherited.entries, r'.KnowsAll e.2 := by
    intro k c' hc'
    obtain ⟨c, heq, hknown⟩ := hclass hc'
    have hargs : c.inherited = c'.inherited := (congrArg Class.inherited heq :)
    exact hargs ▸ hknown.inherited
  refine ⟨hhas _ h.root, fun {k c'} hc' => ?_, fun hs => (hfunctions hs).1, fun hs => (hfunctions hs).2⟩
  obtain ⟨c, heq, hknown⟩ := hclass hc'
  have htemplates : c.templates = c'.templates := (congrArg Class.templates heq :)
  have hbases : c.bases = c'.bases := (congrArg Class.bases heq :)
  have hfields : c.fields = c'.fields := (congrArg Class.fields heq :)
  exact ⟨htemplates ▸ hknown.templates, hbases ▸ hknown.bases, hinherited hc',
    hfields ▸ hknown.fields, ht.knows_ranks hinherited (fun hs => (hfunctions hs).1) hc'⟩

/-! ## The finished registry -/

section Steps

variable {p : Program} {ps ordered : List PendingClass} {methods : List (TypeHash × OwnMethod)}
  {o : Options} {c c₁ c₂ c₃ c₄ c₅ : Compilation}

/-- The classes are laid out when their tables are built. -/
theorem Dispatch.TableSteps.laidOut (hc : Declared c.registry [])
    (h : TableSteps p ps ordered methods c c₁ c₂ c₃ c₄ c₅) {k : TypeHash} {d : Class}
    (hk : c₅.registry.class? k = some d) :
    LaidOut c₅.registry (fun _ _ => True) (fun _ => True) d := by
  obtain ⟨d₂, hd₂, heq⟩ := h.sameLayouts.exists_class_before hk
  have hlaid := layOutAll_laidOut (fun _ _ => True) (runHeaders_headed hc h.headers)
    (runHeaders_bases hc h.headers) trivial (fun _ _ _ _ _ _ _ => trivial) h.layout
  exact LaidOut.congr (hlaid k d₂ hd₂) h.sameLayouts heq

theorem Options.pointerSize_le (h : o.bits = 64 ∨ o.bits = 32) :
    o.pointerSize ≤ Prim.int.size := by
  unfold Options.pointerSize
  rcases h with h | h <;> rw [h] <;> decide

theorem Dispatch.TableSteps.closed (hc : Declared c.registry []) (hclosed : c₃.registry.Closed)
    (h : TableSteps p ps ordered methods c c₁ c₂ c₃ c₄ c₅) : c₅.registry.Closed := by
  refine hclosed.tabled ?_ h.sameSignatures (h.finished hc)
  obtain ⟨hclass, _, hsize⟩ := assignAll_effect h.assigned
  exact (buildMethodTables_keeps h.tables).1.trans ⟨fun b => by rw [hclass], hsize⟩

theorem Dispatch.TableSteps.sound (hstart : Compilation.start o = .ok c)
    (hclosed : c₃.registry.Closed) (h : TableSteps p ps ordered methods c c₁ c₂ c₃ c₄ c₅) :
    c₅.registry.Sound := by
  have hc := declared_start hstart
  have ht := h.finished hc
  have hclosed := h.closed hc hclosed
  refine ⟨?_, fun hk => (hclosed.classes hk).templates, fun {k d} hk f hf => ?_,
    fun {k d} hk rank hrank => ?_, fun hs => ?_⟩
  · rw [h.pointerSize hc, start_registry hstart]
    exact Options.pointerSize_le (Options.bits_of_start hstart)
  · have hlaid := h.laidOut hc hk
    exact ⟨(hlaid.types f hf).1, (hclosed.classes hk).fields f hf, (hlaid.fills.within.2 f hf).2⟩
  · obtain ⟨hparams, hresult⟩ := (hclosed.classes hk).ranks rank hrank
    obtain ⟨m, ⟨_, a, _, A, _, hA, hm, _⟩, himplementation⟩ := ht.implementation? hk hrank
    obtain ⟨⟨s, hs, _⟩, _⟩ := ht.method_spec hA hm
    refine ⟨hparams, hresult, bound m, himplementation, fun id hid => ?_⟩
    unfold bound at hid
    split at hid
    · cases hid
    · injection hid with hid
      exact hid ▸ (Array.getElem?_eq_some_iff.mp hs).1
  · exact ⟨(hclosed.functions hs).params, (hclosed.functions hs).result, (hclosed.functions hs).owner⟩

end Steps

end ClassLang
