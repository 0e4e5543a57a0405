import ClassLang.Lowering.Names
import ClassLang.Proofs.Safety.Ready

/-!
# Resolving names is safe

Looking a name up changes nothing. Resolving a written type may put off the check of a bound and
changes nothing else, and if the classes in scope are registered, so are those in the type.
-/

namespace ClassLang

open CompileM Lowering

namespace CompileM

variable {α : Type} {r : Registry} {c : Compilation} {R : Compilation → Compilation → Prop}

section Lookup

variable [Steady R]

theorem safe_meaning? {name : String} {Q : Option Meaning → Compilation → Prop}
    (h : Q ((c.scopes.find? name).map (·.meaning)) c) : Safe R (meaning? name) c Q :=
  .get_bind (.pure h)

/-- What a name stands for is what the scopes say. -/
theorem safe_meaning {name : String} {span : Span} :
    Safe R (meaning name span) c fun d c' =>
      c' = c ∧ ∃ e, c.scopes.find? name = some e ∧ e.meaning = d := by
  unfold meaning
  refine (safe_meaning? (Q := fun d c' =>
    c' = c ∧ d = (c.scopes.find? name).map (·.meaning)) ⟨rfl, rfl⟩).bind ?_
  rintro d c₁ - ⟨rfl, rfl⟩
  split
  · rename_i d hd
    obtain ⟨e, he, hed⟩ := Option.map_eq_some_iff.mp hd
    exact .pure ⟨rfl, e, he, hed⟩
  · split
    · exact .fail
    · exact .fail

/-- A native that was required is visible. -/
theorem safe_requireNative {n : Native} {span : Span} :
    Safe R (requireNative n span) c fun _ c' => c' = c ∧ c.scopes.Offers n := by
  unfold requireNative
  refine (safe_meaning? (Q := fun d c' =>
    c' = c ∧ d = (c.scopes.find? n.name).map (·.meaning)) ⟨rfl, rfl⟩).bind ?_
  rintro d c₁ - ⟨rfl, hd⟩
  split
  · exact .fail
  · rename_i hnative
    obtain ⟨e, he, hmeaning⟩ := Option.map_eq_some_iff.mp (hd.symm.trans (not_not.mp hnative))
    exact .pure ⟨rfl, n.name, e, he, hmeaning⟩

/-- The receiver is a variable, and there is one only inside of a method. -/
theorem safe_receiverBinding {span : Span} :
    Safe R (receiverBinding span) c fun b c' => c' = c ∧
      c.scopes.receiverClass?.isSome = true ∧
        ∃ e, c.scopes.find? "this" = some e ∧ e.meaning = .variable b := by
  unfold receiverBinding
  refine .get_bind ?_
  split
  · exact .fail_bind
  · rename_i hmethod
    refine (safe_meaning? (Q := fun d c' =>
      c' = c ∧ d = (c.scopes.find? "this").map (·.meaning)) ⟨rfl, rfl⟩).bind ?_
    rintro d c₁ - ⟨rfl, rfl⟩
    split
    · rename_i b hb
      obtain ⟨e, he, heb⟩ := Option.map_eq_some_iff.mp hb
      refine .pure ⟨rfl, ?_, e, he, heb⟩
      simpa [Option.isSome_iff_ne_none] using hmethod
    · exact .fail

end Lookup

/-! ## Types -/

/-- Nothing changed but what checks are put off. -/
def Defers (c c' : Compilation) : Prop := ∃ checks, c' = { c with deferred := checks }

instance : Steady Defers where
  refl c := ⟨c.deferred, rfl⟩
  trans := by
    rintro _ _ _ ⟨_, rfl⟩ ⟨checks, rfl⟩
    exact ⟨checks, rfl⟩
  depth := by
    rintro _ _ ⟨_, rfl⟩
    exact ⟨rfl, rfl⟩

theorem Defers.extends {c' : Compilation} (h : Defers c c') : Extends c c' := by
  obtain ⟨checks, rfl⟩ := h
  exact { toWithin := .of_same rfl rfl rfl rfl, blocks := rfl, registers := rfl }

theorem Named.defers {c' : Compilation} (h : Named r c) (hd : Defers c c') : Named r c' := by
  obtain ⟨checks, rfl⟩ := hd
  exact h

theorem Defers.registry {c' : Compilation} (h : Defers c c') : c'.registry = c.registry := by
  obtain ⟨checks, rfl⟩ := h
  rfl

theorem safe_checkBound [Steady R] {check : BoundCheck} :
    Safe R (checkBound check) c fun _ c' => c' = c := by
  unfold checkBound
  refine .get_bind ?_
  dsimp only
  split
  · exact .fail
  · exact .pure rfl

theorem safe_checkOrDefer {check : BoundCheck} :
    Safe Defers (checkOrDefer check) c fun _ _ => True := by
  unfold checkOrDefer
  refine .get_bind ?_
  split
  · exact safe_modify ⟨_, rfl⟩ trivial
  · exact safe_checkBound.weaken

mutual

theorem safe_resolveType : ∀ (t : TypeExpr) {c : Compilation}, c.registry = r → Named r c →
    Safe Defers (resolveType t) c fun type _ => r.Knows type
  | .named name args span, c, hr, hn => by
    unfold resolveType
    split
    · split
      · exact .pure (Registry.knows_prim _)
      · exact .fail
    · refine (safe_meaning? (R := Defers) (Q := fun d c' =>
        c' = c ∧ d = (c.scopes.find? name).map (·.meaning)) ⟨rfl, rfl⟩).bind ?_
      rintro d c₁ - ⟨rfl, rfl⟩
      split
      · rename_i hash hd
        obtain ⟨e, he, hed⟩ := Option.map_eq_some_iff.mp hd
        -- A name that stands for a class stands for a registered one.
        have hhas : r.Has hash := by
          have hreg := hn name e he
          rw [hed] at hreg
          exact hreg
        split
        · exact .pure (Registry.knows_classRef.mpr hhas)
        · obtain ⟨k, hk, _⟩ := hhas.getClass
          refine .askRegistry_bind (hr ▸ hk) ?_
          split
          · exact .fail_bind
          · refine (safe_resolveArgs k.name k.templates args hr hn).bind fun as c₁ _ has => ?_
            exact .pure (Registry.knows_applied.mpr ⟨hhas, has⟩)
      · rename_i t hd
        obtain ⟨e, he, hed⟩ := Option.map_eq_some_iff.mp hd
        have hknows : r.Knows t := by
          have hreg := hn name e he
          rw [hed] at hreg
          exact hreg
        split
        · exact .pure hknows
        · exact .fail
      · exact .fail
      · exact .fail
  | .pointer inner _, c, hr, hn => by
    unfold resolveType
    exact (safe_resolveType inner hr hn).bind fun t _ _ ht => .pure ht
  | .array inner _, c, hr, hn => by
    unfold resolveType
    exact (safe_resolveType inner hr hn).bind fun t _ _ ht => .pure ht
  | .function params result _, c, hr, hn => by
    unfold resolveType
    refine (safe_resolveTypes params hr hn).bind fun ps c₁ h₁ hps => ?_
    refine (safe_resolveType result (h₁.registry.trans hr) (Named.defers hn h₁)).bind
      fun t _ _ ht => ?_
    exact .pure (Registry.knows_callable.mpr ⟨hps, ht⟩)

theorem safe_resolveTypes : ∀ (ts : List TypeExpr) {c : Compilation}, c.registry = r →
    Named r c → Safe Defers (resolveTypes ts) c fun types _ => r.KnowsAll types
  | [], c, _, _ => by
    unfold resolveTypes
    exact .pure Registry.knowsAll_nil
  | t :: ts, c, hr, hn => by
    unfold resolveTypes
    refine (safe_resolveType t hr hn).bind fun t c₁ h₁ ht => ?_
    refine (safe_resolveTypes ts (h₁.registry.trans hr) (Named.defers hn h₁)).bind
      fun ts _ _ hts => ?_
    exact .pure (Registry.knowsAll_cons.mpr ⟨ht, hts⟩)

theorem safe_resolveArgs (owner : String) :
    ∀ (ps : List TemplateParam) (ts : List TypeExpr) {c : Compilation}, c.registry = r →
      Named r c → Safe Defers (resolveArgs owner ps ts) c fun types _ => r.KnowsAll types
  | p :: ps, t :: ts, c, hr, hn => by
    unfold resolveArgs
    refine (safe_resolveType t hr hn).bind fun type c₁ h₁ ht => ?_
    refine .get_bind ?_
    refine safe_checkOrDefer.bind fun _ c₂ h₂ _ => ?_
    have h := Steady.trans h₁ h₂
    refine (safe_resolveArgs owner ps ts (h.registry.trans hr) (Named.defers hn h)).bind
      fun types _ _ htypes => ?_
    exact .pure (Registry.knowsAll_cons.mpr ⟨ht, htypes⟩)
  | [], _, c, _, _ => by
    unfold resolveArgs
    exact .pure Registry.knowsAll_nil
  | _ :: _, [], c, _, _ => by
    unfold resolveArgs
    exact .pure Registry.knowsAll_nil

end

theorem safe_resolveClass (hr : c.registry = r) (hn : Named r c) (t : TypeExpr) :
    Safe Defers (resolveClass t) c fun type _ => r.Knows type ∧ type.isClass = true := by
  unfold resolveClass
  refine (safe_resolveType t hr hn).bind fun type c₁ _ ht => ?_
  split
  · rename_i hclass
    exact .pure ⟨ht, hclass⟩
  · exact .typeName_bind .fail

/-- A known type that is like a class has a class tag. -/
theorem safe_classId [Steady R] {t : Ty} (hr : c.registry = r) (ht : r.Knows t)
    (hclass : t.isClassLike = true) :
    Safe R (classId t) c fun id c' => c' = c ∧ (r.Concrete t → r.Tags id) := by
  obtain ⟨h, hh⟩ := Option.isSome_iff_exists.mp hclass
  obtain ⟨k, hk, hfind⟩ := (ht.has hh).getClass
  unfold classId
  rw [hh]
  refine .askRegistry_bind (hr ▸ hk) (.pure ⟨rfl, fun hconcrete => ?_⟩)
  exact ⟨h, k, hfind, rfl, hconcrete h k hh hfind⟩

theorem isClassLike_of_isClass {t : Ty} (h : t.isClass = true) : t.isClassLike = true := by
  cases t with
  | classRef _ | applied _ _ => rfl
  | _ => cases h

/-! ## Names in an expression -/

section Expression

/-- A type that is written in an expression. -/
theorem safe_resolveType_ready (hc : Ready r c) (t : TypeExpr) :
    Safe Extends (resolveType t) c fun type _ => r.Knows type :=
  (safe_resolveType t hc.registry hc.named).widen fun _ => Defers.extends

theorem safe_resolveClass_ready (hc : Ready r c) (t : TypeExpr) :
    Safe Extends (resolveClass t) c fun type _ => r.Knows type ∧ type.isClass = true :=
  (safe_resolveClass hc.registry hc.named t).widen fun _ => Defers.extends

end Expression

end CompileM

end ClassLang
