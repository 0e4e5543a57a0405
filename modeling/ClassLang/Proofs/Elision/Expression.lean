import ClassLang.Proofs.Elision.Switch

/-!
# Elementary expressions agree

Elementary expressions are built from literals, numeric local variables, operators, casts between
numbers, conditionals, switches and assignments to the variables. Compiled twice, such an
expression leaves the same value, whatever destinations the two are offered. What is dereferenced
has to be an address in all its branches: a conditional may also turn a number into a pointer, and
such a pointer may lead to a temporary, which the two have in different places.
-/

namespace ClassLang

/-! ## Elementary expressions -/

/-- The numeric type that a written type is. -/
def TypeExpr.numeric? : TypeExpr → Option Prim
  | .named name [] _ => (Prim.ofName? name).filter (·.isNumeric)
  | _ => none

namespace Scopes

/-- The slot of the variable that a name stands for. -/
def slotOf? (s : Scopes) (name : String) : Option Slot :=
  match s.find? name with
  | some ⟨.variable b, _⟩ => some ⟨b.type, b.address⟩
  | _ => none

/-- The numeric local variable that a name stands for: its type and its place. -/
def number? (s : Scopes) (name : String) : Option (Prim × Nat) :=
  match s.slotOf? name with
  | some ⟨.prim p, .frame offset⟩ => if p.isNumeric then some (p, offset) else none
  | _ => none

theorem slotOf?_eq_some {s : Scopes} {name : String} {v : Slot}
    (h : s.slotOf? name = some v) :
    ∃ b span, s.find? name = some ⟨.variable b, span⟩ ∧ v = ⟨b.type, b.address⟩ := by
  unfold slotOf? at h
  split at h
  · rename_i b span hfind
    injection h with h
    exact ⟨b, span, hfind, h.symm⟩
  · cases h

theorem number?_eq_some {s : Scopes} {name : String} {p : Prim} {offset : Nat}
    (h : s.number? name = some (p, offset)) :
    p.isNumeric = true ∧ s.slotOf? name = some ⟨.prim p, .frame offset⟩ := by
  unfold number? at h
  split at h
  · rename_i hvariable
    split at h
    · rename_i hp
      injection h with h
      injection h with hprim hoffset
      subst hprim hoffset
      exact ⟨hp, hvariable⟩
    · cases h
  · cases h

end Scopes

namespace Expr

/-- Whether an expression is the name of a variable. -/
def isVariable (isNumber : String → Bool) : Expr → Bool
  | name n _ => isNumber n
  | _ => false

mutual

/-- Whether an expression is elementary, given the numeric variables and what may be
dereferenced. -/
def isElementary (isNumber : String → Bool) (mayDeref : Expr → Bool) : Expr → Bool
  | literal .. => true
  | name n _ => isNumber n
  | binary _ l r _ => l.isElementary isNumber mayDeref && r.isElementary isNumber mayDeref
  | unary op e _ => e.isElementary isNumber mayDeref && (op != .deref || mayDeref e)
  | assign target v _ => target.isVariable isNumber && v.isElementary isNumber mayDeref
  | cast e t _ => t.numeric?.isSome && e.isElementary isNumber mayDeref
  | conditional c yes no _ => c.isElementary isNumber mayDeref &&
    (yes.isElementary isNumber mayDeref && no.isElementary isNumber mayDeref)
  | switch subject arms default _ => subject.isElementary isNumber mayDeref &&
    (armsElementary isNumber mayDeref arms && default.isElementary isNumber mayDeref)
  | _ => false

/-- Whether all values and results of some arms are elementary. -/
def armsElementary (isNumber : String → Bool) (mayDeref : Expr → Bool) : List Arm → Bool
  | [] => true
  | .mk vs result _ :: arms => allElementary isNumber mayDeref vs &&
    (result.isElementary isNumber mayDeref && armsElementary isNumber mayDeref arms)

/-- Whether all of some expressions are elementary. -/
def allElementary (isNumber : String → Bool) (mayDeref : Expr → Bool) : List Expr → Bool
  | [] => true
  | e :: es => e.isElementary isNumber mayDeref && allElementary isNumber mayDeref es

end

mutual

/-- Whether the value of an expression is the address of a variable in all its branches. -/
def isAddress : Expr → Bool
  | unary op e _ => op == .addrOf && e.isPlace
  | conditional _ yes no _ => yes.isAddress && no.isAddress
  | switch _ arms default _ => default.isAddress && armsAddress arms
  | _ => false

/-- Whether an expression is a variable, by its name or behind an address. -/
def isPlace : Expr → Bool
  | name .. => true
  | unary op e _ => op == .deref && e.isAddress
  | _ => false

/-- Whether the results of some arms are addresses. -/
def armsAddress : List Arm → Bool
  | [] => true
  | .mk _ result _ :: arms => result.isAddress && armsAddress arms

end

end Expr

namespace Elision

open CompileM Lowering Machine

variable {w : Layout} {c c₁ c₂ c' : Bool → Compilation} {dest : Bool → Option Slot}
  {slot src : Bool → Slot}

/-! ## Literals -/

/-- Steps without code in front do not matter. -/
theorem Computes.silent {piece : Bool → List Instr} {t : Ty} {points : Prop}
    (h : Computes w dest c₁ c' piece slot t points) (hgrows : ∀ i, Grows (c i) (c₁ i) []) :
    Computes w dest c c' piece slot t points where
  grows i := (hgrows i).trans (h.grows i)
  literals := h.literals
  type := h.type
  rests := h.rests.mono (fun i => (hgrows i).top) fun _ => Nat.le_refl _
  pointer := h.pointer
  runs m hm := by
    obtain ⟨m', hruns, hagree, hpoints, hkept⟩ := h.runs m hm
    exact ⟨m', hruns, hagree, hpoints, hkept.mono fun i => (hgrows i).top⟩

/-- Both pools give a literal the same place. -/
theorem agrees_literal (l : Literal) : Agrees w dest (fun _ => literalSlot l) False := by
  intro c c' slot hrun htwins hoffered
  simp only [literalSlot, yields_bind] at hrun
  choose a c₁ hintern hrun using hrun
  choose hadds hplace hpool using fun i => adds_intern (hintern i)
  have hgrows : ∀ i, Grows (c i) (c₁ i) [] := fun i => .of_adds (hadds i)
  have hsame : ∀ i j, a i = a j := fun i j => by rw [hplace i, hplace j, htwins.literals i j]
  have hliterals : ∀ i j, (c₁ i).literals = (c₁ j).literals :=
    fun i j => by rw [hpool i, hpool j, htwins.literals i j]
  obtain ⟨n, hn⟩ : ∃ n, a true = .literal n := by
    rw [hplace true]
    unfold LiteralPool.intern
    split
    · exact ⟨_, rfl⟩
    · exact ⟨_, rfl⟩
  have hat : ∀ i, a i = .literal n := fun i => (hsame i true).trans hn
  -- A number is where its literal is.
  have hnumber : ∀ p : Prim,
      (∀ i, Yields (pure ⟨.prim p, a i⟩ : CompileM Slot) (c₁ i) (slot i) (c' i)) →
      ∃ piece t, Computes w dest c c' piece slot t False := by
    intro p hpure
    have hslot : slot = fun _ => ⟨.prim p, .literal n⟩ := by
      funext i
      rw [(yields_pure.mp (hpure i)).1, hat i]
    have hc' : c' = c₁ := funext fun i => (yields_pure.mp (hpure i)).2
    subst hslot hc'
    exact ⟨_, _, computes_fixed (.inr ⟨n, rfl⟩) hgrows hliterals⟩
  cases l with
  | int v => exact hnumber .int hrun
  | float bits => exact hnumber .float hrun
  | char v => exact hnumber .char hrun
  | str s =>
    simp only [yields_bind, yields_pure] at hrun
    choose block c₂ hblock hslot hc' using hrun
    obtain rfl : slot = fun i => ⟨.string, block i⟩ := funext hslot
    obtain rfl : c' = c₂ := funext hc'
    have htwins₁ := htwins.grows hgrows hliterals
    have hblocks : ∀ i, ∃ piece, Produces w.machine w.registry (dest i) (c₁ i) (c' i) piece
        ⟨.string, block i⟩ .string fun _ => w.machine.pointer (a i) :=
      fun i => produces_block (htwins₁.registry i) w.stores (hblock i)
    choose s hproduces using hblocks
    have hvalue : ∀ m, Common w m → (∀ i j, w.machine.pointer (a i) = w.machine.pointer (a j)) ∧
        (False → ∀ i, Points w .string (w.machine.pointer (a i))) :=
      fun m _ => ⟨fun i j => by rw [hsame i j], False.elim⟩
    exact ⟨s, _, (Computes.of_produces hproduces htwins₁ False.elim hvalue).silent hgrows⟩

/-! ## Variables -/

/-- The names are those of numeric variables. -/
def Names (w : Layout) (isNumber : String → Bool) : Prop :=
  ∀ n, isNumber n = true → ∃ p : Prim, p.isNumeric = true ∧ ∃ offset,
    w.scopes.slotOf? n = some ⟨.prim p, .frame offset⟩ ∧ w.isVariable ⟨.prim p, .frame offset⟩

/-- A name of a variable is its place. -/
theorem yields_namePlace {c c' : Compilation} {n : String} {span : Span} {p : Place} {v : Slot}
    (hn : c.scopes.slotOf? n = some v) (h : Yields (namePlace n span) c p c') :
    c' = c ∧ p.type = v.type ∧ p.location = .fixed v.address := by
  obtain ⟨b, span', hfind, rfl⟩ := Scopes.slotOf?_eq_some hn
  simp only [namePlace, meaning, meaning?, yields_bind, yields_get, yields_pure] at h
  simp only [hfind, and_assoc, exists_and_left, exists_eq_left, Option.map_some,
    yields_pure] at h
  obtain ⟨rfl, rfl⟩ := h
  exact ⟨rfl, rfl, rfl⟩

theorem agrees_name {n : String} {v : Slot} {span : Span} (hn : w.scopes.slotOf? n = some v)
    (hvariable : w.isVariable v) :
    Agrees w dest (fun i => asSlot (namePlace n span) (dest i)) False := by
  intro c c' slot hrun htwins _
  have hstep : ∀ i, c' i = c i ∧ slot i = v := by
    intro i
    obtain ⟨place, c₁, hplace, hread⟩ := yields_bind.mp (hrun i)
    obtain ⟨rfl, htype, hlocation⟩ := yields_namePlace (htwins.scopes i ▸ hn) hplace
    simp only [Lowering.read, hlocation, yields_pure, htype] at hread
    exact hread.symm
  obtain rfl : c' = c := funext fun i => (hstep i).1
  obtain rfl : slot = fun _ => v := funext fun i => (hstep i).2
  exact ⟨_, _, computes_fixed (.inl hvariable) (fun i => .nil (c' i)) htwins.literals⟩

/-! ## Addresses -/

/-- What is known of more expressions is known of fewer. -/
theorem Computes.weaken {piece : Bool → List Instr} {t : Ty} {points points' : Prop}
    (h : Computes w dest c c' piece slot t points) (himp : points' → points) :
    Computes w dest c c' piece slot t points' where
  grows := h.grows
  literals := h.literals
  type := h.type
  rests := h.rests
  pointer hp := h.pointer (himp hp)
  runs m hm := by
    obtain ⟨m', hruns, hagree, hpoints, hkept⟩ := h.runs m hm
    exact ⟨m', hruns, hagree, fun hp => hpoints (himp hp), hkept⟩

theorem Agrees.weaken {step : Bool → CompileM Slot} {points points' : Prop}
    (h : Agrees w dest step points) (himp : points' → points) : Agrees w dest step points' := by
  intro c c' slot hrun htwins hoffered
  obtain ⟨piece, t, hcomputes⟩ := h hrun htwins hoffered
  exact ⟨piece, t, hcomputes.weaken himp⟩

/-- What the slot of a pointer holds is what the machine reads. -/
theorem read_pointer {s : Slot} {t : Ty} (ht : s.type = .pointer t) (m : Store) :
    m.read s.address w.machine.pointerSize = m.contents w.registry s := by
  rw [w.stores.size, Store.contents, ht]
  rfl

theorem yields_pointeePlace {c c' : Compilation} {s : Slot} {span : Span} {p : Place}
    (h : Yields (pointeePlace s span) c p c') :
    c' = c ∧ ∃ t, s.type = .pointer t ∧ p = .behind t s.address 0 := by
  unfold pointeePlace at h
  split at h
  · rename_i t ht
    split at h
    · simp only [yields_bind] at h
      obtain ⟨_, _, _, _, _, hfail, _⟩ := h
      exact absurd hfail yields_fail.mp
    · rw [yields_pure] at h
      exact ⟨h.2, t, ht, h.1⟩
  · simp only [yields_bind] at h
    obtain ⟨_, _, _, hfail⟩ := h
    exact absurd hfail yields_fail.mp

/-- A place behind a pointer to a number. -/
theorem Computes.behind {piece : Bool → List Instr} {t : Ty} {points : Prop} {span : Span}
    {place : Bool → Place} (h : Computes w nowhere c c₁ piece src t points) (hp : points)
    (hpointee : ∀ i, Yields (pointeePlace (src i) span) (c₁ i) (place i) (c₂ i)) :
    c₂ = c₁ ∧ ∃ p : Prim, p.isNumeric = true ∧ t = .pointer (.prim p) ∧
      place = fun i => .behind (.prim p) (src i).address 0 := by
  choose hc₂ inner hinner hbehind using fun i => yields_pointeePlace (hpointee i)
  obtain ⟨p, hnumeric, rfl⟩ := h.pointer hp
  refine ⟨funext hc₂, p, hnumeric, rfl, funext fun i => ?_⟩
  have htype := (hinner i).symm.trans (h.type i)
  injection htype with htype
  rw [hbehind i, htype]

/-- Both sides point to the same variable. -/
theorem Agree.pointee {p : Prim} {m : Bool → Store} (h : Agree w m src)
    (hp : p.isNumeric = true) (htype : ∀ i, (src i).type = .pointer (.prim p))
    (hpoints : ∀ i, Points w (.pointer (.prim p)) ((m i).contents w.registry (src i))) :
    ∃ offset, w.isVariable ⟨.prim p, .frame offset⟩ ∧
      ∀ i, w.machine.pointee ((m i).read (src i).address w.machine.pointerSize) =
        .frame offset := by
  obtain ⟨q, offset, hq, hvariable, hbits⟩ := hpoints true
  injection hq with hq
  injection hq with hq
  subst hq
  refine ⟨offset, hvariable, fun i => ?_⟩
  rw [read_pointer (htype i), h i true, hbits]
  exact w.pointee p offset hp hvariable

/-- Reading through a pointer to a variable is reading the variable. -/
theorem agrees_deref {step : Bool → CompileM Slot} {span : Span} {points : Prop} (hp : points)
    (h : Agrees w nowhere step points) : Agrees w dest
      (fun i => asSlot (do pointeePlace (← step i) span) (dest i)) False := by
  intro c c' slot hrun htwins hoffered
  simp only [asSlot, yields_bind] at hrun
  choose place c₂ hplace hread using hrun
  choose src c₁ hstep hpointee using hplace
  obtain ⟨s₁, t, hcomputes⟩ := h hstep htwins (offered_nowhere w c)
  have htwins₁ := hcomputes.twins htwins
  obtain ⟨rfl, p, hnumeric, rfl, rfl⟩ := hcomputes.behind hp hpointee
  have hbelow := (hoffered.mono hcomputes.top_le).below
  choose s₂ hproduces using fun i => produces_read (u := w.machine) (htwins₁.registry i)
    (hbelow i) (hread i)
  refine ⟨_, _, hcomputes.produce htwins hproduces False.elim fun m hm hagree hpoints => ?_⟩
  obtain ⟨offset, hvariable, hleads⟩ := hagree.pointee hnumeric hcomputes.type (hpoints hp)
  refine ⟨fun i j => ?_, False.elim⟩
  rw [hleads i, hleads j]
  -- The variable is the same in both stores.
  have hfixed : Fixed w ⟨.prim p, .frame offset⟩ := .inl hvariable
  exact Store.contents_congr (s := ⟨.prim p, .frame offset⟩) fun b hb =>
    hm b (hfixed.below b hb) i j

/-- Taking an address is not refused. -/
theorem yields_addressOfOperand {c c' : Compilation} {e : Expr} {p : Place} {span : Span}
    {dest : Option Slot} {slot : Slot} (h : Yields (addressOfOperand e p span dest) c slot c') :
    Yields (addressOf dest p) c slot c' := by
  unfold addressOfOperand at h
  split at h
  · obtain ⟨_, _, hfail, _⟩ := yields_bind.mp h
    exact absurd hfail yields_fail.mp
  · exact h

/-- The address of a number points to it. -/
theorem agrees_addressOf_name {e : Expr} {n : String} {p : Prim} {offset : Nat}
    {span span' : Span} (hp : p.isNumeric = true)
    (hn : w.scopes.slotOf? n = some ⟨.prim p, .frame offset⟩)
    (hvariable : w.isVariable ⟨.prim p, .frame offset⟩) :
    Agrees w dest (fun i => do addressOfOperand e (← namePlace n span) span' (dest i)) True := by
  intro c c' slot hrun htwins hoffered
  simp only [yields_bind] at hrun
  choose place c₁ hplace hrun using hrun
  choose hc₁ htype hlocation using fun i => yields_namePlace (htwins.scopes i ▸ hn) (hplace i)
  obtain rfl : c₁ = c := funext hc₁
  choose s hproduces using fun i => produces_addressOf (htwins.registry i) w.stores
    (hoffered.below i) (yields_addressOfOperand (hrun i))
  simp only [htype, hlocation, located] at hproduces
  refine ⟨s, _, .of_produces hproduces htwins (fun _ => ⟨p, hp, rfl⟩) fun m _ => ?_⟩
  exact ⟨fun _ _ => rfl, fun _ _ => ⟨p, offset, rfl, hvariable, rfl⟩⟩

/-- The address of what a pointer leads to is the pointer. -/
theorem agrees_addressOf_deref {step : Bool → CompileM Slot} {e : Expr} {span span' : Span}
    {points : Prop} (hp : points) (h : Agrees w nowhere step points) :
    Agrees w dest (fun i => do
      addressOfOperand e (← (do pointeePlace (← step i) span)) span' (dest i)) True := by
  intro c c' slot hrun htwins hoffered
  simp only [yields_bind] at hrun
  choose place c₂ hplace hrun using hrun
  choose src c₁ hstep hpointee using hplace
  obtain ⟨s₁, t, hcomputes⟩ := h hstep htwins (offered_nowhere w c)
  have htwins₁ := hcomputes.twins htwins
  obtain ⟨rfl, p, hnumeric, rfl, rfl⟩ := hcomputes.behind hp hpointee
  have hbelow := (hoffered.mono hcomputes.top_le).below
  choose s₂ hproduces using fun i => produces_addressOf (htwins₁.registry i) w.stores
    (hbelow i) (yields_addressOfOperand (hrun i))
  refine ⟨_, _, hcomputes.produce htwins hproduces (fun _ => ⟨p, hnumeric, rfl⟩)
    fun m _ hagree hpoints => ?_⟩
  obtain ⟨offset, hvariable, hleads⟩ := hagree.pointee hnumeric hcomputes.type (hpoints hp)
  have hat : ∀ i, located w.machine (m i) (Place.behind (.prim p) (src i).address 0).location =
      .frame offset := by
    intro i
    show (w.machine.pointee ((m i).read (src i).address w.machine.pointerSize)).shift 0 = _
    rw [shift_zero, hleads i]
  refine ⟨fun i j => ?_, fun _ i => ?_⟩
  · rw [hat i, hat j]
  · rw [hat i]
    exact ⟨p, offset, rfl, hvariable, rfl⟩

/-- Other expressions have no address. -/
theorem agrees_addressOf_refused {e : Expr} {place : CompileM Place} {span : Span} {points : Prop}
    (he : e.isAddressable = false) :
    Agrees w dest (fun i => do addressOfOperand e (← place) span (dest i)) points := by
  intro c c' slot hrun
  obtain ⟨p, c₁, _, h⟩ := yields_bind.mp (hrun true)
  simp only [addressOfOperand, he, Bool.not_false, Bool.true_or, if_true, yields_bind] at h
  obtain ⟨_, _, hfail, _⟩ := h
  exact absurd hfail yields_fail.mp

/-! ## Operators and casts -/

theorem agrees_binary {left right : Bool → CompileM Slot} {op : BinaryOp} {span : Span}
    {points points' : Prop} (hleft : Agrees w nowhere left points)
    (hright : Agrees w nowhere right points') : Agrees w dest (fun i => do
      let lhs ← left i
      let rhs ← right i
      applyBinary op lhs rhs span (dest i)) False :=
  hleft.map₂ hright (operationType op) (operated w.machine w.registry op)
    fun _ _ _ _ _ _ hregistry hlhs hrhs hdest hrun =>
      produces_applyBinary hregistry hlhs hrhs hdest hrun

theorem agrees_negate {step : Bool → CompileM Slot} {span : Span} {points : Prop}
    (h : Agrees w nowhere step points) :
    Agrees w dest (fun i => do negate (← step i) span (dest i)) False :=
  h.map (fun t => if t.isFloat then .float else .int) (negated w.machine w.registry)
    fun _ _ _ _ _ hregistry hvalue hdest hrun => produces_negate hregistry hvalue hdest hrun

theorem agrees_bitNot {step : Bool → CompileM Slot} {span : Span} {points : Prop}
    (h : Agrees w nowhere step points) :
    Agrees w dest (fun i => do applyIntegral .bitNot .bitNot (← step i) span (dest i)) False :=
  h.map (fun _ => .int) (fun t bs => Prim.int.encode (oneOp w.machine .bitNot
      (Bytes.word (converted w.machine w.registry t .int bs))))
    fun _ _ _ _ _ hregistry hvalue hdest hrun =>
      produces_applyIntegral hregistry hvalue hdest hrun

theorem agrees_not {step : Bool → CompileM Address} (h : AgreesWord w step) :
    Agrees w dest (fun i => do applyOne .logicalNot (← step i) .int (dest i)) False := by
  intro c c' slot hrun htwins hoffered
  simp only [yields_bind] at hrun
  choose a c₁ hstep hrun using hrun
  obtain ⟨s₁, hdecides⟩ := h hstep htwins
  have htwins₁ := hdecides.twins htwins
  have htop : ∀ i, tops c i ≤ tops c₁ i := fun i => (hdecides.grows i).top
  have hbelow := (hoffered.mono htop).below
  have hnot : ∀ i, ∃ piece, Produces w.machine w.registry (dest i) (c₁ i) (c' i) piece (slot i)
      .int fun m => Prim.int.encode (oneOp w.machine .logicalNot
        (Bytes.word (m.contents w.registry ⟨.int, a i⟩))) :=
    fun i => produces_applyOne (htwins₁.registry i) rfl rfl (hbelow i) (hrun i)
  choose s₂ hproduces using hnot
  refine ⟨_, .int, fun i => (hdecides.grows i).trans (hproduces i).grows, ?_,
    fun i => (hproduces i).type, ?_, False.elim, fun m hm => ?_⟩
  · exact (htwins₁.step (fun i => (hproduces i).grows) fun i => (hproduces i).literals).literals
  · exact .of_receives (fun i => (hproduces i).writable.imp_left fun h => h.mono (htop i))
      fun i => (hproduces i).below
  · obtain ⟨m₁, hruns₁, hword, hkept⟩ := hdecides.runs m hm
    choose m₂ hruns₂ hcontents hleaves using fun i => (hproduces i).runs (m₁ i)
    refine ⟨m₂, fun i => (hruns₁ i).trans (hruns₂ i), fun i j => ?_, False.elim, ?_⟩
    · have hbits : ∀ i, Bytes.word ((m₁ i).contents w.registry ⟨.int, a i⟩) =
          (m₁ i).word (a i) := fun i => (@word_eq w.registry ⟨.int, a i⟩ rfl (m₁ i)).symm
      rw [hcontents i, hcontents j, hbits i, hbits j, hword i j]
    · exact (hkept.offer dest).leave hleaves htop htwins₁.limit

theorem yields_resolveType {t : TypeExpr} {p : Prim} {c c' : Compilation} {type : Ty}
    (ht : t.numeric? = some p) (h : Yields (resolveType t) c type c') :
    type = .prim p ∧ c' = c := by
  cases t with
  | named name args span =>
    cases args with
    | cons t ts => cases ht
    | nil =>
      obtain ⟨hname, _⟩ := Option.filter_eq_some_iff.mp ht
      simp only [resolveType, hname, List.isEmpty_nil, if_true, yields_pure] at h
      exact h
  | _ => cases ht

/-- A cast to the type that a value has takes no code. -/
theorem agrees_cast {step : Bool → CompileM Slot} {target : TypeExpr} {p : Prim} {span : Span}
    {points : Prop} (htarget : target.numeric? = some p) (h : Agrees w nowhere step points) :
    Agrees w dest (fun i => do
      let value ← step i
      castTo value (← resolveType target) span (dest i)) False := by
  intro c c' slot hrun htwins hoffered
  simp only [yields_bind] at hrun
  choose src c₁ hstep type c₂ htype hrun using hrun
  obtain ⟨s₁, t, hcomputes⟩ := h hstep htwins (offered_nowhere w c)
  obtain rfl : type = fun _ => .prim p :=
    funext fun i => (yields_resolveType htarget (htype i)).1
  obtain rfl : c₂ = c₁ := funext fun i => (yields_resolveType htarget (htype i)).2
  have htwins₁ := hcomputes.twins htwins
  have hoffered₁ := hoffered.mono hcomputes.top_le
  have hbelow := hcomputes.rests.below htwins₁ (offered_nowhere w c₂)
  have hapart := (hcomputes.rests.offer dest).apart hoffered
  have hcast := fun i => produces_castTo (u := w.machine) (htwins₁.registry i) (hbelow i)
    (hoffered₁.below i) (hapart i) (hrun i)
  simp only [hcomputes.type] at hcast
  by_cases ht : t = .prim p
  · obtain rfl : slot = src := funext fun i => ((hcast i).resolve_right fun h => h.1 ht).2.1
    obtain rfl : c' = c₂ := funext fun i => ((hcast i).resolve_right fun h => h.1 ht).2.2
    exact ⟨s₁, t, (hcomputes.offer dest).weaken False.elim⟩
  · choose s₂ hproduces using fun i => ((hcast i).resolve_left fun h => ht h.1).2
    refine ⟨_, _, hcomputes.produce htwins hproduces False.elim fun m _ hagree _ => ?_⟩
    exact ⟨fun i j => congrArg (casted w.machine w.registry t (.prim p)) (hagree i j), False.elim⟩

/-! ## Assignments -/

theorem yields_checkAssignable {target : Expr} {p : Place} {span : Span} {c c' : Compilation}
    {v : Unit} (h : Yields (checkAssignable target p span) c v c') : c' = c := by
  have hconst : ∀ {c₁ : Compilation}, Yields (if p.isConst then
      CompileM.fail (.assignToConst (p.name.getD "value")) span
      else (pure () : CompileM Unit)) c₁ v c' → c' = c₁ := by
    intro c₁ h
    split at h
    · exact absurd h yields_fail.mp
    · exact (yields_pure.mp h).2
  unfold checkAssignable at h
  dsimp only at h
  split at h
  · split at h
    · obtain ⟨_, _, hfail, _⟩ := yields_bind.mp h
      exact absurd hfail yields_fail.mp
    · exact hconst h
  · exact hconst h

/-- When both have assigned to a variable, it holds the same in both. -/
theorem agrees_assign {n : String} {v : Slot} {target : Expr} {nameSpan span : Span}
    (hn : w.scopes.slotOf? n = some v) (hvariable : w.isVariable v)
    {leave : Slot → CompileM Unit} {stored : Place → CompileM Slot}
    (hleave : AgreesInto w fun _ => leave) :
    Agrees w dest (fun _ => do
      let p ← namePlace n nameSpan
      checkAssignable target p span
      writePlace p leave (stored p)) False := by
  intro c c' slot hrun htwins _
  simp only [yields_bind] at hrun
  choose place c₁ hplace _ c₂ hcheck hwrite using hrun
  choose hc₁ htype hlocation using fun i => yields_namePlace (htwins.scopes i ▸ hn) (hplace i)
  obtain rfl : c₁ = c := funext hc₁
  obtain rfl : c₂ = c₁ := funext fun i => yields_checkAssignable (hcheck i)
  simp only [writePlace, hlocation, htype, yields_bind, yields_pure] at hwrite
  choose _ c₃ hrun hslot hc' using hwrite
  obtain rfl : slot = fun _ => v := funext hslot
  obtain rfl : c' = c₃ := funext hc'
  have hfixed : Fixed w v := .inl hvariable
  have hoffered : Offered w c₂ fun _ => some v := by
    intro i d hd
    obtain rfl := Option.some.inj hd
    exact ⟨hfixed.below.mono (htwins.limit i), .inl hvariable⟩
  obtain ⟨piece, hfills⟩ := hleave hrun htwins hoffered fun _ _ => rfl
  refine ⟨piece, v.type, hfills.grows, hfills.literals, fun _ => rfl,
    .inl ⟨v, hfixed, fun _ => rfl⟩, False.elim, fun m hm => ?_⟩
  obtain ⟨m', hruns, hagree, hkept⟩ := hfills.runs m hm
  exact ⟨m', hruns, hagree, False.elim, (hkept.of_variable hvariable hagree).offer dest⟩

/-! ## The tree -/

theorem place_assign_name (dest : Option Slot) (n : String) (nameSpan : Span) (v : Expr)
    (span : Span) : place dest (.assign (.name n nameSpan) v span) = slotPlace (do
      let p ← namePlace n nameSpan
      checkAssignable (.name n nameSpan) p span
      writePlace p
        (fun result => do settle (← asSlot (place (some result) v) (some result)) result v.span)
        (do coerce (← asValue v (place none v) none) p.type v.span)) := by
  rw [place, place]
  rfl

theorem isAddress_of_mem : ∀ {arms : List Arm}, Expr.armsAddress arms = true →
    ∀ arm ∈ arms, arm.result.isAddress = true
  | [], _, _, harm => absurd harm List.not_mem_nil
  | .mk _ result _ :: arms, h, arm, harm => by
    obtain ⟨hresult, hrest⟩ := Bool.and_eq_true_iff.mp h
    rcases List.mem_cons.mp harm with rfl | harm
    · exact hresult
    · exact isAddress_of_mem hrest arm harm

section Tree

-- The names are used through the recursion.
set_option linter.unusedSectionVars false

variable {isNumber : String → Bool} (hnames : Names w isNumber)

include hnames

mutual

theorem place_agrees : ∀ e : Expr, e.isElementary isNumber Expr.isAddress = true →
    ∀ dest : Bool → Option Slot,
      Agrees w dest (fun i => asSlot (place (dest i) e) (dest i)) (e.isAddress = true)
  | .literal l _, _, dest => by
    simp only [place]
    exact ((agrees_literal l).weaken Bool.false_ne_true).slotPlace
  | .name n _, h, dest => by
    obtain ⟨p, _, offset, hn, hvariable⟩ := hnames n h
    simp only [place]
    exact (agrees_name hn hvariable).weaken Bool.false_ne_true
  | .binary op l r _, h, dest => by
    obtain ⟨hl, hr⟩ := Bool.and_eq_true_iff.mp h
    have hleft := place_agrees l hl nowhere
    have hright := place_agrees r hr
    refine .weaken ?_ Bool.false_ne_true
    cases hlazy : op.isLazy with
    | true =>
      simp only [place, hlazy, if_true]
      exact (agrees_lazyOperator hleft.asCondition
        (agreesInto_settle _ fun result => hright fun i => some (result i))).slotPlace
    | false =>
      simp only [place, hlazy, Bool.false_eq_true, if_false]
      exact (agrees_binary hleft.asValue (hright nowhere).asValue).slotPlace
  | .unary op e _, h, dest => by
    obtain ⟨he, hderef⟩ := Bool.and_eq_true_iff.mp h
    have hvalue := place_agrees e he nowhere
    simp only [place]
    cases op with
    | neg => exact (Agrees.weaken (agrees_negate hvalue.asValue) Bool.false_ne_true).slotPlace
    | not => exact (Agrees.weaken (agrees_not hvalue.asCondition) Bool.false_ne_true).slotPlace
    | bitNot => exact (Agrees.weaken (agrees_bitNot hvalue.asValue) Bool.false_ne_true).slotPlace
    | deref => exact (agrees_deref hderef hvalue).weaken Bool.false_ne_true
    | addrOf => exact (addressOf_agrees e he dest).slotPlace
  | .assign target v _, h, dest => by
    obtain ⟨htarget, hv⟩ := Bool.and_eq_true_iff.mp h
    have hvalue := place_agrees v hv
    cases target with
    | name n nameSpan =>
      obtain ⟨p, _, offset, hn, hvariable⟩ := hnames n htarget
      simp only [place_assign_name]
      refine (Agrees.weaken (agrees_assign hn hvariable ?_) Bool.false_ne_true).slotPlace
      exact agreesInto_settle _ fun result => hvalue fun i => some (result i)
    | _ => cases htarget
  | .cast e t _, h, dest => by
    obtain ⟨ht, he⟩ := Bool.and_eq_true_iff.mp h
    obtain ⟨p, hp⟩ := Option.isSome_iff_exists.mp ht
    have hvalue := place_agrees e he nowhere
    simp only [place]
    exact (Agrees.weaken (agrees_cast hp hvalue.asValue) Bool.false_ne_true).slotPlace
  -- The branches are offered the destination of the whole; the test is not.
  | .conditional test yes no _, h, dest => by
    obtain ⟨htest, h⟩ := Bool.and_eq_true_iff.mp h
    obtain ⟨hyes, hno⟩ := Bool.and_eq_true_iff.mp h
    have htest := place_agrees test htest nowhere
    have hyes := place_agrees yes hyes dest
    have hno := place_agrees no hno dest
    simp only [place_conditional]
    refine (Agrees.weaken (agrees_conditional htest.asCondition hyes.asValue hno.asValue)
      ?_).slotPlace
    exact Bool.and_eq_true_iff.mp
  | .switch subject arms default _, h, dest => by
    obtain ⟨hsubject, h⟩ := Bool.and_eq_true_iff.mp h
    obtain ⟨harms, hdefault⟩ := Bool.and_eq_true_iff.mp h
    have hsubject := place_agrees subject hsubject nowhere
    have hdefault := place_agrees default hdefault dest
    have harms := arms_agree arms harms dest
    simp only [place_switch]
    refine (agrees_switch hsubject.asValue (hdefault.asValue.weaken ?_)
      (fun arm harm => (harms arm harm).1) fun arm harm => (harms arm harm).2.weaken ?_).slotPlace
    · exact fun haddress => (Bool.and_eq_true_iff.mp haddress).1
    · exact fun haddress => isAddress_of_mem (Bool.and_eq_true_iff.mp haddress).2 arm harm

theorem addressOf_agrees {span : Span} : ∀ e : Expr,
    e.isElementary isNumber Expr.isAddress = true → ∀ dest : Bool → Option Slot,
      Agrees w dest (fun i => do addressOfOperand e (← place none e) span (dest i))
        ((Expr.unary .addrOf e span).isAddress = true)
  | .name n _, h, dest => by
    obtain ⟨p, hp, offset, hn, hvariable⟩ := hnames n h
    simp only [place]
    exact (agrees_addressOf_name hp hn hvariable).weaken fun _ => trivial
  | .unary op e _, h, dest => by
    obtain ⟨he, hderef⟩ := Bool.and_eq_true_iff.mp h
    have hvalue := place_agrees e he nowhere
    cases op with
    | deref =>
      simp only [place]
      exact (agrees_addressOf_deref hderef hvalue).weaken fun _ => trivial
    | _ => exact agrees_addressOf_refused rfl
  | .literal .., _, _ | .binary .., _, _ | .assign .., _, _ | .cast .., _, _
  | .conditional .., _, _ | .switch .., _, _ => agrees_addressOf_refused rfl

theorem arms_agree : ∀ arms : List Arm,
    Expr.armsElementary isNumber Expr.isAddress arms = true → ∀ dest : Bool → Option Slot,
      ∀ arm ∈ arms,
        (∀ e ∈ arm.values,
          ∃ points, Agrees w nowhere (fun _ => asValue e (place none e) none) points) ∧
        Agrees w dest (fun i => asValue arm.result (place (dest i) arm.result) (dest i))
          (arm.result.isAddress = true)
  | [], _, _, _, harm => absurd harm List.not_mem_nil
  | .mk vs result _ :: arms, h, dest, arm, harm => by
    obtain ⟨hvs, h⟩ := Bool.and_eq_true_iff.mp h
    obtain ⟨hresult, harms⟩ := Bool.and_eq_true_iff.mp h
    have hvalues := values_agree vs hvs
    have hresult := place_agrees result hresult dest
    have hrest := arms_agree arms harms dest
    rcases List.mem_cons.mp harm with rfl | harm
    · exact ⟨hvalues, hresult.asValue⟩
    · exact hrest arm harm

theorem values_agree : ∀ es : List Expr,
    Expr.allElementary isNumber Expr.isAddress es = true → ∀ e ∈ es,
      ∃ points, Agrees w nowhere (fun _ => asValue e (place none e) none) points
  | [], _, _, he => absurd he List.not_mem_nil
  | e :: es, h, e', he' => by
    obtain ⟨he, hes⟩ := Bool.and_eq_true_iff.mp h
    have hfirst := place_agrees e he nowhere
    have hrest := values_agree es hes
    rcases List.mem_cons.mp he' with rfl | he'
    · exact ⟨_, hfirst.asValue⟩
    · exact hrest e' he'

end

end Tree

end Elision

end ClassLang
