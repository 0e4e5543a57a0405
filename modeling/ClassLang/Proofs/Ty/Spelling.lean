import ClassLang.Class.Registry
import Mathlib.Data.List.Nodup

/-!
# The spelling of types

Types are spelled with simple class names, and the spelling can be read back: a word is as long as
it goes on without a reserved character, and the character after it says what kind of type it
belongs to. So two types that are named in the same place and have the same spelling are the same,
also when more text follows each of them. What makes this work is that names of classes are unique,
that a template parameter hides the class of its name, and that a built-in type hides both.
-/

namespace ClassLang

/-- Characters that linkable names and spellings of types are put together with. -/
def reserved : List Char := ['$', '.', '~', ',', '*', '[', ']', '(', ')', '<', '>', ' ']

/-- An identifier: not empty, and without reserved characters. -/
def IsIdentifier (s : String) : Prop := s ≠ "" ∧ ∀ c ∈ s.toList, c ∉ reserved

-- The characters of the text are looked at, and not all characters that there are.
instance (s : String) : Decidable (IsIdentifier s) :=
  have : Decidable (∀ c ∈ s.toList, c ∉ reserved) := List.decidableBAll _ _
  instDecidableAnd

theorem Prim.isIdentifier_name (p : Prim) : IsIdentifier p.name := by
  cases p <;> decide

theorem Prim.ofName?_name (p : Prim) : Prim.ofName? p.name = some p := by
  cases p <;> rfl

/-! ## Words -/

/-- The text does not start with a character that could belong to an identifier. -/
def Stops (text : List Char) : Prop := ∀ c ∈ text.head?, c ∈ reserved

/-- A word is read back from a text in which it does not go on. -/
theorem word_append_inj {w w' xs ys : List Char} (hw : ∀ c ∈ w, c ∉ reserved)
    (hw' : ∀ c ∈ w', c ∉ reserved) (hxs : Stops xs) (hys : Stops ys)
    (h : w ++ xs = w' ++ ys) : w = w' ∧ xs = ys := by
  induction w generalizing w' with
  | nil =>
    cases w' with
    | nil => exact ⟨rfl, h⟩
    | cons c w' =>
      subst h
      exact absurd (hxs c rfl) (hw' c List.mem_cons_self)
  | cons c w ih =>
    cases w' with
    | nil =>
      obtain rfl : c :: (w ++ xs) = ys := h
      exact absurd (hys c rfl) (hw c List.mem_cons_self)
    | cons c' w' =>
      injection h with hc h
      obtain ⟨rfl, rfl⟩ := ih (List.forall_mem_cons.mp hw).2 (List.forall_mem_cons.mp hw').2 h
      exact ⟨congrArg (· :: w) hc, rfl⟩

/-- The characters that may follow a type in the spelling of another one. -/
def closers : List Char := [',', ')', ']', '>']

/-- The text ends or goes on after a type. -/
def Closes (text : List Char) : Prop := ∀ c ∈ text.head?, c ∈ closers

theorem mem_reserved_of_mem_closers : ∀ c ∈ closers, c ∈ reserved := by
  simp [closers, reserved]

theorem closes_cons {c : Char} (hc : c ∈ closers) (text : List Char) : Closes (c :: text) := by
  intro d hd
  injection hd with hd
  exact hd ▸ hc

/-! ## Named types -/

/-- A class can be named where the template parameters `ps` are visible. -/
def Registry.CanName (r : Registry) (ps : List TemplateParam) (h : TypeHash) : Prop :=
  ∃ k, r.class? h = some k ∧ IsIdentifier k.name ∧ Prim.ofName? k.name = none ∧
    ∀ p ∈ ps, p.name ≠ k.name

/-- The type consists of what can be named where the template parameters `ps` are visible. -/
inductive Ty.Named (r : Registry) (ps : List TemplateParam) : Ty → Prop
  | prim (p : Prim) : Ty.Named r ps (.prim p)
  | pointer {t : Ty} : Ty.Named r ps t → Ty.Named r ps (.pointer t)
  | array {t : Ty} : Ty.Named r ps t → Ty.Named r ps (.array t)
  | callable {ts : List Ty} {t : Ty} : (∀ a ∈ ts, Ty.Named r ps a) → Ty.Named r ps t →
    Ty.Named r ps (.callable .func ts t)
  | classRef {h : TypeHash} : r.CanName ps h → Ty.Named r ps (.classRef h)
  | applied {h : TypeHash} {as : List Ty} : r.CanName ps h → (∀ a ∈ as, Ty.Named r ps a) →
    Ty.Named r ps (.applied h as)
  | param {p : TemplateParam} : p ∈ ps → IsIdentifier p.name → Prim.ofName? p.name = none →
    Ty.Named r ps (.param p.name p.bound)

/-- A type stays named when all classes can still be named. -/
theorem Ty.Named.mono {r r' : Registry} {ps : List TemplateParam}
    (hr : ∀ h, r.CanName ps h → r'.CanName ps h) {t : Ty} (ht : t.Named r ps) : t.Named r' ps := by
  induction ht with
  | prim p => exact .prim p
  | pointer _ ih => exact .pointer ih
  | array _ ih => exact .array ih
  | callable _ _ ihs ih => exact .callable ihs ih
  | classRef h => exact .classRef (hr _ h)
  | applied h _ ihs => exact .applied (hr _ h) ihs
  | param hp hname hnone => exact .param hp hname hnone

/-- Different classes have different names. -/
def Registry.NamesUnique (r : Registry) : Prop :=
  ∀ {h h' k k'}, r.class? h = some k → r.class? h' = some k' → k.name = k'.name → h = h'

namespace Registry

variable {r : Registry} {ps : List TemplateParam}

theorem className_eq {h : TypeHash} {k : Class} (hk : r.class? h = some k) :
    r.className h = k.name := by
  rw [className, hk]
  rfl

mutual

/-- Types are spelled with the names of classes only. -/
theorem typeName_congr {r r' : Registry} (h : ∀ k, r'.className k = r.className k) :
    ∀ t, r'.typeName t = r.typeName t
  | .prim _ | .param .. | .intrinsic .. => rfl
  | .pointer t => by rw [typeName, typeName, typeName_congr h t]
  | .array t => by rw [typeName, typeName, typeName_congr h t]
  | .callable _ ts t => by rw [typeName, typeName, typeNames_congr h ts, typeName_congr h t]
  | .classRef k => by rw [typeName, typeName, h]
  | .applied k as => by rw [typeName, typeName, h, typeNames_congr h as]

theorem typeNames_congr {r r' : Registry} (h : ∀ k, r'.className k = r.className k) :
    ∀ ts, r'.typeNames ts = r.typeNames ts
  | [] => rfl
  | t :: ts => by rw [typeNames, typeNames, typeName_congr h t, typeNames_congr h ts]

end

/-! ## The parts of a spelling -/

/-- The word that a spelling starts with. -/
def word (r : Registry) : Ty → String
  | .prim p => p.name
  | .pointer _ | .array _ => ""
  | .callable k _ _ => k.keyword
  | .classRef h | .applied h _ => r.className h
  | .param n _ | .intrinsic n _ => n

/-- The spelling of several types. -/
def spelledArgs (r : Registry) (ts : List Ty) : List Char :=
  (", ".intercalate (r.typeNames ts)).toList

/-- What comes after the word. -/
def afterWord (r : Registry) : Ty → List Char
  | .pointer t => '*' :: (r.typeName t).toList
  | .array t => '[' :: ((r.typeName t).toList ++ [']'])
  | .callable _ ps t => '(' :: (r.spelledArgs ps ++ ')' :: ' ' :: (r.typeName t).toList)
  | .applied _ as => '<' :: (r.spelledArgs as ++ ['>'])
  | .prim _ | .classRef _ | .param .. | .intrinsic .. => []

/-- The character after the word, if there is one. -/
def lead : Ty → Option Char
  | .pointer _ => some '*'
  | .array _ => some '['
  | .callable .. => some '('
  | .applied .. => some '<'
  | .prim _ | .classRef _ | .param .. | .intrinsic .. => none

theorem typeName_eq (t : Ty) : (r.typeName t).toList = (r.word t).toList ++ r.afterWord t := by
  cases t <;> simp [typeName, word, afterWord, spelledArgs]

theorem head?_afterWord (t : Ty) (xs : List Char) :
    (r.afterWord t ++ xs).head? = (lead t).or xs.head? := by
  cases t <;> simp [afterWord, lead]

theorem lead_not_mem_closers (t : Ty) : ∀ c ∈ lead t, c ∉ closers := by
  cases t <;> simp [lead, closers]

theorem lead_mem_reserved (t : Ty) : ∀ c ∈ lead t, c ∈ reserved := by
  cases t <;> simp [lead, reserved]

theorem stops_afterWord (t : Ty) {xs : List Char} (hxs : Closes xs) :
    Stops (r.afterWord t ++ xs) := by
  intro c hc
  rw [head?_afterWord] at hc
  cases ht : lead t with
  | some d =>
    rw [ht] at hc
    exact lead_mem_reserved t c (ht ▸ hc)
  | none =>
    rw [ht] at hc
    exact mem_reserved_of_mem_closers c (hxs c hc)

/-- The character after the word says what kind of type it is. -/
theorem lead_eq {t u : Ty} {xs ys : List Char} (hxs : Closes xs) (hys : Closes ys)
    (h : r.afterWord t ++ xs = r.afterWord u ++ ys) : lead t = lead u := by
  have hhead := congrArg List.head? h
  rw [head?_afterWord, head?_afterWord] at hhead
  cases ht : lead t with
  | some c =>
    cases hu : lead u with
    | some d =>
      rw [ht, hu] at hhead
      exact hhead
    | none =>
      rw [ht, hu] at hhead
      exact absurd (hys c hhead.symm) (lead_not_mem_closers t c ht)
  | none =>
    cases hu : lead u with
    | some d =>
      rw [ht, hu] at hhead
      exact absurd (hxs d hhead) (lead_not_mem_closers u d hu)
    | none => rfl

theorem word_plain {t : Ty} (ht : t.Named r ps) : ∀ c ∈ (r.word t).toList, c ∉ reserved := by
  cases ht with
  | prim p => exact p.isIdentifier_name.2
  | pointer | array => exact fun c hc => absurd hc List.not_mem_nil
  | callable =>
    have hword : IsIdentifier CallKind.func.keyword := by decide
    exact hword.2
  | classRef h | applied h =>
    obtain ⟨k, hk, hname, _⟩ := h
    rw [word, className_eq hk]
    exact hname.2
  | param _ hname => exact hname.2

/-! ## Reading a spelling back -/

/-- What a word stands for: a built-in type, or else a template parameter, or else a class. -/
inductive Reads (r : Registry) (ps : List TemplateParam) (w : String) : Ty → Prop
  | prim {p : Prim} : Prim.ofName? w = some p → Reads r ps w (.prim p)
  | param {p : TemplateParam} : Prim.ofName? w = none → p ∈ ps → p.name = w →
    Reads r ps w (.param p.name p.bound)
  | classRef {h : TypeHash} {k : Class} : Prim.ofName? w = none → (∀ p ∈ ps, p.name ≠ w) →
    r.class? h = some k → k.name = w → Reads r ps w (.classRef h)

theorem Reads.unique (hr : r.NamesUnique) (hps : (ps.map (·.name)).Nodup) {w : String} {t u : Ty}
    (ht : Reads r ps w t) (hu : Reads r ps w u) : t = u := by
  cases ht with
  | prim hp =>
    cases hu with
    | prim hq => exact congrArg Ty.prim (Option.some.inj (hp.symm.trans hq))
    | param hnone | classRef hnone => exact absurd (hnone.symm.trans hp) (Option.some_ne_none _).symm
  | param hnone hp hname =>
    cases hu with
    | prim hq => exact absurd (hnone.symm.trans hq) (Option.some_ne_none _).symm
    | param _ hq hname' => rw [List.inj_on_of_nodup_map hps hp hq (hname.trans hname'.symm)]
    | classRef _ hfree => exact absurd hname (hfree _ hp)
  | classRef hnone hfree hk hname =>
    cases hu with
    | prim hq => exact absurd (hnone.symm.trans hq) (Option.some_ne_none _).symm
    | param _ hq hname' => exact absurd hname' (hfree _ hq)
    | classRef _ _ hk' hname' => rw [hr hk hk' (hname.trans hname'.symm)]

theorem reads_of_named {t : Ty} (ht : t.Named r ps) (hlead : lead t = none) :
    Reads r ps (r.word t) t := by
  cases ht with
  | prim p => exact .prim p.ofName?_name
  | param hp _ hnone => exact .param hnone hp rfl
  | classRef h =>
    obtain ⟨k, hk, _, hnone, hfree⟩ := h
    have hname : r.word (.classRef _) = k.name := className_eq hk
    exact .classRef (hname ▸ hnone) (hname ▸ hfree) hk hname.symm
  | _ => cases hlead

theorem spelledArgs_singleton (t : Ty) : r.spelledArgs [t] = (r.typeName t).toList := by
  rw [spelledArgs, typeNames, typeNames, String.intercalate_singleton]

theorem spelledArgs_cons_cons (t u : Ty) (us : List Ty) :
    r.spelledArgs (t :: u :: us) = (r.typeName t).toList ++ ',' :: ' ' :: r.spelledArgs (u :: us) := by
  rw [spelledArgs, typeNames, typeNames, String.intercalate_cons_cons, String.toList_append,
    String.toList_append, List.append_assoc]
  rfl

/-- The spelling of types after the first. -/
def moreArgs (r : Registry) : List Ty → List Char
  | [] => []
  | t :: ts => ',' :: ' ' :: r.spelledArgs (t :: ts)

theorem spelledArgs_cons (t : Ty) (ts : List Ty) :
    r.spelledArgs (t :: ts) = (r.typeName t).toList ++ r.moreArgs ts := by
  cases ts with
  | nil => rw [spelledArgs_singleton, moreArgs, List.append_nil]
  | cons u us => exact spelledArgs_cons_cons t u us

theorem closes_moreArgs (ts : List Ty) {xs : List Char} (hxs : Closes xs) :
    Closes (r.moreArgs ts ++ xs) := by
  cases ts with
  | nil => exact hxs
  | cons t ts => exact closes_cons (by decide) _

theorem not_closes_word {s : String} (hs : IsIdentifier s) (text : List Char) :
    ¬Closes (s.toList ++ text) := by
  obtain ⟨hne, hplain⟩ := hs
  cases hword : s.toList with
  | nil => exact absurd (String.toList_inj.mp hword) hne
  | cons c w =>
    intro h
    exact hplain c (hword ▸ List.mem_cons_self) (mem_reserved_of_mem_closers c (h c rfl))

/-- A spelling does not start like what may follow one. -/
theorem not_closes_typeName {t : Ty} (ht : t.Named r ps) (text : List Char) :
    ¬Closes ((r.typeName t).toList ++ text) := by
  rw [typeName_eq, List.append_assoc]
  cases ht with
  | prim p => exact not_closes_word p.isIdentifier_name _
  | pointer | array =>
    intro h
    exact absurd (h _ rfl) (by decide)
  | callable =>
    have hword : IsIdentifier CallKind.func.keyword := by decide
    exact not_closes_word hword _
  | classRef h | applied h =>
    obtain ⟨k, hk, hname, _⟩ := h
    rw [word, className_eq hk]
    exact not_closes_word hname _
  | param _ hname => exact not_closes_word hname _

/-- Texts that start with spellings are read word by word. -/
theorem parts_of_typeName {t u : Ty} {xs ys : List Char} (ht : t.Named r ps) (hu : u.Named r ps)
    (hxs : Closes xs) (hys : Closes ys)
    (h : (r.typeName t).toList ++ xs = (r.typeName u).toList ++ ys) :
    r.word t = r.word u ∧ lead t = lead u ∧ r.afterWord t ++ xs = r.afterWord u ++ ys := by
  rw [typeName_eq, typeName_eq, List.append_assoc, List.append_assoc] at h
  obtain ⟨hword, hafter⟩ := word_append_inj (word_plain ht) (word_plain hu)
    (stops_afterWord t hxs) (stops_afterWord u hys) h
  exact ⟨String.toList_inj.mp hword, lead_eq hxs hys hafter, hafter⟩

/-- Without further parts, types with the same spelling are the same. -/
theorem atom_append_inj (hr : r.NamesUnique) (hps : (ps.map (·.name)).Nodup) {t u : Ty}
    {xs ys : List Char} (ht : t.Named r ps) (hu : u.Named r ps) (hlead : lead t = none)
    (h : r.word t = r.word u ∧ lead t = lead u ∧ r.afterWord t ++ xs = r.afterWord u ++ ys) :
    t = u ∧ xs = ys := by
  obtain ⟨hword, hsame, hafter⟩ := h
  have hread := reads_of_named hu (hsame ▸ hlead)
  obtain rfl := Reads.unique hr hps (reads_of_named ht hlead) (hword ▸ hread)
  exact ⟨rfl, List.append_cancel_left hafter⟩

mutual

/-- A type is read back from a text that starts with its spelling. -/
theorem typeName_append_inj (hr : r.NamesUnique) (hps : (ps.map (·.name)).Nodup) :
    ∀ (t u : Ty) {xs ys : List Char}, t.Named r ps → u.Named r ps → Closes xs → Closes ys →
      (r.typeName t).toList ++ xs = (r.typeName u).toList ++ ys → t = u ∧ xs = ys
  | .prim _, u, _, _, ht, hu, hxs, hys, h | .classRef _, u, _, _, ht, hu, hxs, hys, h
  | .param .., u, _, _, ht, hu, hxs, hys, h | .intrinsic .., u, _, _, ht, hu, hxs, hys, h =>
    atom_append_inj hr hps ht hu rfl (parts_of_typeName ht hu hxs hys h)
  -- The character behind the word tells the forms apart; what follows starts with a smaller type.
  | .pointer t, u, _, _, ht, hu, hxs, hys, h => by
    obtain ⟨_, hlead, hafter⟩ := parts_of_typeName ht hu hxs hys h
    cases ht with
    | pointer ht =>
      cases hu with
      | pointer hu =>
        injection hafter with _ hafter
        obtain ⟨rfl, rfl⟩ := typeName_append_inj hr hps t _ ht hu hxs hys hafter
        exact ⟨rfl, rfl⟩
      | _ => cases hlead
  | .array t, u, xs, ys, ht, hu, hxs, hys, h => by
    obtain ⟨_, hlead, hafter⟩ := parts_of_typeName ht hu hxs hys h
    cases ht with
    | array ht =>
      cases hu with
      | array hu =>
        simp only [afterWord, List.cons_append, List.append_assoc, List.cons.injEq,
          true_and] at hafter
        obtain ⟨rfl, hrest⟩ := typeName_append_inj hr hps t _ ht hu (closes_cons (by decide) _)
          (closes_cons (by decide) _) hafter
        injection hrest with _ hrest
        exact ⟨rfl, hrest⟩
      | _ => cases hlead
  | .callable k ts t, u, xs, ys, ht, hu, hxs, hys, h => by
    obtain ⟨_, hlead, hafter⟩ := parts_of_typeName ht hu hxs hys h
    cases ht with
    | callable hts ht =>
      cases hu with
      | callable hus hu =>
        simp only [afterWord, List.cons_append, List.append_assoc, List.cons.injEq,
          true_and] at hafter
        obtain ⟨rfl, hrest⟩ := spelledArgs_append_inj hr hps (by decide) (by decide) ts _ hts hus
          hafter
        injection hrest with _ hrest
        obtain ⟨rfl, rfl⟩ := typeName_append_inj hr hps t _ ht hu hxs hys hrest
        exact ⟨rfl, rfl⟩
      | _ => cases hlead
  | .applied k as, u, xs, ys, ht, hu, hxs, hys, h => by
    obtain ⟨hword, hlead, hafter⟩ := parts_of_typeName ht hu hxs hys h
    cases ht with
    | applied hk has =>
      cases hu with
      | applied hk' hbs =>
        simp only [afterWord, List.cons_append, List.append_assoc, List.cons.injEq,
          true_and] at hafter
        obtain ⟨rfl, hrest⟩ := spelledArgs_append_inj hr hps (by decide) (by decide) as _ has hbs
          hafter
        obtain ⟨c, hc, _⟩ := hk
        obtain ⟨c', hc', _⟩ := hk'
        rw [word, word, className_eq hc, className_eq hc'] at hword
        exact ⟨by rw [hr hc hc' hword], hrest⟩
      | _ => cases hlead

theorem spelledArgs_append_inj (hr : r.NamesUnique) (hps : (ps.map (·.name)).Nodup) {c : Char}
    (hc : c ∈ closers) (hcomma : c ≠ ',') :
    ∀ (ts us : List Ty) {xs ys : List Char}, (∀ t ∈ ts, t.Named r ps) →
      (∀ u ∈ us, u.Named r ps) → r.spelledArgs ts ++ c :: xs = r.spelledArgs us ++ c :: ys →
      ts = us ∧ xs = ys
  | [], [], _, _, _, _, h => ⟨rfl, (List.cons.inj h).2⟩
  -- No type starts with a closing character, so the lists end together.
  | [], u :: us, xs, ys, _, hus, h => by
    refine absurd ?_ (not_closes_typeName (hus u List.mem_cons_self) (r.moreArgs us ++ c :: ys))
    rw [← List.append_assoc, ← spelledArgs_cons, ← h]
    exact closes_cons hc xs
  | t :: ts, [], xs, ys, hts, _, h => by
    refine absurd ?_ (not_closes_typeName (hts t List.mem_cons_self) (r.moreArgs ts ++ c :: xs))
    rw [← List.append_assoc, ← spelledArgs_cons, h]
    exact closes_cons hc ys
  | t :: ts, u :: us, xs, ys, hts, hus, h => by
    rw [spelledArgs_cons, spelledArgs_cons, List.append_assoc, List.append_assoc] at h
    obtain ⟨rfl, hmore⟩ := typeName_append_inj hr hps t u (hts t List.mem_cons_self)
      (hus u List.mem_cons_self) (closes_moreArgs ts (closes_cons hc xs))
      (closes_moreArgs us (closes_cons hc ys)) h
    match ts, us with
    | [], [] => exact ⟨rfl, (List.cons.inj hmore).2⟩
    | [], _ :: _ => exact absurd (List.cons.inj hmore).1 hcomma
    | _ :: _, [] => exact absurd (List.cons.inj hmore).1.symm hcomma
    | t' :: ts, u' :: us =>
      injection hmore with _ hmore
      injection hmore with _ hmore
      obtain ⟨hsame, hrest⟩ := spelledArgs_append_inj hr hps hc hcomma (t' :: ts) (u' :: us)
        (fun a ha => hts a (List.mem_cons_of_mem _ ha))
        (fun a ha => hus a (List.mem_cons_of_mem _ ha)) hmore
      exact ⟨congrArg (t :: ·) hsame, hrest⟩

end

/-- Lists of types with the same spellings are the same. -/
theorem typeNames_inj (hr : r.NamesUnique) (hps : (ps.map (·.name)).Nodup) {ts us : List Ty}
    (hts : ∀ t ∈ ts, t.Named r ps) (hus : ∀ u ∈ us, u.Named r ps)
    (h : r.typeNames ts = r.typeNames us) : ts = us := by
  have hspelled : r.spelledArgs ts ++ [')'] = r.spelledArgs us ++ [')'] := by
    rw [spelledArgs, spelledArgs, h]
  exact (spelledArgs_append_inj hr hps (by decide) (by decide) ts us hts hus hspelled).1

end Registry

end ClassLang
