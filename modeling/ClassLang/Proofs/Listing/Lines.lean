import ClassLang.Code.Listing

/-!
# Lines of a listing can be read back

A line is a word, which says what form the instruction has, and the operands of that form. There are
no blanks in words and no commas in operands, so the parts of a line can be told apart, but for the
names of functions, which may be any text. A name is the last of two operands, and is all behind the
first comma, or it is the first of two, and is all before the last comma. So every line can be read
back, and the line determines the instruction.
-/

namespace ClassLang

/-! ## Texts in two parts -/

/-- What is before the first `c`, and what is behind it. -/
def cut (c : Char) (text : List Char) : List Char × List Char :=
  (text.takeWhile (· ≠ c), (text.dropWhile (· ≠ c)).tail)

/-- What is before the last `c`, and what is behind it. -/
def cutLast (c : Char) (text : List Char) : List Char × List Char :=
  ((cut c text.reverse).2.reverse, (cut c text.reverse).1.reverse)

section Cut

variable {c : Char} {xs ys : List Char}

theorem cut_append (h : c ∉ xs) : cut c (xs ++ c :: ys) = (xs, ys) := by
  have hxs : ∀ x ∈ xs, decide (x ≠ c) = true := by
    intro x hx
    exact decide_eq_true fun heq => h (heq ▸ hx)
  rw [cut, List.takeWhile_append_of_pos hxs, List.dropWhile_append_of_pos hxs]
  simp

theorem cutLast_append (h : c ∉ ys) : cutLast c (xs ++ c :: ys) = (xs, ys) := by
  have hreverse : (xs ++ c :: ys).reverse = ys.reverse ++ c :: xs.reverse := by simp
  rw [cutLast, hreverse, cut_append (fun hc => h (List.mem_reverse.mp hc)), List.reverse_reverse,
    List.reverse_reverse]

end Cut

/-! ## Operands -/

/-- How values are written, and how they are read back. -/
structure Codec (α : Type) where
  write : α → List Char
  read? : List Char → Option α
  read?_write : ∀ x, read? (write x) = some x

namespace Codec

variable {α β : Type}

/-- Values are written without a comma. -/
class Plain (f : Codec α) : Prop where
  comma_not_mem : ∀ x, ',' ∉ f.write x

/-- A value behind a mark. -/
def marked (mark : Char) (f : Codec α) : Codec α where
  write x := mark :: f.write x
  read?
    | [] => none
    | c :: text => if c = mark then f.read? text else none
  read?_write x := (if_pos rfl).trans (f.read?_write x)

@[simp] theorem read?_marked (mark : Char) (f : Codec α) (text : List Char) :
    (f.marked mark).read? (mark :: text) = f.read? text := if_pos rfl

@[simp] theorem write_marked (mark : Char) (f : Codec α) (x : α) :
    (f.marked mark).write x = mark :: f.write x := rfl

/-- Two values, the first of which has no comma. -/
def pair (f : Codec α) [f.Plain] (g : Codec β) : Codec (α × β) where
  write x := f.write x.1 ++ ',' :: (g.marked ' ').write x.2
  read? text := do return (← f.read? (cut ',' text).1, ← (g.marked ' ').read? (cut ',' text).2)
  read?_write x := by
    rw [cut_append (Plain.comma_not_mem x.1)]
    simp [read?_write]

@[simp] theorem write_pair (f : Codec α) [f.Plain] (g : Codec β) (x : α × β) :
    (f.pair g).write x = f.write x.1 ++ ',' :: ' ' :: g.write x.2 := rfl

/-- Two values, the second of which has no comma. -/
def pairLast (f : Codec α) (g : Codec β) [g.Plain] : Codec (α × β) where
  write x := f.write x.1 ++ ',' :: (g.marked ' ').write x.2
  read? text := do
    return (← f.read? (cutLast ',' text).1, ← (g.marked ' ').read? (cutLast ',' text).2)
  read?_write x := by
    -- The first value may have commas, but the last of all is the one between the two.
    have hcomma : ',' ∉ (g.marked ' ').write x.2 := by
      simp [marked, Plain.comma_not_mem x.2]
    rw [cutLast_append hcomma]
    simp [read?_write]

@[simp] theorem write_pairLast (f : Codec α) (g : Codec β) [g.Plain] (x : α × β) :
    (f.pairLast g).write x = f.write x.1 ++ ',' :: ' ' :: g.write x.2 := rfl

theorem Plain.marked {mark : Char} (f : Codec α) [f.Plain] (h : mark ≠ ',') :
    (f.marked mark).Plain where
  comma_not_mem x hmem := (List.mem_cons.mp hmem).elim (fun heq => h heq.symm) (comma_not_mem x)

instance (f : Codec α) [f.Plain] : (f.marked '#').Plain := .marked f (by decide)

/-- Digits are other than all that is not a digit. -/
theorem not_mem_toDigits {c : Char} (hc : c.isDigit = false) (n : Nat) : c ∉ Nat.toDigits 10 n := by
  intro hmem
  rw [Nat.isDigit_of_mem_toDigits (by decide) (by decide) hmem] at hc
  cases hc

/-- A number in decimal digits. -/
def number : Codec Nat where
  write n := Nat.toDigits 10 n
  read? text := if text.all Char.isDigit then some (Nat.ofDigitChars 10 text 0) else none
  read?_write n := by
    have hdigits : (Nat.toDigits 10 n).all Char.isDigit = true :=
      List.all_eq_true.mpr fun _ hc => Nat.isDigit_of_mem_toDigits (by decide) (by decide) hc
    rw [if_pos hdigits, Nat.ofDigitChars_ten_toDigits]

@[simp] theorem write_number (n : Nat) : number.write n = Nat.toDigits 10 n := rfl

@[simp] theorem read?_toDigits (n : Nat) : number.read? (Nat.toDigits 10 n) = some n :=
  number.read?_write n

instance : number.Plain where
  comma_not_mem := not_mem_toDigits (by decide)

def immediate : Codec Nat := number.marked '#'

@[simp] theorem write_immediate (n : Nat) : immediate.write n = '#' :: Nat.toDigits 10 n := rfl

instance : immediate.Plain := inferInstanceAs (number.marked '#').Plain

/-- A number that may be negative. -/
def integer : Codec Int where
  write v := v.repr.toList
  read? text :=
    if text.head? = some '-' then (number.read? text.tail).map fun n : Nat => -(n : Int)
    else (number.read? text).map Int.ofNat
  read?_write v := by
    rw [Int.repr_eq_if]
    by_cases hv : 0 ≤ v
    · -- What starts with a digit does not start with a sign.
      have hhead : (Nat.toDigits 10 v.toNat).head? ≠ some '-' := fun hhead =>
        not_mem_toDigits (by decide) _ (List.mem_of_head? hhead)
      rw [if_pos hv, Nat.toList_repr, if_neg hhead, read?_toDigits, Option.map_some,
        Int.ofNat_eq_natCast, Int.toNat_of_nonneg hv]
    · rw [if_neg hv, String.toList_append, Nat.toList_repr]
      show (number.read? (Nat.toDigits 10 (-v).toNat)).map (fun n : Nat => -(n : Int)) = some v
      rw [read?_toDigits, Option.map_some, Int.toNat_of_nonneg (by omega), Int.neg_neg]

@[simp] theorem write_integer (v : Int) : integer.write v = v.repr.toList := rfl

instance : integer.Plain where
  comma_not_mem v := by
    rw [write_integer, Int.repr_eq_if]
    split <;> simp [not_mem_toDigits]

/-- Any text. -/
def name : Codec String where
  write s := s.toList
  read? text := some (String.ofList text)
  read?_write _ := congrArg some String.ofList_toList

@[simp] theorem write_name (s : String) : name.write s = s.toList := rfl

/-- No operands. -/
def nothing : Codec Unit where
  write _ := []
  read? text := if text = [] then some () else none
  read?_write _ := rfl

/-! ### Operands of the machine -/

@[simp] theorem toString_string (s : String) : toString s = s := rfl

def register : Codec Register where
  write r := r.render.toList
  read?
    | '%' :: 'r' :: text => (number.read? text).map Register.mk
    | _ => none
  read?_write r := by simp [Register.render]

@[simp] theorem write_register (r : Register) : register.write r = r.render.toList := rfl

instance : register.Plain where
  comma_not_mem r := by simp [Register.render, not_mem_toDigits]

def address : Codec Address where
  write a := a.render.toList
  read?
    | '$' :: text => (number.read? text).map .frame
    | '@' :: text => (number.read? text).map .global
    | '&' :: text => (number.read? text).map .literal
    | _ => none
  read?_write a := by cases a <;> simp [Address.render]

@[simp] theorem write_address (a : Address) : address.write a = a.render.toList := rfl

instance : address.Plain where
  comma_not_mem a := by cases a <;> simp [Address.render, not_mem_toDigits]

def memory : Codec Memory where
  write m := m.render.toList
  read?
    | '[' :: text => do
      return ⟨← register.read? (cut '+' text).1, ← number.read? (cut '+' text).2.dropLast⟩
    | _ => none
  read?_write m := by
    have hplus : '+' ∉ register.write m.register := by
      simp [Register.render, not_mem_toDigits]
    have hrender : m.render.toList =
        '[' :: (register.write m.register ++ '+' :: (Nat.toDigits 10 m.offset ++ [']'])) := by
      simp [Memory.render]
    rw [hrender]
    simp [cut_append hplus, read?_write, -write_register]

@[simp] theorem write_memory (m : Memory) : memory.write m = m.render.toList := rfl

instance : memory.Plain where
  comma_not_mem m := by simp [Memory.render, Register.render, not_mem_toDigits]

def label : Codec Label where
  write l := l.render.toList
  read? text := do
    return ⟨← LabelKind.ofWord? (String.ofList (cut '_' text).1), ← number.read? (cut '_' text).2⟩
  read?_write l := by
    have hword : '_' ∉ l.kind.word.toList := by cases l.kind <;> decide
    have hrender : l.render.toList = l.kind.word.toList ++ '_' :: Nat.toDigits 10 l.id := by
      simp [Label.render]
    rw [hrender, cut_append hword]
    simp [String.ofList_toList, LabelKind.ofWord?_word]

@[simp] theorem write_label (l : Label) : label.write l = l.render.toList := rfl

end Codec

/-! ## Forms of lines -/

/-- What instructions whose lines start with one word have for operands. -/
structure Form where
  Operands : Type
  codec : Codec Operands
  build : Operands → Instr

def IntOp.all : List IntOp :=
  [add, sub, mul, div, mod, eq, ne, lt, le, gt, ge, and, or, xor, shl, shr]

def FloatOp.all : List FloatOp := [add, sub, mul, div, mod, eq, ne, lt, le, gt, ge]

def OneOp.all : List OneOp := [intNeg, bitNot, logicalNot, floatNeg]

def ConvertOp.all : List ConvertOp := [intToFloat, floatToInt, intToChar, charToInt]

namespace Form

def int (op : IntOp) : Form :=
  ⟨_, .pair .address (.pair .address .address), fun (d, l, r) => .int op d l r⟩

def float (op : FloatOp) : Form :=
  ⟨_, .pair .address (.pair .address .address), fun (d, l, r) => .float op d l r⟩

def unary (op : OneOp) : Form := ⟨_, .pair .address .address, fun (d, s) => .unary op d s⟩

def convert (op : ConvertOp) : Form := ⟨_, .pair .address .address, fun (d, s) => .convert op d s⟩

/-- The forms of the operations, each with the word that lines in it start with. -/
def operations : List (String × Form) :=
  IntOp.all.map (fun op => (op.mnemonic, int op))
    ++ FloatOp.all.map (fun op => (op.mnemonic, float op))
    ++ OneOp.all.map (fun op => (op.mnemonic, unary op))
    ++ ConvertOp.all.map (fun op => (op.mnemonic, convert op))

/-- The form of the lines that start with a word. -/
def ofWord? : String → Option Form
  | "args" => some ⟨_, .immediate, .args⟩
  | "mov" => some ⟨_, .pair .address (.pair .address .immediate), fun (d, s, n) => .mov d s n⟩
  | "imm" =>
    some ⟨_, .pair .address (.pair (.marked '#' .integer) .immediate), fun (d, v, n) => .imm d v n⟩
  | "addr" | "gaddr" => some ⟨_, .pair .register .address, fun (r, s) => .addr r s⟩
  | "ptr" => some ⟨_, .pair .register .address, fun (r, s) => .ptr r s⟩
  | "offset" => some ⟨_, .pair .register .immediate, fun (r, n) => .offset r n⟩
  | "index" =>
    some ⟨_, .pair .register (.pair .address (.pair .immediate (.marked '+' .number))),
      fun (r, p, n, h) => .index r p n h⟩
  | "load" => some ⟨_, .pair .address (.pair .memory .immediate), fun (d, m, n) => .load d m n⟩
  | "store" => some ⟨_, .pair .memory (.pair .address .immediate), fun (m, s, n) => .store m s n⟩
  | "setptr" => some ⟨_, .pair .address .register, fun (d, r) => .setPtr d r⟩
  | "fnaddr" => some ⟨_, .pair .address .name, fun (d, f) => .fnAddr d f⟩
  | "settag" => some ⟨_, .pair .register .immediate, fun (r, n) => .setTag r n⟩
  | "instanceof" =>
    some ⟨_, .pair .address (.pair .register .immediate), fun (d, r, n) => .instanceOf d r n⟩
  | "vtable" =>
    some ⟨_, .pair .register (.pair .register .immediate), fun (d, o, n) => .vtable d o n⟩
  | "label" => some ⟨_, .label, .label⟩
  | "goto" => some ⟨_, .label, .goto⟩
  | "if_true" => some ⟨_, .pair .address .label, fun (c, l) => .ifTrue c l⟩
  | "if_false" => some ⟨_, .pair .address .label, fun (c, l) => .ifFalse c l⟩
  | "call_fn" => some ⟨_, .pairLast .name .address, fun (f, b) => .callFn f b⟩
  | "call_native" => some ⟨_, .pair .immediate .address, fun (n, b) => .callNative n b⟩
  | "call_ptr" => some ⟨_, .pair .register .address, fun (r, b) => .callPtr r b⟩
  | "ret" => some ⟨_, .nothing, fun _ => .ret⟩
  | "argv" => some ⟨_, .address, .argv⟩
  | "stop" => some ⟨_, .nothing, fun _ => .stop⟩
  | word => operations.lookup word

theorem ofWord?_int (op : IntOp) : ofWord? op.mnemonic = some (int op) := by cases op <;> rfl

theorem ofWord?_float (op : FloatOp) : ofWord? op.mnemonic = some (float op) := by cases op <;> rfl

theorem ofWord?_unary (op : OneOp) : ofWord? op.mnemonic = some (unary op) := by cases op <;> rfl

theorem ofWord?_convert (op : ConvertOp) : ofWord? op.mnemonic = some (convert op) := by
  cases op <;> rfl

end Form

/-! ## Lines -/

namespace Instr

/-- Read a line: the form by its first word, and the operands in that form. -/
def ofText? (line : String) : Option Instr :=
  (Form.ofWord? (String.ofList (cut ' ' line.toList).1)).bind fun form =>
    (form.codec.read? (cut ' ' line.toList).2).map form.build

theorem ofText?_of_form (word : String) {form : Form} (operands : form.Operands) {i : Instr}
    (hform : Form.ofWord? word = some form) (hword : ' ' ∉ word.toList)
    (hbuild : form.build operands = i)
    (hline : i.render.toList = word.toList ++ ' ' :: form.codec.write operands) :
    ofText? i.render = some i := by
  rw [ofText?, hline, cut_append hword, String.ofList_toList, hform, Option.bind_some,
    form.codec.read?_write, Option.map_some, hbuild]

/-- A line that was written can be read. -/
theorem ofText?_render (i : Instr) : ofText? i.render = some i := by
  cases i with
  | args n => exact ofText?_of_form "args" n rfl (by decide) rfl (by unfold render; simp)
  | mov d s n => exact ofText?_of_form "mov" (d, s, n) rfl (by decide) rfl (by unfold render; simp)
  | imm d v n => exact ofText?_of_form "imm" (d, v, n) rfl (by decide) rfl (by unfold render; simp)
  -- The words of operations are not spelled out here but looked up in a list.
  | int op d l r =>
    exact ofText?_of_form op.mnemonic (d, l, r) (Form.ofWord?_int op) (by cases op <;> decide) rfl
      (by unfold render; simp [Form.int])
  | float op d l r =>
    exact ofText?_of_form op.mnemonic (d, l, r) (Form.ofWord?_float op) (by cases op <;> decide) rfl
      (by unfold render; simp [Form.float])
  | unary op d s =>
    exact ofText?_of_form op.mnemonic (d, s) (Form.ofWord?_unary op) (by cases op <;> decide) rfl
      (by unfold render; simp [Form.unary])
  | convert op d s =>
    exact ofText?_of_form op.mnemonic (d, s) (Form.ofWord?_convert op) (by cases op <;> decide) rfl
      (by unfold render; simp [Form.convert])
  | addr r s =>
    -- Two words for one form: which one is written depends on the segment.
    cases hs : s.isGlobal with
    | true =>
      exact ofText?_of_form "gaddr" (r, s) rfl (by decide) rfl (by unfold render; simp [hs])
    | false =>
      exact ofText?_of_form "addr" (r, s) rfl (by decide) rfl (by unfold render; simp [hs])
  | ptr r s => exact ofText?_of_form "ptr" (r, s) rfl (by decide) rfl (by unfold render; simp)
  | offset r n => exact ofText?_of_form "offset" (r, n) rfl (by decide) rfl (by unfold render; simp)
  | index r p n h =>
    exact ofText?_of_form "index" (r, p, n, h) rfl (by decide) rfl (by unfold render; simp)
  | load d m n =>
    exact ofText?_of_form "load" (d, m, n) rfl (by decide) rfl (by unfold render; simp)
  | store m s n =>
    exact ofText?_of_form "store" (m, s, n) rfl (by decide) rfl (by unfold render; simp)
  | setPtr d r => exact ofText?_of_form "setptr" (d, r) rfl (by decide) rfl (by unfold render; simp)
  | fnAddr d f => exact ofText?_of_form "fnaddr" (d, f) rfl (by decide) rfl (by unfold render; simp)
  | setTag r n => exact ofText?_of_form "settag" (r, n) rfl (by decide) rfl (by unfold render; simp)
  | instanceOf d r n =>
    exact ofText?_of_form "instanceof" (d, r, n) rfl (by decide) rfl (by unfold render; simp)
  | vtable d o n =>
    exact ofText?_of_form "vtable" (d, o, n) rfl (by decide) rfl (by unfold render; simp)
  | label l => exact ofText?_of_form "label" l rfl (by decide) rfl (by unfold render; simp)
  | goto l => exact ofText?_of_form "goto" l rfl (by decide) rfl (by unfold render; simp)
  | ifTrue c l =>
    exact ofText?_of_form "if_true" (c, l) rfl (by decide) rfl (by unfold render; simp)
  | ifFalse c l =>
    exact ofText?_of_form "if_false" (c, l) rfl (by decide) rfl (by unfold render; simp)
  | callFn f b =>
    exact ofText?_of_form "call_fn" (f, b) rfl (by decide) rfl (by unfold render; simp)
  | callNative n b =>
    exact ofText?_of_form "call_native" (n, b) rfl (by decide) rfl (by unfold render; simp)
  | callPtr r b =>
    exact ofText?_of_form "call_ptr" (r, b) rfl (by decide) rfl (by unfold render; simp)
  | argv d => exact ofText?_of_form "argv" d rfl (by decide) rfl (by unfold render; simp)
  | ret => rfl
  | stop => rfl

/-- The line determines the instruction. -/
theorem render_eq_iff (a b : Instr) : a.render = b.render ↔ a = b := by
  constructor
  · intro h
    have hread : ofText? a.render = ofText? b.render := congrArg ofText? h
    rw [ofText?_render, ofText?_render] at hread
    exact Option.some.inj hread
  · intro h
    rw [h]

end Instr

namespace Listing

/-- Read the lines of some code, which are indented. -/
def readCode? (lines : List String) : Option (List Instr) :=
  lines.mapM fun line => Instr.ofText? (String.ofList (line.toList.drop 2))

theorem readCode?_codeLines (code : Array Instr) :
    readCode? (codeLines code) = some code.toList := by
  rw [codeLines, readCode?]
  induction code.toList with
  | nil => rfl
  | cons i rest ih =>
    have hline : String.ofList (("  " ++ i.render).toList.drop 2) = i.render := by
      simp [String.ofList_toList]
    rw [List.map_cons, List.mapM_cons, ih, hline, Instr.ofText?_render]
    rfl

/-- The lines of some code determine the code. -/
theorem codeLines_inj {a b : Array Instr} : codeLines a = codeLines b ↔ a = b := by
  constructor
  · intro h
    have hread : readCode? (codeLines a) = readCode? (codeLines b) := congrArg readCode? h
    rw [readCode?_codeLines, readCode?_codeLines] at hread
    exact Array.toList_inj.mp (Option.some.inj hread)
  · intro h
    rw [h]

end Listing

end ClassLang
