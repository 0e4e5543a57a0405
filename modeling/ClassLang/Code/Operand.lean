/-!
# Operands of the machine

Storage is addressed in three segments: the frame of the running function, the global data
and the literal pool. Registers hold pointers. Labels are numbered separately for each kind
of construct that makes them.

A place and a number of bytes are kept in 32 bits. The library counts with exact numbers instead,
and `wrap` says what is kept of them.
-/

namespace ClassLang

/-- What 32 bits keep of a number. -/
def wrap (n : Nat) : Nat := n % UInt32.size

theorem wrap_of_lt {n : Nat} (h : n < UInt32.size) : wrap n = n := Nat.mod_eq_of_lt h

/-- A place known when the program is compiled. -/
inductive Address where
  /-- Relative to the frame of the running function. -/
  | frame (offset : Nat)
  | global (offset : Nat)
  | literal (offset : Nat)
  deriving DecidableEq, Repr

namespace Address

/-- The place some bytes further on. -/
def shift (amount : Nat) : Address → Address
  | frame n => frame (n + amount)
  | global n => global (n + amount)
  | literal n => literal (n + amount)

def isGlobal : Address → Bool
  | global _ => true
  | _ => false

def render : Address → String
  | frame n => s!"${n}"
  | global n => s!"@{n}"
  | literal n => s!"&{n}"

/-- Read an address: a segment mark and an offset. -/
def ofText? (s : String) : Option Address :=
  match s.toList with
  | '$' :: digits => (String.ofList digits).toNat?.map frame
  | '@' :: digits => (String.ofList digits).toNat?.map global
  | '&' :: digits => (String.ofList digits).toNat?.map literal
  | _ => none

end Address

/-- A register, by number. -/
structure Register where
  number : Nat
  deriving DecidableEq, Repr

def Register.render (r : Register) : String := s!"%r{r.number}"

/-- Memory at a constant distance from a register. -/
structure Memory where
  register : Register
  offset : Nat
  deriving DecidableEq, Repr

def Memory.render (m : Memory) : String := s!"[{m.register.render}+{m.offset}]"

/-- What a label is for. -/
inductive LabelKind where
  | otherwise
  | endIf
  | loop
  | endLoop
  | default
  | caseBody
  | endCase
  | general
  deriving DecidableEq, Repr

namespace LabelKind

def all : List LabelKind :=
  [otherwise, endIf, loop, endLoop, default, caseBody, endCase, general]

/-- The word that labels of this kind start with. -/
def word : LabelKind → String
  | otherwise => "else"
  | endIf => "endif"
  | loop => "loop"
  | endLoop => "endloop"
  | default => "case"
  | caseBody => "casebody"
  | endCase => "endcase"
  | general => "label"

/-- The kind whose labels start with a given word. -/
def ofWord? (s : String) : Option LabelKind := all.find? fun k => k.word == s

theorem ofWord?_word (k : LabelKind) : ofWord? k.word = some k := by cases k <;> decide

end LabelKind

/-- A jump target. -/
structure Label where
  kind : LabelKind
  id : Nat
  deriving DecidableEq, Repr

namespace Label

def render (l : Label) : String := s!"{l.kind.word}_{l.id}"

/-- Read a label: the word of its kind and a number. -/
def ofText? (s : String) : Option Label :=
  match s.splitOn "_" with
  | [word, digits] => do return ⟨← LabelKind.ofWord? word, ← digits.toNat?⟩
  | _ => none

end Label

end ClassLang
