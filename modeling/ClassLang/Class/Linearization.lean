import ClassLang.Table
import ClassLang.Hash.TypeHash

/-!
# C3 linearization

The linearization of a class lists it and all its ancestors, most derived first. A class
without bases has only itself. Otherwise the linearizations of the bases and the list of
bases itself are merged: the merge takes, again and again, the first head that occurs in no
tail, and fails when there is none.

Results are remembered for a class and its ancestors. A class that is met again while its
own ancestors are being linearized is its own ancestor.
-/

namespace ClassLang

/-- Why a hierarchy has no linearization. -/
inductive HierarchyError where
  /-- The merge got stuck with these heads. -/
  | inconsistent (owner : TypeHash) (remaining : List TypeHash)
  /-- The class is its own ancestor. -/
  | circular (owner : TypeHash)
  deriving DecidableEq

/-- The text of the error, without the classes involved. -/
def HierarchyError.message : HierarchyError → String
  | inconsistent .. => "inconsistent hierarchy"
  | circular _ => "circular inheritance"

namespace Linearization

/-! ## Merging -/

/-- The head of every non-empty sequence. -/
def heads (seqs : List (List TypeHash)) : List TypeHash := seqs.filterMap List.head?

/-- Whether a class occurs behind the head of some sequence. -/
def inSomeTail (seqs : List (List TypeHash)) (c : TypeHash) : Bool :=
  seqs.any fun s => s.tail.contains c

/-- The first head that occurs in no tail. -/
def nextHead? (seqs : List (List TypeHash)) : Option TypeHash :=
  (heads seqs).find? fun c => !inSomeTail seqs c

/-- Take `c` away where it is the head. -/
def dropHead (c : TypeHash) : List TypeHash → List TypeHash
  | [] => []
  | d :: rest => if d = c then rest else d :: rest

/-- The members of a list without repetition, first occurrences kept. -/
def distinct (cs : List TypeHash) : List TypeHash :=
  cs.foldl (fun seen c => if seen.contains c then seen else seen ++ [c]) []

/-- How many class occurrences are left to merge. -/
def remaining (seqs : List (List TypeHash)) : Nat := seqs.flatten.length

/-- Merge with a bound on the number of steps. Every step removes an occurrence, so the
number of occurrences is bound enough. -/
def mergeWithin (owner : TypeHash) : Nat → List (List TypeHash) →
    Except HierarchyError (List TypeHash)
  | 0, _ => .ok []
  | n + 1, seqs =>
    if heads seqs = [] then .ok []
    else
      match nextHead? seqs with
      | none => .error (.inconsistent owner (distinct (heads seqs)))
      | some c => (c :: ·) <$> mergeWithin owner n (seqs.map (dropHead c))

/-- Merge sequences into one that keeps the order of each. -/
def merge (owner : TypeHash) (seqs : List (List TypeHash)) :
    Except HierarchyError (List TypeHash) :=
  mergeWithin owner (remaining seqs + 1) seqs

/-! ## Linearizing -/

/-- The linearizations found so far. -/
abbrev Memo := Table TypeHash (List TypeHash)

/-- The direct bases of every class; a class without an entry has none. -/
abbrev Bases := Table TypeHash (List TypeHash)

/-- The direct bases of a class. -/
def directBases (bases : Bases) (c : TypeHash) : List TypeHash := (bases.find? c).getD []

/-- Linearize several classes in order, keeping what `step` remembers on the way. -/
def linearizeEach (step : TypeHash → Memo → Except HierarchyError (List TypeHash) × Memo) :
    List TypeHash → Memo → Except HierarchyError (List (List TypeHash)) × Memo
  | [], memo => (.ok [], memo)
  | c :: cs, memo =>
    match step c memo with
    | (.error e, memo) => (.error e, memo)
    | (.ok mro, memo) =>
      match linearizeEach step cs memo with
      | (.error e, memo) => (.error e, memo)
      | (.ok mros, memo) => (.ok (mro :: mros), memo)

/-- What `c` adds to the linearizations of its bases: itself in front of their merge. -/
def extend (c : TypeHash) (direct : List TypeHash) (mros : List (List TypeHash)) :
    Except HierarchyError (List TypeHash) :=
  if direct = [] then .ok [c] else (c :: ·) <$> merge c (mros ++ [direct])

/-- Linearize `c`, whose descendants on the way here are `visiting`, in a hierarchy of
bounded depth. -/
def linearizeWithin (bases : Bases) : Nat → List TypeHash → TypeHash → Memo →
    Except HierarchyError (List TypeHash) × Memo
  | 0, _, c, memo => (.error (.circular c), memo)
  | bound + 1, visiting, c, memo =>
    match memo.find? c with
    | some done => (.ok done, memo)
    | none =>
      if visiting.contains c then (.error (.circular c), memo)
      else
        let direct := directBases bases c
        match linearizeEach (linearizeWithin bases bound (c :: visiting)) direct memo with
        | (.error e, memo) => (.error e, memo)
        | (.ok mros, memo) =>
          match extend c direct mros with
          | .error e => (.error e, memo)
          | .ok mro => (.ok mro, memo.insert c mro)

/-- The linearization of `c`. On the way from `c` to an ancestor every class but the last has
bases, and none is met twice without an error, so the hierarchy is no deeper than the number
of classes with bases, plus one for the last class and one for a class met again. -/
def linearize (bases : Bases) (c : TypeHash) (memo : Memo) :
    Except HierarchyError (List TypeHash) × Memo :=
  linearizeWithin bases (bases.entries.length + 2) [] c memo

end Linearization

end ClassLang
