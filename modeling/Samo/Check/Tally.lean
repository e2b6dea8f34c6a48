import Samo.Ty

/-!
# The dominant type

An expression has leaves, and each leaf has a type. A `Tally` counts the types as they come; the
dominant one is the first that came to be seen more often than any other. A `Detection` is what the
leaves say together: the dominant type, and whether there is no other.
-/

namespace Samo

/-- The types seen so far, the latest first, and which of them was the first to be seen so often. -/
structure Tally where
  seen : List Ty
  dominant : Ty
  best : Nat
deriving DecidableEq, Repr

namespace Tally

/-- Nothing seen. -/
def empty : Tally := ⟨[], .thing, 0⟩

def add (t : Tally) (type : Ty) : Tally :=
  let n := t.seen.count type + 1
  if t.best < n then ⟨type :: t.seen, type, n⟩ else { t with seen := type :: t.seen }

def ofLeaves (leaves : List Ty) : Tally := leaves.foldl add empty

end Tally

/-- The dominant type of the leaves, and whether all leaves have it. -/
structure Detection where
  homogeneous : Bool
  type : Ty
deriving DecidableEq, Repr

namespace Detection

/-- What some leaves say. No leaves at all would be no value. -/
def ofLeaves (leaves : List Ty) : Detection :=
  if leaves.isEmpty then ⟨true, .void⟩
  else
    let tally := Tally.ofLeaves leaves
    ⟨tally.best = leaves.length, tally.dominant⟩

/-- How a report names what was found. -/
def describe (d : Detection) : String :=
  if d.homogeneous then d.type.name else "mismatched types"

end Detection

end Samo
