import Samo.Text.Utf8

/-!
# Lines

Reads bytes line by line. A line ends at a line feed, and a carriage return before the line feed
belongs to the end. What follows the last line feed is a line too, unless it is empty. A line that
does not fit into the reader's buffer comes in pieces.
-/

namespace Samo.Text

/-- A line, or a piece of one that goes on. -/
structure Piece where
  bytes : Bytes
  goesOn : Bool := false
deriving DecidableEq, Repr

def lineFeed : UInt8 := 10

def carriageReturn : UInt8 := 13

/-- Without a carriage return at its end. -/
def dropReturn (bs : Bytes) : Bytes :=
  if bs.getLast? = some carriageReturn then bs.dropLast else bs

/--
The first piece of some bytes, for a buffer of `capacity` bytes, and what follows it. A carriage
return at the end of a full buffer waits for the line feed that may follow.
-/
def firstPiece (capacity : Nat) (bs : Bytes) : Piece × Bytes :=
  let buffer := bs.take capacity
  let line := buffer.takeWhile (· ≠ lineFeed)
  if line.length < buffer.length then (⟨dropReturn line, false⟩, bs.drop (line.length + 1))
  else if buffer.length < capacity then (⟨line, false⟩, [])
  else (⟨dropReturn line, true⟩, bs.drop (dropReturn line).length)

theorem length_le_dropReturn (bs : Bytes) : bs.length ≤ (dropReturn bs).length + 1 := by
  unfold dropReturn
  split <;> simp
  omega

/-- Every piece takes something away, as long as the buffer holds two bytes. -/
theorem length_firstPiece_lt {capacity : Nat} {bs : Bytes} (some_bytes : bs ≠ []) :
    (firstPiece (capacity + 2) bs).2.length < bs.length := by
  have positive : 0 < bs.length := List.length_pos_iff.mpr some_bytes
  unfold firstPiece
  simp only
  split
  · simp only [List.length_drop]
    omega
  · split
    · simpa using positive
    · rename_i _ full
      simp only [List.length_drop]
      have whole : ¬ ((bs.take (capacity + 2)).takeWhile (· ≠ lineFeed)).length
          < (bs.take (capacity + 2)).length := by assumption
      have long := length_le_dropReturn ((bs.take (capacity + 2)).takeWhile (· ≠ lineFeed))
      omega

/-- The lines of some bytes, in pieces that fit into a buffer of `capacity + 2` bytes. -/
def pieces (capacity : Nat) (bs : Bytes) : List Piece :=
  match bs with
  | [] => []
  | b :: rest =>
    (firstPiece (capacity + 2) (b :: rest)).1 ::
      pieces capacity (firstPiece (capacity + 2) (b :: rest)).2
termination_by bs.length
decreasing_by exact length_firstPiece_lt (by simp)

/-- The usual buffer of a reader, less two bytes. -/
def usualCapacity : Nat := 4094

/-- The lines of some bytes, for a reader with the usual buffer. -/
def lines (bs : Bytes) : List Piece := pieces usualCapacity bs

end Samo.Text
