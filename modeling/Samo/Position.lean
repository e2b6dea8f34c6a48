/-!
# Positions

A position is a line and a column. Lines of a text are counted from one and columns from zero, in
characters, and only a line feed starts a new line. A `Mark` is a position together with the number
of characters before it; `Mark.step` moves it over one character.
-/

namespace Samo

/-- A place in a text. Both numbers are integers, since a report may name a place no text has. -/
structure Pos where
  line : Int
  column : Int
deriving DecidableEq, Repr, Inhabited

/-- The position given to what no text contains. -/
def Pos.nowhere : Pos := ⟨0, 0⟩

/-- Line and column with a colon between them. -/
def Pos.text (p : Pos) : String := s!"{p.line}:{p.column}"

/-- A position in a text, with the number of characters before it. -/
structure Mark where
  offset : Nat
  pos : Pos
deriving DecidableEq, Repr, Inhabited

namespace Mark

/-- The start of a text. -/
def start : Mark := ⟨0, ⟨1, 0⟩⟩

/-- The mark after one more character. -/
def step (m : Mark) (c : Char) : Mark where
  offset := m.offset + 1
  pos := if c = '\n' then ⟨m.pos.line + 1, 0⟩ else ⟨m.pos.line, m.pos.column + 1⟩

/-- The mark after some more characters. -/
def advance (m : Mark) (cs : List Char) : Mark := cs.foldl step m

@[simp] theorem advance_nil (m : Mark) : m.advance [] = m := rfl

@[simp] theorem advance_cons (m : Mark) (c : Char) (cs : List Char) :
    m.advance (c :: cs) = (m.step c).advance cs := rfl

theorem advance_append (m : Mark) (cs ds : List Char) :
    m.advance (cs ++ ds) = (m.advance cs).advance ds := by
  simp [advance]

@[simp] theorem offset_advance (m : Mark) (cs : List Char) :
    (m.advance cs).offset = m.offset + cs.length := by
  induction cs generalizing m with
  | nil => simp
  | cons c cs ih => simp [ih, step]; omega

end Mark

end Samo
