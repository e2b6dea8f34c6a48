import Samo.Proofs.Spots

/-!
# Where the parts of a program stand

The positions of a tree come from the tokens it was read from. If all tokens that are left lie in
some part of a text, so do the positions of what is read from them, and the positions of errors
(`Parser.Marks.yields`).
-/

namespace Samo

/-- All tokens that are left lie in a part of a text, and so does the end. -/
structure Cursor.Within (Q : Pos → Prop) (c : Cursor) : Prop where
  rest : ∀ p ∈ c.positions, Q p
  eof : Q c.eof.pos
  ends : c.eof.kind = .endOfFile

namespace Cursor.Within

variable {Q : Pos → Prop} {c : Cursor}

theorem front (within : c.Within Q) : Q c.front.pos := by
  rcases List.mem_append.mp (c.front_sublist.subset (List.mem_singleton_self _)) with left | last
  · exact within.rest _ left
  · rw [List.mem_singleton.mp last]
    exact within.eof

theorem onward {c' : Cursor} (within : c.Within Q) (onward : c.Onward c') : c'.Within Q :=
  ⟨fun p member => within.rest p (onward.rest.subset member),
    by rw [onward.eof]; exact within.eof, by rw [onward.eof]; exact within.ends⟩

end Cursor.Within

namespace Parser

variable {α β : Type} {Q : Pos → Prop} {W : α → Prop} {W' : β → Prop}

/-- How a parser ends in a part of a text: with a result that satisfies `W`, or with an error. -/
def Ends (Q : Pos → Prop) (W : α → Prop) : EStateM.Result SyntaxError Cursor α → Prop
  | .ok a c => W a ∧ c.Within Q
  | .error e c => Q e.pos ∧ c.Within Q

/-- In a part of a text, a parser gives results that satisfy `W`. -/
def Yields (Q : Pos → Prop) (W : α → Prop) (p : Parser α) : Prop :=
  ∀ c : Cursor, c.Within Q → Ends Q W (p c)

theorem Ends.bind {p : Parser α} {f : α → Parser β} {c : Cursor} (first : Ends Q W (p c))
    (second : ∀ a, W a → Yields Q W' (f a)) : Ends Q W' ((p >>= f) c) := by
  cases run : p c with
  | ok a c₁ =>
      rw [run] at first
      rw [bind_ok run]
      exact second a first.1 c₁ first.2
  | error e c₁ =>
      rw [run] at first
      rw [bind_error run]
      exact first

theorem Yields.pure {a : α} (good : W a) : Yields Q W (pure a) := fun _ within => ⟨good, within⟩

theorem Yields.bind {p : Parser α} {f : α → Parser β} (first : Yields Q W p)
    (second : ∀ a, W a → Yields Q W' (f a)) : Yields Q W' (p >>= f) :=
  fun c within => (first c within).bind second

/-- What names tokens of a part of a text lies there. -/
theorem Marks.yields {spots : α → List Pos} {p : Parser α} (marks : Marks [] spots p)
    (good : ∀ a, (∀ q ∈ spots a, Q q) → W a) : Yields Q W p := by
  intro c within
  have marked := marks c.front c within.ends rfl
  cases run : p c with
  | ok a c' =>
      rw [run] at marked
      obtain ⟨onward, taken⟩ := marked
      refine ⟨good a fun q member => within.rest q ?_, within.onward onward⟩
      exact taken.subset (List.mem_append_left _ member)
  | error e c' =>
      rw [run] at marked
      obtain ⟨onward, place⟩ := marked
      refine ⟨?_, within.onward onward⟩
      rcases place with front | taken
      · rw [front]
        exact (within.onward onward).front
      · exact within.rest _ (taken.subset List.mem_cons_self)

/-- Statements that are read in a part of a text lie there. -/
theorem Marks.news {p : Parser Stmt} (marks : Marks [] Stmt.spots p) (k : Nat) {c : Cursor}
    (within : c.Within Q) :
    ∃ news c', itemsUntil (· = .endOfFile) (recovering true p) k c = .ok news c' ∧
      ∀ s ∈ news, ∀ q ∈ s.spots, Q q := by
  obtain ⟨news, c', run, onward, taken⟩ := itemsUntil_marks true marks ended_top k c within.ends
  refine ⟨news, c', run, fun s member q here => ?_⟩
  rcases Stmt.mem_spotsAll c'.front.pos member here with named | rfl
  · exact within.rest q (taken.subset (List.mem_append_left _ named))
  · exact (within.onward onward).front

end Parser

end Samo
