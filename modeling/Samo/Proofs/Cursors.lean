import Samo.Syntax.Cursor

/-!
# Moving a cursor

A cursor that moves on has fewer tokens before it and never fewer errors (`Cursor.Onward`). The flaw
of the token in front has been reported already; what was reported besides it is there for good
(`Cursor.Marred`).
-/

namespace Samo.Cursor

/-- The positions of the tokens that are left. -/
def positions (c : Cursor) : List Pos := c.rest.map Token.pos

/-- The report on the token in front, if it is invalid. -/
def pending (c : Cursor) : List SyntaxError :=
  match c.front.flaw? with
  | some flaw => [⟨c.front.pos, .flaw flaw⟩]
  | none => []

/-- The token in front has been looked at. -/
def Looked (c : Cursor) : Prop := c.pending.length ≤ c.errors.length

/-- Something was reported besides the flaw of the token in front. -/
def Marred (c : Cursor) : Prop := c.pending.length < c.errors.length

theorem errors_look (c : Cursor) : c.look.errors = c.errors ++ c.pending := by
  unfold look pending
  cases c.front.flaw? with
  | some flaw => rfl
  | none => exact (List.append_nil _).symm

theorem front_look (c : Cursor) : c.look.front = c.front := by
  rw [front, rest_look, eof_look, front]

theorem pending_look (c : Cursor) : c.look.pending = c.pending := by
  rw [pending, front_look, pending]

theorem pending_report (c : Cursor) (e : SyntaxError) : (c.report e).pending = c.pending := rfl

theorem marred_report {c : Cursor} (looked : c.Looked) (e : SyntaxError) : (c.report e).Marred := by
  unfold Looked at looked
  unfold Marred
  rw [pending_report, report, List.length_append, List.length_singleton]
  omega

theorem Marred.errors_ne_nil {c : Cursor} (marred : c.Marred) : c.errors ≠ [] := by
  unfold Marred at marred
  intro none
  rw [none] at marred
  exact absurd marred (Nat.not_lt_zero _)

/-- Skipping takes one token after the other, so it keeps to an order that each step keeps to. -/
theorem skip_induction {R : Cursor → Cursor → Prop} (refl : ∀ c, R c c) (next : ∀ c, R c c.next)
    (trans : ∀ {a b c}, R a b → R b c → R a c) (topLevel : Bool) (n : Nat) (c : Cursor) :
    R c (c.skip topLevel n) := by
  induction n generalizing c with
  | zero => exact refl c
  | succ n ih =>
      unfold skip
      split
      · exact refl c
      · exact next c
      · split
        · exact next c
        · exact refl c
      · exact trans (next c) (ih c.next)

/-- A cursor that has moved on. -/
structure Onward (c c' : Cursor) : Prop where
  eof : c'.eof = c.eof
  rest : c'.positions.Sublist c.positions
  looked : c.Looked → c'.Looked
  marred : c.Marred → c'.Marred

namespace Onward

theorem refl (c : Cursor) : c.Onward c := ⟨rfl, .refl _, id, id⟩

theorem trans {c₁ c₂ c₃ : Cursor} (first : c₁.Onward c₂) (second : c₂.Onward c₃) : c₁.Onward c₃ where
  eof := second.eof.trans first.eof
  rest := second.rest.trans first.rest
  looked looked := second.looked (first.looked looked)
  marred marred := second.marred (first.marred marred)

theorem next (c : Cursor) : c.Onward c.next := by
  refine ⟨eof_next c, ?_, ?_, ?_⟩
  · rw [positions, rest_next]
    exact (List.tail_sublist c.rest).map Token.pos
  · intro looked
    unfold Cursor.next
    split
    · exact looked
    · unfold Looked
      rw [errors_look, pending_look, List.length_append]
      omega
  · intro marred
    have reported := List.length_pos_iff.mpr marred.errors_ne_nil
    unfold Cursor.next
    split
    · exact marred
    · unfold Marred
      rw [errors_look, pending_look, List.length_append]
      exact Nat.lt_add_of_pos_left reported

theorem report (c : Cursor) (e : SyntaxError) : c.Onward (c.report e) where
  eof := rfl
  rest := .refl _
  looked looked := Nat.le_of_lt (marred_report looked e)
  marred marred := marred_report (Nat.le_of_lt marred) e

theorem skip (topLevel : Bool) (n : Nat) (c : Cursor) : c.Onward (c.skip topLevel n) :=
  skip_induction refl next trans topLevel n c

end Onward

theorem ends_ofText (cs : List Char) : (ofText cs).eof.kind = .endOfFile := by
  rw [ofText, eof_look]
  rfl

end Samo.Cursor
