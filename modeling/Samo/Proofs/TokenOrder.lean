import Samo.Token.Lexer

/-!
# Tokens stand one behind the other

A mark only moves on, to the right or to the next line. So the tokens of a text stand in order
(`tokensFrom_ordered`).
-/

namespace Samo

/-- One position is before another in a text: on an earlier line, or further left. -/
def Pos.Before (p q : Pos) : Prop := p.line < q.line ∨ p.line = q.line ∧ p.column < q.column

instance (p q : Pos) : Decidable (p.Before q) := inferInstanceAs (Decidable (_ ∨ _))

theorem Pos.Before.trans {p q r : Pos} (first : p.Before q) (second : q.Before r) : p.Before r := by
  unfold Before at *
  omega

theorem Pos.Before.asymm {p q : Pos} (before : p.Before q) : ¬ q.Before p := by
  unfold Before at *
  omega

theorem Pos.Before.ne {p q : Pos} (before : p.Before q) : p ≠ q := by
  rintro rfl
  unfold Before at before
  omega

namespace Mark

theorem before_step (m : Mark) (c : Char) : m.pos.Before (m.step c).pos := by
  unfold Pos.Before step
  by_cases feed : c = '\n'
  · rw [if_pos feed]
    exact .inl (Int.lt_succ m.pos.line)
  · rw [if_neg feed]
    exact .inr ⟨rfl, Int.lt_succ m.pos.column⟩

theorem before_advance (m : Mark) (c : Char) (cs : List Char) :
    m.pos.Before (m.advance (c :: cs)).pos := by
  induction cs generalizing m c with
  | nil => exact m.before_step c
  | cons d cs ih => exact (m.before_step c).trans (ih (m.step c) d)

end Mark

/-- The tokens of a text start at its mark or behind it, each before the next ones. -/
theorem tokensFrom_ordered (m : Mark) (cs : List Char) :
    (∀ t ∈ tokensFrom m cs, t.pos = m.pos ∨ m.pos.Before t.pos) ∧
      (tokensFrom m cs).Pairwise fun t u => t.pos.Before u.pos := by
  fun_induction tokensFrom m cs with
  | case1 m => simp
  | case2 m c cs space ih =>
      refine ⟨fun t member => .inr ?_, ih.2⟩
      rcases ih.1 t member with same | behind
      · rw [same]
        exact m.before_step c
      · exact (m.before_step c).trans behind
  | case3 m c cs space s ih =>
      have moved := m.before_advance c s.tail
      -- the tokens that follow start behind the text of this one
      have later : ∀ t ∈ tokensFrom (m.advance (c :: s.tail)) s.rest, m.pos.Before t.pos := by
        intro t member
        rcases ih.1 t member with same | behind
        · rw [same]
          exact moved
        · exact moved.trans behind
      refine ⟨fun t member => ?_, List.pairwise_cons.mpr ⟨later, ih.2⟩⟩
      rcases List.mem_cons.mp member with rfl | member
      · exact .inl rfl
      · exact .inr (later t member)

/-- A token starts before the end of its text. -/
theorem before_end_of_mem_tokensFrom {m : Mark} {cs : List Char} {t : Token}
    (member : t ∈ tokensFrom m cs) : t.pos.Before (m.advance cs).pos := by
  fun_induction tokensFrom m cs with
  | case1 m => cases member
  | case2 m c cs space ih => exact ih member
  | case3 m c cs space s ih =>
      rcases List.mem_cons.mp member with rfl | member
      · exact m.before_advance c cs
      · have whole : c :: cs = c :: s.tail ++ s.rest := congrArg (c :: ·) (scan_append c cs).symm
        rw [whole, Mark.advance_append]
        exact ih member

end Samo
