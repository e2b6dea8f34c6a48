import Samo.Proofs.Inquiries
import Samo.Proofs.PolicyAgreement

/-!
# What questions about expressions report

A question about an expression makes reports, and all of them are about expressions, whatever the
expression, the symbol table and the policy are (`Check.Inquiry.confined`). What is recorded are the
words of a report, so a step is said to report problems of a kind if it adds the words of such
problems alone (`Check.Confined`).
-/

namespace Samo

open Check

/-! ## Steps that report problems of a kind -/

namespace Check

variable {α β : Type} {P : Problem → Prop}

/-- What a step adds to the record from a state is about problems of a kind, wherever it ends. -/
def ConfinedAt (P : Problem → Prop) (m : Check α) (s : State) : Prop :=
  ∀ d ∈ (stateOf (m s)).engine.diagnostics,
    d ∈ s.engine.diagnostics ∨ ∃ p, P p ∧ d.message = p.message

/-- The same from every state. -/
def Confined (P : Problem → Prop) (m : Check α) : Prop := ∀ s, ConfinedAt P m s

theorem ConfinedAt.bind {m : Check α} {f : α → Check β} {s : State} (first : ConfinedAt P m s)
    (second : ∀ a s', m s = .ok a s' → ConfinedAt P (f a) s') : ConfinedAt P (m >>= f) s := by
  intro d member
  cases run : m s with
  | error h s' =>
      rw [bind_error run] at member
      have first := first d
      rw [run] at first
      exact first member
  | ok a s' =>
      rw [bind_ok run] at member
      rcases second a s' run d member with old | new
      · have first := first d
        rw [run] at first
        exact first old
      · exact .inr new

theorem ConfinedAt.imp {Q : Problem → Prop} {m : Check α} {s : State} (confined : ConfinedAt P m s)
    (weaker : ∀ p, P p → Q p) : ConfinedAt Q m s := by
  intro d member
  refine (confined d member).imp_right ?_
  rintro ⟨p, kind, same⟩
  exact ⟨p, weaker p kind, same⟩

namespace Confined

theorem pure (a : α) : Confined P (pure a : Check α) := fun _ _ => .inl

theorem bind {m : Check α} {f : α → Check β} (first : Confined P m)
    (second : ∀ a, Confined P (f a)) : Confined P (m >>= f) :=
  fun s => (first s).bind fun a s' _ => second a s'

/-- A report adds its own problem, whether it is the end of the run or not. -/
theorem fatal (pos : Pos) {p : Problem} (kind : P p) : Confined P (fatal pos p) := by
  intro s d member
  have left : stateOf (Check.fatal pos p s) = s.afterFatal pos p := by
    rw [fatal_run]
    split <;> rfl
  rw [left] at member
  rcases (Engine.mem_record ..).mp member with old | rfl
  · exact .inl old
  · exact .inr ⟨p, kind, rfl⟩

theorem error (pos : Pos) {p : Problem} (kind : P p) : Confined P (error pos p) := by
  intro s d member
  rcases (Engine.mem_record ..).mp member with old | rfl
  · exact .inl old
  · exact .inr ⟨p, kind, rfl⟩

theorem makeAll {rs : List Report} (kind : ∀ r ∈ rs, P r.problem) : Confined P (makeAll rs) := by
  induction rs with
  | nil => exact pure ()
  | cons r rs ih =>
      obtain ⟨first, others⟩ := List.forall_mem_cons.mp kind
      cases r with
      | fatal pos p => exact (fatal pos first).bind fun _ => ih others
      | error pos p => exact (error pos first).bind fun _ => ih others

end Confined

/-- Whatever is asked of an expression, the reports are about expressions. -/
theorem Inquiry.confined {Q : Pos → Prop} {ms : List Mention} {owed : Prop} {admits : α → Prop}
    {m : Check α} (inquiry : Inquiry Q ms owed admits m) : Confined (·.inExpression) m := by
  intro s
  obtain ⟨rs, a, -, kind, same⟩ := inquiry s.symbols.bindings
  have made := (Confined.makeAll (P := (·.inExpression)) kind).bind (fun _ => .pure a) s
  unfold ConfinedAt at made ⊢
  rw [same s ⟨fun _ _ => rfl, rfl⟩]
  exact made

end Check

end Samo
