/-!
# Running steps

A check and a parser are both steps that change a state and can fail. These are the rules by which a
run of a step in parts is taken apart.
-/

namespace Samo

variable {ε σ α β : Type}

theorem bind_ok {m : EStateM ε σ α} {f : α → EStateM ε σ β} {s s' : σ} {a : α}
    (run : m s = .ok a s') : (m >>= f) s = f a s' := by
  simp only [bind, EStateM.bind, run]

theorem bind_error {m : EStateM ε σ α} {f : α → EStateM ε σ β} {s s' : σ} {e : ε}
    (run : m s = .error e s') : (m >>= f) s = .error e s' := by
  simp only [bind, EStateM.bind, run]

/-- A step in two parts gets to its end when both parts do. -/
theorem bind_eq_ok_iff {m : EStateM ε σ α} {f : α → EStateM ε σ β} {s s' : σ} {b : β} :
    (m >>= f) s = .ok b s' ↔ ∃ a s₁, m s = .ok a s₁ ∧ f a s₁ = .ok b s' := by
  constructor
  · intro run
    cases first : m s with
    | ok a s₁ =>
        rw [bind_ok first] at run
        exact ⟨a, s₁, rfl, run⟩
    | error e s₁ =>
        rw [bind_error first] at run
        cases run
  · rintro ⟨a, s₁, first, second⟩
    rw [bind_ok first, second]

/-- A step in two parts fails when one of them does. -/
theorem bind_eq_error_iff {m : EStateM ε σ α} {f : α → EStateM ε σ β} {s s' : σ} {e : ε} :
    (m >>= f) s = .error e s' ↔
      m s = .error e s' ∨ ∃ a s₁, m s = .ok a s₁ ∧ f a s₁ = .error e s' := by
  constructor
  · intro run
    cases first : m s with
    | ok a s₁ =>
        rw [bind_ok first] at run
        exact .inr ⟨a, s₁, rfl, run⟩
    | error e s₁ =>
        rw [bind_error first] at run
        cases run
        exact .inl rfl
  · rintro (first | ⟨a, s₁, first, second⟩)
    · rw [bind_error first]
    · rw [bind_ok first, second]

@[simp] theorem pure_run (a : α) (s : σ) : (pure a : EStateM ε σ α) s = .ok a s := rfl

theorem pure_eq_ok_iff {a b : α} {s s' : σ} :
    (pure a : EStateM ε σ α) s = .ok b s' ↔ a = b ∧ s = s' := by
  rw [pure_run, EStateM.Result.ok.injEq]

@[simp] theorem get_run (s : σ) : (get : EStateM ε σ σ) s = .ok s s := rfl

end Samo
