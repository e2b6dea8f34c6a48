import Samo.Proofs.PolicyAgreement

/-!
# Runs that find nothing wrong

A run is quiet if it gets to its end and neither a fatal diagnostic nor an error is recorded by
then. Nothing recorded is lost, so every step on the way was quiet too, and no policy made a
difference to it (`Disciplined.stopping_ok`). A step that only reads the table has nothing to report
on a quiet run, so it leaves every state with that table as it is (`ReadsTable.of_quiet`).
-/

namespace Samo

/-- A report is in the list afterwards. -/
theorem Engine.recorded (e : Engine) (severity : Severity) (pos : Pos) (message : String) :
    ∃ d ∈ (e.record severity pos message).diagnostics, d.severity = severity :=
  ⟨_, (e.mem_record severity pos message _).mpr (.inr rfl), rfl⟩

namespace Check

variable {α : Type} {m : Check α} {s s' : State} {a : α}

/-- Nothing is recorded that makes a program fail. -/
def State.Quiet (s : State) : Prop :=
  ∀ d ∈ s.engine.diagnostics, d.severity ≠ .fatal ∧ d.severity ≠ .error

namespace State.Quiet

theorem noFatal (quiet : s.Quiet) : s.engine.NoFatal := fun d member => (quiet d member).1

/-- Nothing was recorded before that is not recorded now. -/
theorem earlier (quiet : s'.Quiet) (later : s.Extends s') : s.Quiet :=
  fun d member => quiet d (later.diagnostics.subset member)

end State.Quiet

namespace Disciplined

theorem extends_of_ok (disciplined : Disciplined m) (run : m s = .ok a s') : s.Extends s' := by
  have grown := disciplined.grows s
  rw [run] at grown
  exact grown

/-- What a quiet run gives is given under the policy `stop`. -/
theorem stopping_ok (disciplined : Disciplined m) (run : m s = .ok a s') (quiet : s'.Quiet) :
    ∃ r, m s.stopping = .ok a r := by
  cases policy : s.engine.policy with
  | stop =>
      have same : s.stopping = s := by
        unfold State.stopping
        rw [← policy]
      exact ⟨s', by rw [same, run]⟩
  | collect =>
      obtain ⟨b, r, collected, -, agrees⟩ := disciplined.collects s policy
      rw [run] at collected
      cases collected
      have agrees := agrees (quiet.earlier (disciplined.extends_of_ok run)).noFatal
      generalize stopped : m s.stopping = result at agrees
      cases agrees with
      | finished none log => exact ⟨_, rfl⟩
      | halted _ fatal =>
          obtain ⟨d, member, fatal⟩ := fatal
          exact absurd fatal (quiet d member).1

end Disciplined

/-- Reports are no part of a quiet run. -/
theorem makeAll_quiet {rs : List Report} (run : makeAll rs s = .ok () s') (quiet : s'.Quiet) :
    rs = [] := by
  cases rs with
  | nil => rfl
  | cons r rs =>
      exfalso
      obtain ⟨u, s₁, made, others⟩ := bind_eq_ok_iff.mp run
      have made' : Disciplined (makeAll rs) := .of_tells fun s => ⟨_, _, s, .makeAll rs s⟩
      have quiet₁ : s₁.Quiet := quiet.earlier (made'.extends_of_ok others)
      cases r with
      | error pos p =>
          cases made
          obtain ⟨d, member, error⟩ := s.engine.recorded .error pos p.message
          exact (quiet₁ d member).2 error
      | fatal pos p =>
          have same := fatal_run pos p s
          rw [show fatal pos p s = .ok () s₁ from made] at same
          split at same
          · cases same
          · cases same
            obtain ⟨d, member, fatal⟩ := s.engine.recorded .fatal pos p.message
            exact (quiet₁ d member).1 fatal

/-- A step that makes some reports and gives an answer made none on a quiet run. -/
theorem answer_of_quiet {rs : List Report} {b : α} (made : m s = (makeAll rs >>= fun _ => pure b) s)
    (run : m s = .ok a s') (quiet : s'.Quiet) : rs = [] ∧ b = a := by
  rw [made] at run
  obtain ⟨u, s₁, reported, given⟩ := bind_eq_ok_iff.mp run
  obtain ⟨rfl, rfl⟩ := pure_eq_ok_iff.mp given
  exact ⟨makeAll_quiet reported quiet, rfl⟩

/-- The answer of a step that only reads depends on the table alone. -/
theorem ReadsTable.eq_of_ok (reads : ReadsTable m) (run : m s = .ok a s') {r r' : State} {b : α}
    (run' : m r = .ok b r') (same : r.symbols = s.symbols) : a = b := by
  obtain ⟨rs, c, made⟩ := reads s.symbols
  rw [made s rfl] at run
  rw [made r same] at run'
  obtain ⟨u, s₁, -, given⟩ := bind_eq_ok_iff.mp run
  obtain ⟨u', r₁, -, given'⟩ := bind_eq_ok_iff.mp run'
  rw [← (pure_eq_ok_iff.mp given).1, ← (pure_eq_ok_iff.mp given').1]

/-- A step that only reads and has a quiet run does the same, whatever the state is besides the
table. -/
theorem ReadsTable.of_quiet (reads : ReadsTable m) (run : m s = .ok a s') (quiet : s'.Quiet)
    {r : State} (same : r.symbols = s.symbols) : m r = .ok a r := by
  obtain ⟨rs, b, made⟩ := reads s.symbols
  obtain ⟨rfl, rfl⟩ := answer_of_quiet (made s rfl) run quiet
  exact made r same

end Check

end Samo
