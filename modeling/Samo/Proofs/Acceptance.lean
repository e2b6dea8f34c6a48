import Samo.Proofs.QuietRuns
import Samo.Proofs.Visits

/-!
# Accepted programs

A program is accepted if its check records neither a fatal diagnostic nor an error. The check under
the policy `stop` then gets to its end, whatever policy it was (`Program.Accepted.run`), so every
statement of the program is visited where it stands (`Program.Accepted.visits`).
-/

namespace Samo

open Check

/-- The check of a program finds nothing wrong with it. -/
def Program.Accepted (program : Program) (s : State) : Prop :=
  (program.checked s).engine.failure? = none

/-- The check of an accepted program gets to its end without a fatal report, and leaves the table
that the check under the given policy leaves. -/
theorem Program.Accepted.run {program : Program} {o : Options} {file : String}
    {builtins : Registry} {log : Log}
    (accepted : program.Accepted (o.initialState file builtins log)) :
    ∃ s', Stmt.checkAll program ({ o with policy := .stop }.initialState file builtins log) =
        .ok () s' ∧
      s'.symbols = (program.checked (o.initialState file builtins log)).symbols := by
  let s := { o with policy := .collect }.initialState file builtins log
  have empty : s.engine.NoFatal := fun d member => nomatch member
  have agrees := program.checked_agrees (s := s) rfl empty
  unfold Accepted at accepted
  rw [Engine.failure?_eq_none_iff (program.checked_counted ⟨rfl, rfl, rfl⟩)] at accepted
  cases policy : o.policy with
  | collect =>
      have same : o.initialState file builtins log = s := by
        simp only [s, Options.initialState, policy]
      rw [same] at accepted ⊢
      rcases agrees with ⟨-, _, run⟩ | ⟨⟨d, member, fatal⟩, -⟩
      · exact ⟨_, run, rfl⟩
      · exact absurd fatal (accepted d member).1
  | stop =>
      have same : o.initialState file builtins log = s.stopping := by
        simp only [s, Options.initialState, policy, State.stopping]
      rw [same] at accepted ⊢
      rcases agrees with ⟨-, _, run⟩ | ⟨fatal, diagnostics, -⟩
      · exact ⟨_, run, by rw [checked_of_ok run]⟩
      · obtain ⟨d, member, fatal⟩ := Diagnostic.exists_fatal_throughFirstFatal fatal
        rw [← diagnostics] at member
        exact absurd fatal (accepted d member).1

/-- The check of an accepted program gets to its end under its own policy too, and quietly. -/
theorem Program.Accepted.quiet {program : Program} {o : Options} {file : String}
    {builtins : Registry} {log : Log}
    (accepted : program.Accepted (o.initialState file builtins log)) :
    ∃ r, Stmt.checkAll program (o.initialState file builtins log) = .ok () r ∧ r.Quiet := by
  obtain ⟨r, run⟩ : ∃ r, Stmt.checkAll program (o.initialState file builtins log) = .ok () r := by
    cases policy : o.policy with
    | stop =>
        obtain ⟨r, run, -⟩ := accepted.run
        rw [← policy] at run
        exact ⟨r, run⟩
    | collect =>
        obtain ⟨u, r, run, -, -⟩ := (Stmt.checkAll_disciplined program).collects
          (o.initialState file builtins log) policy
        exact ⟨r, run⟩
  have later := (Stmt.checkAll_disciplined program).extends_of_ok run
  have counted : r.engine.Counted := later.counted ⟨rfl, rfl, rfl⟩
  unfold Program.Accepted at accepted
  rw [checked_of_ok run] at accepted
  exact ⟨r, run, (Engine.failure?_eq_none_iff counted).mp accepted⟩

/-! ## From the start -/

theorem SymbolTable.scope?_init (builtins : Registry) (c : Coordinates) :
    (SymbolTable.init builtins).scope? c =
      if c = .global then some ⟨.global, none, []⟩ else none := by
  obtain ⟨d, i⟩ := c
  cases d with
  | zero =>
      cases i with
      | zero => rfl
      | succ i => rfl
  | succ d => rfl

theorem SymbolTable.wellFormed_init (builtins : Registry) :
    (SymbolTable.init builtins).WellFormed := by
  have only : ∀ c s, (SymbolTable.init builtins).scope? c = some s →
      c = .global ∧ s = ⟨.global, none, []⟩ := by
    intro c s found
    rw [scope?_init] at found
    split at found
    · next here =>
      cases found
      exact ⟨here, rfl⟩
    · cases found
  refine ⟨⟨_, rfl⟩, ?_, ?_, ?_, ?_⟩
  · intro c s found
    obtain ⟨rfl, rfl⟩ := only c s found
    rfl
  · intro c s found
    obtain ⟨rfl, rfl⟩ := only c s found
    exact .inl ⟨rfl, rfl⟩
  · intro start c registered
    cases registered
  · intro c s found name member
    obtain ⟨rfl, rfl⟩ := only c s found
    cases member

/-- Nothing is declared at the start of a program. -/
theorem Standing.top (o : Options) (file : String) (builtins : Registry) (log : Log) :
    Standing .top ({ o with policy := .stop }.initialState file builtins log) := by
  refine ⟨rfl, SymbolTable.wellFormed_init builtins, fun name => ?_, rfl, rfl⟩
  constructor
  · intro visible
    cases visible
  · intro member
    cases member

/-- The table that the check of an accepted program leaves is well formed, and has the built-in
functions that were given. -/
theorem Program.Accepted.table {program : Program} {o : Options} {file : String}
    {builtins : Registry} {log : Log}
    (accepted : program.Accepted (o.initialState file builtins log)) :
    (program.checked (o.initialState file builtins log)).symbols.WellFormed ∧
      (program.checked (o.initialState file builtins log)).symbols.builtins = builtins := by
  obtain ⟨s', run, table⟩ := accepted.run
  have start := Standing.top o file builtins log
  have passes := Stmt.checkAll_passes program start.stop start.wellFormed run
  rw [← table]
  exact ⟨passes.table.wellFormed, passes.table.grows.builtins⟩

/-- Every statement of an accepted program is visited. -/
theorem Program.Accepted.visits {program : Program} {o : Options} {file : String}
    {builtins : Registry} {log : Log}
    (accepted : program.Accepted (o.initialState file builtins log)) :
    ∀ x ∈ program.located, Visited program.DistinctBlocks
      (program.checked (o.initialState file builtins log)).symbols .top .global x := by
  obtain ⟨s', run, table⟩ := accepted.run
  rw [← table]
  exact Stmt.checkAll_visits program (.top o file builtins log) run (.refl _) fun distinct =>
    ⟨distinct, fun _ _ => rfl⟩

end Samo
