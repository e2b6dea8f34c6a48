import Samo.Proofs.PolicyAgreement

/-!
# What a check records

A check records failures that it reports, and a fatal one if it reports one, under both policies
(`Program.checked_records`). Every error that it reports comes with a fatal report, so no check
fails without a fatal diagnostic, and that is the first one listed (`Program.errors_not_alone`).
-/

namespace Samo

open Check

variable {Q : Pos → Prop}

/-- The failures are listed with the fatal ones first. -/
theorem Engine.failure?_eq_some_iff {e : Engine} {f : Failure} :
    e.failure? = some f ↔ e.hasFailed = true ∧
      e.diagnostics.filter (·.severity = .fatal) ++ e.diagnostics.filter (·.severity = .error) =
        f.diagnostics := by
  obtain ⟨listed⟩ := f
  unfold failure?
  by_cases failed : e.hasFailed = true
  · rw [if_pos failed, Option.some.injEq, Failure.mk.injEq, and_iff_right failed]
  · rw [if_neg failed]
    constructor
    · intro none
      cases none
    · intro given
      exact absurd given.1 failed

namespace Program

/-- The failures that the check of a program records, whatever its policy is. -/
structure Records (rs : List Report) (file : String) (e : Engine) : Prop where
  counted : e.Counted
  failures : ∀ d ∈ e.diagnostics, d.Fails → ∃ r ∈ rs, d = r.diagnostic file
  fatal : (∃ r ∈ rs, r.isFatal = true) → ∃ d ∈ e.diagnostics, d.severity = .fatal

namespace Records

variable {rs : List Report} {file : String} {e : Engine}

/-- No report stands without a fatal one. -/
theorem loud (records : Records rs file e) (accounted : Accounted Q False False rs) {r : Report}
    (member : r ∈ rs) : ∃ d ∈ e.diagnostics, d.severity = .fatal := by
  apply records.fatal
  cases kind : r.isFatal with
  | true => exact ⟨r, member, kind⟩
  | false =>
      rcases accounted.owned (.inr ⟨r, member, kind⟩) with found | none
      · exact found
      · exact none.elim

theorem loud_of_hasFailed (records : Records rs file e) (accounted : Accounted Q False False rs)
    (failed : e.hasFailed = true) : ∃ d ∈ e.diagnostics, d.severity = .fatal := by
  obtain ⟨d, member, fails⟩ := (Engine.hasFailed_iff records.counted).mp failed
  obtain ⟨r, member, -⟩ := records.failures d member fails
  exact records.loud accounted member

theorem eq_nil_of_passed (records : Records rs file e) (accounted : Accounted Q False False rs)
    (passed : e.hasFailed = false) : rs = [] := by
  refine List.eq_nil_iff_forall_not_mem.mpr fun r member => ?_
  obtain ⟨d, member, fatal⟩ := records.loud accounted member
  have failed := (Engine.hasFailed_iff records.counted).mpr ⟨d, member, .inl fatal⟩
  rw [passed] at failed
  cases failed

theorem passes (records : Records [] file e) : e.failure? = none := by
  refine (Engine.failure?_eq_none_iff records.counted).mpr fun d member => ?_
  have fine : ¬ d.Fails := by
    intro fails
    obtain ⟨r, none, -⟩ := records.failures d member fails
    cases none
  exact not_or.mp fine

end Records

/-- The policies agree on what is recorded, up to what follows a fatal report. -/
theorem checked_records {program : Program} {o : Options} {file : String} {builtins : Registry}
    {log : Log} {rs : List Report} {s' : State}
    (plays : Plays (Stmt.checkAll program) (o.initialState file builtins log) rs () s') :
    Records rs file (program.checked (o.initialState file builtins log)).engine := by
  let s := { o with policy := .collect }.initialState file builtins log
  have empty : s.engine.NoFatal := fun d member => by cases member
  have counted := program.checked_counted (s := o.initialState file builtins log) ⟨rfl, rfl, rfl⟩
  obtain ⟨es, tells, rfl⟩ := plays
  obtain ⟨l, run⟩ := tells.finished s ⟨s.engine, log, rfl⟩ Policy.noConfusion
  have gains := Event.gains s.engine es
  have failures : ∀ d : Diagnostic, d.Fails →
      (d ∈ (program.checked s).engine.diagnostics ↔
        ∃ r ∈ Event.reports es, d = r.diagnostic file) := by
    intro d fails
    rw [checked_of_ok run, gains.failures d fails]
    exact or_iff_right List.not_mem_nil
  have fatal : (∃ r ∈ Event.reports es, r.isFatal = true) →
      ∃ d ∈ (program.checked s).engine.diagnostics, d.severity = .fatal := by
    rintro ⟨r, member, fatal⟩
    exact ⟨_, (failures _ (r.fails_diagnostic file)).mpr ⟨r, member, rfl⟩,
      (r.isFatal_iff file).mp fatal⟩
  -- all is heard under `collect`; `stop` records what that does, up to a fatal report
  cases policy : o.policy with
  | collect =>
      have same : o.initialState file builtins log = s := by
        simp only [s, Options.initialState, policy]
      rw [same] at counted ⊢
      exact ⟨counted, fun d member fails => (failures d fails).mp member, fatal⟩
  | stop =>
      have same : o.initialState file builtins log = s.stopping := by
        simp only [s, Options.initialState, policy, State.stopping]
      rw [same] at counted ⊢
      rcases program.checked_agrees (s := s) rfl empty with ⟨-, _, run⟩ | ⟨some, diagnostics, -⟩
      · refine ⟨counted, ?_, ?_⟩
        · rw [checked_of_ok run]
          exact fun d member fails => (failures d fails).mp member
        · rw [checked_of_ok run]
          exact fatal
      · refine ⟨counted, fun d member fails => ?_, fun _ => ?_⟩
        · rw [diagnostics] at member
          exact (failures d fails).mp (Diagnostic.mem_of_mem_throughFirstFatal member)
        · rw [diagnostics]
          exact Diagnostic.exists_fatal_throughFirstFatal some

/--
An error is never the only failure. If the check of a program records an error, it records a fatal
diagnostic too. So a check fails exactly when a fatal diagnostic is recorded, and the failures are
listed with a fatal one first.
-/
theorem errors_not_alone (program : Program) (o : Options) (file : String) (builtins : Registry)
    (log : Log) :
    let engine := (program.checked (o.initialState file builtins log)).engine
    ((∃ d ∈ engine.diagnostics, d.severity = .error) →
        ∃ d ∈ engine.diagnostics, d.severity = .fatal) ∧
      (engine.failure?.isSome ↔ ∃ d ∈ engine.diagnostics, d.severity = .fatal) ∧
      ∀ f, engine.failure? = some f →
        ∃ d rest, f.diagnostics = d :: rest ∧ d ∈ engine.diagnostics ∧ d.severity = .fatal := by
  intro engine
  obtain ⟨rs, _, s', accounted, plays⟩ :=
    Stmt.checkAll_scripted_anywhere program (o.initialState file builtins log)
  have records : Records rs file engine := checked_records plays
  have failed_iff : engine.hasFailed = true ↔ ∃ d ∈ engine.diagnostics, d.severity = .fatal := by
    refine ⟨records.loud_of_hasFailed accounted, ?_⟩
    rintro ⟨d, member, fatal⟩
    exact (Engine.hasFailed_iff records.counted).mpr ⟨d, member, .inl fatal⟩
  refine ⟨?_, ?_, ?_⟩
  · rintro ⟨d, member, error⟩
    exact failed_iff.mp ((Engine.hasFailed_iff records.counted).mpr ⟨d, member, .inr error⟩)
  · rw [← failed_iff, Option.isSome_iff_exists]
    simp only [Engine.failure?_eq_some_iff, exists_and_left, and_iff_left_iff_imp]
    intro _
    exact ⟨⟨_⟩, rfl⟩
  · intro f failure
    obtain ⟨failed, listed⟩ := Engine.failure?_eq_some_iff.mp failure
    obtain ⟨x, member, fatal⟩ := failed_iff.mp failed
    -- the fatal ones come first in the list, and there is one
    cases fatals : engine.diagnostics.filter (·.severity = .fatal) with
    | nil =>
        have none := List.filter_eq_nil_iff.mp fatals x member
        exact absurd fatal (by simpa using none)
    | cons d rest =>
        rw [fatals] at listed
        have first : d ∈ engine.diagnostics.filter (·.severity = .fatal) := by simp [fatals]
        obtain ⟨recorded, severity⟩ := List.mem_filter.mp first
        exact ⟨d, _, listed.symm, recorded, by simpa using severity⟩

end Program

/-- `boolie same = 1 == true;` compares what cannot be compared. -/
def unlike : Program :=
  [.declare ⟨1, 0⟩ (.value .boolie) ⟨1, 7⟩ "same"
    (some (.binary ⟨1, 16⟩ .eq (.int ⟨1, 14⟩ "1" 1) (.boolie ⟨1, 19⟩ true)))]

/-- The comparison is an error, and the declaration that it is for is fatal. -/
theorem unlike_fatal :
    let engine := (unlike.checked
      (({} : Options).initialState "main" .empty ({} : Options).newLog)).engine
    (∃ d ∈ engine.diagnostics, d.severity = .error) ∧
      ∃ d ∈ engine.diagnostics, d.severity = .fatal := by
  intro engine
  have error : ∃ d ∈ engine.diagnostics, d.severity = .error := by decide +kernel
  exact ⟨error, (unlike.errors_not_alone {} "main" .empty _).1 error⟩

end Samo
