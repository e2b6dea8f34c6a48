import Samo.Diagnostic
import Mathlib.Data.List.Basic

/-!
# What the engine records

A report adds at most one diagnostic, at the end (`record_cases`), and the counts are those of
the list (`Counted`). So a check failed exactly when a fatal diagnostic or an error is in the list
(`failure?_eq_none_iff`). `throughFirstFatal` is what a check that stops at the first fatal report
would have recorded of a list.
-/

namespace Samo

namespace Diagnostic

/-- The diagnostics up to the first fatal one, and that one. -/
def throughFirstFatal : List Diagnostic → List Diagnostic
  | [] => []
  | d :: ds => if d.severity = .fatal then [d] else d :: throughFirstFatal ds

theorem throughFirstFatal_cons (d : Diagnostic) (ds : List Diagnostic) :
    throughFirstFatal (d :: ds) =
      if d.severity = .fatal then [d] else d :: throughFirstFatal ds := rfl

/-- Without a fatal diagnostic the whole list is kept. -/
theorem throughFirstFatal_eq_self {ds : List Diagnostic} (none : ∀ d ∈ ds, d.severity ≠ .fatal) :
    throughFirstFatal ds = ds := by
  induction ds with
  | nil => rfl
  | cons d ds ih =>
      rw [throughFirstFatal_cons, if_neg (none d List.mem_cons_self),
        ih fun x member => none x (List.mem_cons_of_mem _ member)]

/-- The first fatal diagnostic is the last one kept. -/
theorem throughFirstFatal_append_cons {ds es : List Diagnostic} {d : Diagnostic}
    (none : ∀ d ∈ ds, d.severity ≠ .fatal) (fatal : d.severity = .fatal) :
    throughFirstFatal (ds ++ d :: es) = ds ++ [d] := by
  induction ds with
  | nil => rw [List.nil_append, throughFirstFatal_cons, if_pos fatal, List.nil_append]
  | cons x ds ih =>
      rw [List.cons_append, throughFirstFatal_cons, if_neg (none x List.mem_cons_self),
        ih fun y member => none y (List.mem_cons_of_mem _ member), List.cons_append]

theorem mem_of_mem_throughFirstFatal {ds : List Diagnostic} {d : Diagnostic}
    (member : d ∈ throughFirstFatal ds) : d ∈ ds := by
  induction ds with
  | nil => cases member
  | cons x ds ih =>
      rw [throughFirstFatal_cons] at member
      split at member
      · rw [List.mem_singleton.mp member]
        exact List.mem_cons_self
      · rcases List.mem_cons.mp member with rfl | member
        · exact List.mem_cons_self
        · exact List.mem_cons_of_mem _ (ih member)

/-- There is a fatal diagnostic among the ones kept if there is one at all. -/
theorem exists_fatal_throughFirstFatal {ds : List Diagnostic}
    (fatal : ∃ d ∈ ds, d.severity = .fatal) : ∃ d ∈ throughFirstFatal ds, d.severity = .fatal := by
  induction ds with
  | nil =>
      obtain ⟨d, member, -⟩ := fatal
      cases member
  | cons x ds ih =>
      rw [throughFirstFatal_cons]
      by_cases first : x.severity = .fatal
      · rw [if_pos first]
        exact ⟨x, List.mem_singleton_self x, first⟩
      · rw [if_neg first]
        obtain ⟨d, member, fatal⟩ := fatal
        rcases List.mem_cons.mp member with rfl | member
        · exact absurd fatal first
        · obtain ⟨d, member, fatal⟩ := ih ⟨d, member, fatal⟩
          exact ⟨d, List.mem_cons_of_mem _ member, fatal⟩

/-- A fatal diagnostic among the ones kept is the last of them. -/
theorem getLast?_throughFirstFatal {ds : List Diagnostic} {d : Diagnostic}
    (member : d ∈ throughFirstFatal ds) (fatal : d.severity = .fatal) :
    (throughFirstFatal ds).getLast? = some d := by
  induction ds with
  | nil => cases member
  | cons x ds ih =>
      rw [throughFirstFatal_cons] at member ⊢
      by_cases first : x.severity = .fatal
      · rw [if_pos first] at member ⊢
        rw [List.mem_singleton.mp member]
        rfl
      · rw [if_neg first] at member ⊢
        rcases List.mem_cons.mp member with rfl | member
        · exact absurd fatal first
        · rw [List.getLast?_cons, ih member, Option.getD_some]

theorem countP_throughFirstFatal (ds : List Diagnostic) :
    (throughFirstFatal ds).countP (·.severity = .fatal) ≤ 1 := by
  induction ds with
  | nil => exact Nat.zero_le 1
  | cons x ds ih =>
      rw [throughFirstFatal_cons]
      by_cases first : x.severity = .fatal
      · rw [if_pos first]
        exact List.countP_le_length
      · rw [if_neg first, List.countP_cons_of_neg (by simpa using first)]
        exact ih

end Diagnostic

namespace Engine

/-- No fatal diagnostic is recorded. -/
def NoFatal (e : Engine) : Prop := ∀ d ∈ e.diagnostics, d.severity ≠ .fatal

/-- The counts are those of the recorded list. -/
structure Counted (e : Engine) : Prop where
  fatals : e.fatals = e.diagnostics.countP (·.severity = .fatal)
  errors : e.errors = e.diagnostics.countP (·.severity = .error)
  warnings : e.warnings = e.diagnostics.countP (·.severity = .warning)

@[simp] theorem policy_count (e : Engine) (severity : Severity) :
    (e.count severity).policy = e.policy := by
  cases severity <;> rfl

theorem record_eq (e : Engine) (severity : Severity) (pos : Pos) (message : String) :
    e.record severity pos message =
      if ⟨severity, message, pos, e.file⟩ ∈ e.diagnostics then e
      else { e.count severity with
        diagnostics := e.diagnostics ++ [⟨severity, message, pos, e.file⟩] } := rfl

@[simp] theorem policy_record (e : Engine) (severity : Severity) (pos : Pos) (message : String) :
    (e.record severity pos message).policy = e.policy := by
  rw [record_eq]
  split
  · rfl
  · exact policy_count e severity

theorem file_record (e : Engine) (severity : Severity) (pos : Pos) (message : String) :
    (e.record severity pos message).file = e.file := by
  rw [record_eq]
  split
  · rfl
  · cases severity <;> rfl

/-- What is recorded does not depend on the policy. -/
theorem record_under (e : Engine) (p : Policy) (severity : Severity) (pos : Pos)
    (message : String) :
    { e with policy := p }.record severity pos message =
      { e.record severity pos message with policy := p } := by
  simp only [record_eq]
  split
  · rfl
  · cases severity <;> rfl

/-- A report adds its diagnostic at the end, or it was there before and nothing changes. -/
theorem record_cases (e : Engine) (severity : Severity) (pos : Pos) (message : String) :
    (⟨severity, message, pos, e.file⟩ ∈ e.diagnostics ∧ e.record severity pos message = e) ∨
      (e.record severity pos message).diagnostics =
        e.diagnostics ++ [⟨severity, message, pos, e.file⟩] := by
  by_cases known : (⟨severity, message, pos, e.file⟩ : Diagnostic) ∈ e.diagnostics
  · exact .inl ⟨known, by rw [record_eq, if_pos known]⟩
  · exact .inr (by rw [record_eq, if_neg known])

theorem prefix_record (e : Engine) (severity : Severity) (pos : Pos) (message : String) :
    e.diagnostics <+: (e.record severity pos message).diagnostics := by
  rcases record_cases e severity pos message with ⟨-, same⟩ | added
  · exact same.symm ▸ List.prefix_refl _
  · exact added.symm ▸ List.prefix_append _ _

theorem mem_record (e : Engine) (severity : Severity) (pos : Pos) (message : String)
    (d : Diagnostic) :
    d ∈ (e.record severity pos message).diagnostics ↔
      d ∈ e.diagnostics ∨ d = ⟨severity, message, pos, e.file⟩ := by
  rcases record_cases e severity pos message with ⟨known, same⟩ | added
  · rw [same]
    refine ⟨.inl, ?_⟩
    rintro (member | rfl)
    · exact member
    · exact known
  · rw [added, List.mem_append, List.mem_singleton]

/-- A report that is not fatal keeps the list free of fatal ones. -/
theorem NoFatal.record {e : Engine} (none : e.NoFatal) {severity : Severity}
    (mild : severity ≠ .fatal) (pos : Pos) (message : String) :
    (e.record severity pos message).NoFatal := by
  rcases record_cases e severity pos message with ⟨-, same⟩ | added
  · rw [same]
    exact none
  · intro d member
    rw [added] at member
    rcases List.mem_append.mp member with member | member
    · exact none d member
    · rw [List.mem_singleton.mp member]
      exact mild

/-- A report keeps the counts right. -/
theorem Counted.record {e : Engine} (counted : e.Counted) (severity : Severity) (pos : Pos)
    (message : String) : (e.record severity pos message).Counted := by
  rw [record_eq]
  split
  · exact counted
  · cases severity <;>
      exact ⟨by simp [count, counted.fatals], by simp [count, counted.errors],
        by simp [count, counted.warnings]⟩

theorem hasFailed_iff {e : Engine} (counted : e.Counted) :
    e.hasFailed = true ↔
      ∃ d ∈ e.diagnostics, d.severity = .fatal ∨ d.severity = .error := by
  simp only [hasFailed, counted.fatals, counted.errors, Bool.or_eq_true, decide_eq_true_eq,
    gt_iff_lt, List.countP_pos_iff]
  constructor
  · rintro (⟨d, member, fatal⟩ | ⟨d, member, error⟩)
    · exact ⟨d, member, .inl fatal⟩
    · exact ⟨d, member, .inr error⟩
  · rintro ⟨d, member, fatal | error⟩
    · exact .inl ⟨d, member, fatal⟩
    · exact .inr ⟨d, member, error⟩

/-- A check passed exactly when neither a fatal diagnostic nor an error is recorded. -/
theorem failure?_eq_none_iff {e : Engine} (counted : e.Counted) :
    e.failure? = none ↔
      ∀ d ∈ e.diagnostics, d.severity ≠ .fatal ∧ d.severity ≠ .error := by
  unfold failure?
  by_cases failed : e.hasFailed = true
  · rw [if_pos failed]
    obtain ⟨d, member, bad⟩ := (hasFailed_iff counted).mp failed
    constructor
    · intro none
      cases none
    · intro good
      rcases bad with fatal | error
      · exact absurd fatal (good d member).1
      · exact absurd error (good d member).2
  · rw [if_neg failed]
    constructor
    · intro _ d member
      constructor
      · exact fun fatal => failed ((hasFailed_iff counted).mpr ⟨d, member, .inl fatal⟩)
      · exact fun error => failed ((hasFailed_iff counted).mpr ⟨d, member, .inr error⟩)
    · intro _
      rfl

end Engine

end Samo
