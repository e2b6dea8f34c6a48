import Samo.Proofs.Answers
import Samo.Proofs.QuietRuns

/-!
# The checks decide the types

A step that only reads the table and records nothing has nothing to report, so no policy can make a
difference to it (`ReadsTable.of_silent`). With that the two directions of `Typing` and `Answers`
meet: an expression is accepted at a type without a diagnostic exactly if it has the type and the
arguments of its calls hold no division by zero.
-/

namespace Samo

open Check

namespace Check

/-- A step that only reads and records nothing does the same, whatever the state is besides the
table. -/
theorem ReadsTable.of_silent {α : Type} {m : Check α} (reads : ReadsTable m) {s s' : State} {a : α}
    (run : m s = .ok a s') (silent : s'.engine.diagnostics = []) {r : State}
    (same : r.symbols = s.symbols) : m r = .ok a r := by
  have quiet : s'.Quiet := by
    intro d member
    rw [silent] at member
    cases member
  exact reads.of_quiet run quiet same

end Check

/--
The checks of expressions decide the rules of typing. Whatever the symbol table, and under each
policy, an expression is accepted at a type without a diagnostic exactly if it has the type and no
argument of a call in it holds a division by a known zero.
-/
theorem accepts_iff_hasType {library : Library} {s : State}
    (loaded : Registry.ofLibrary library = .ok s.symbols.builtins)
    (empty : s.engine.diagnostics = []) (e : Expr) (type : ValueType) :
    (∃ s', e.accepts type s = .ok true s' ∧ s'.engine.diagnostics = []) ↔
      e.HasType s.symbols.bindings (.value type) ∧ e.ArgumentsFree := by
  constructor
  · rintro ⟨s', run, silent⟩
    -- without reports the run is also one under the policy `stop`, for which `Typing` has the rules
    have stopping : e.accepts type s.stopping = .ok true s.stopping :=
      (e.accepts_readsTable type).of_silent run silent rfl
    have asked := Expr.asked_of_accepts (policy_stopping s) stopping
    exact ⟨asked.typed, asked.arguments⟩
  · rintro ⟨typed, free⟩
    have asked : e.Asked s.symbols.bindings (.value type) := ⟨typed, free⟩
    have settles := asked.settles (Registry.distinct_ofLibrary loaded)
    exact ⟨s, (settles.value rfl).accepts, empty⟩

/-- A state before a check with the standard library, in which one function is declared. -/
def atLeastState (policy : Policy) : State :=
  let s := ({ policy } : Options).initialState "main" .standard ({} : Options).newLog
  let f : Function :=
    { name := "atLeast", line := 1, params := [⟨"strict", .boolie⟩, ⟨"least", .int⟩],
      returns := .value .boolie }
  { s with symbols := s.symbols.insert (.fn f) }

/-- `not atLeast(1 + 2, stoi("3") == 3)`: the parameters take the arguments in the other order. -/
def atLeastCall : Expr :=
  .unary ⟨2, 0⟩ .not (.call ⟨2, 4⟩ "atLeast"
    [.binary ⟨2, 14⟩ .add (.int ⟨2, 12⟩ "1" 1) (.int ⟨2, 16⟩ "2" 2),
      .binary ⟨2, 29⟩ .eq (.call ⟨2, 19⟩ "stoi" [.string ⟨2, 24⟩ "\"3\"" "3"])
        (.int ⟨2, 32⟩ "3" 3)])

/-- The call is accepted under both policies, so it has the type. -/
theorem atLeastCall_hasType :
    Registry.ofLibrary .standard = .ok .standard ∧ ∀ policy,
      (atLeastState policy).engine.diagnostics = [] ∧
        (∃ s', atLeastCall.accepts .boolie (atLeastState policy) = .ok true s' ∧
          s'.engine.diagnostics = []) ∧
        atLeastCall.HasType (atLeastState policy).symbols.bindings (.value .boolie) ∧
        atLeastCall.ArgumentsFree := by
  have loaded : Registry.ofLibrary .standard = .ok .standard := rfl
  refine ⟨loaded, fun policy => ?_⟩
  have accepted : ∃ s', atLeastCall.accepts .boolie (atLeastState policy) = .ok true s' ∧
      s'.engine.diagnostics = [] := by
    refine ⟨atLeastState policy, ?_, rfl⟩
    cases policy <;> rfl
  exact ⟨rfl, accepted, (accepts_iff_hasType loaded rfl _ _).mp accepted⟩

end Samo
