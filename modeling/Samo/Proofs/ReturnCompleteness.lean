import Samo.Proofs.Acceptance
import Samo.Proofs.ControlPaths
import Samo.Proofs.Sites

/-!
# Functions that return on every way

The main result on control paths: what is found out about the ways through a body is exact, and no
way falls off the end of a function of an accepted program that returns something.
-/

namespace Samo

open Check

/-! ## Returns of an accepted function -/

/-- A return that is right gives what the function is to return. -/
theorem Check.returnMatches_of_checkReturn {pos : Pos} {ret : Ty} {value : Option Expr}
    {s s' : State} (run : checkReturn pos ret value s = .ok true s') :
    ∃ r, returnMatches ret value s = .ok true r := by
  unfold returnMatches
  rcases checkReturn_ok run with ⟨rfl, rfl⟩ | ⟨e, type, d, s₁, s₂, rfl, -, detected, same, right, -⟩
  · exact ⟨s, rfl⟩
  · refine ⟨s₁, ?_⟩
    dsimp only
    rw [bind_ok detected, same, right]
    simp

theorem Block.returnsMatch_of_checkReturns {namePos : Pos} {ret : Ty} {body : Block} {s s' : State}
    (run : checkReturns namePos ret body s = .ok true s') : body.ReturnsMatch ret s := by
  show Yields (· = true) (body.visitScoped (matchIfReturn ret)) s
  rw [body.visitScoped_iff (.matchIfReturn ret)]
  intro x member
  obtain ⟨starts, stmt⟩ := x
  have well := checkReturns_ok run _ member
  cases stmt with
  | returnWith pos value =>
      obtain ⟨r, checked⟩ := checkReturn_of_wellAt well
      obtain ⟨r, matched⟩ := returnMatches_of_checkReturn checked
      refine ⟨[true], r, ?_, fun v member => List.mem_singleton.mp member⟩
      show (returnMatches ret value >>= fun v => pure [v]) _ = _
      rw [bind_ok matched]
      rfl
  | _ => exact yields_pure_nil _ _

/-! ## The main result -/

/-- At the end of an accepted function that returns something, its returns match, its ways were
found to return, and none falls off the end. -/
theorem DefineRun.no_way_falls {h : Header} {body : Block} {s s' s₁ s₂ : State} {f : Function}
    (whole : DefineRun h body s s' f s₁ s₂) (value : h.result ≠ .void) :
    body.ReturnsMatch h.result.ty s₂ ∧
      (∃ r, body.returnsOnAllPaths h.result.ty s₂ = .ok true r) ∧ ¬ body.Ends .falls := by
  obtain ⟨-, -, ⟨r, right⟩, ⟨r', complete⟩⟩ := whole.returns
  refine ⟨body.returnsMatch_of_checkReturns right, ⟨r', complete⟩, ?_⟩
  have some : h.result.ty ≠ .void := by
    cases result : h.result with
    | void => exact absurd result value
    | value type => exact nofun
  rw [Block.returnsOnAllPaths, if_neg some, Block.path, bind_assoc] at complete
  obtain ⟨t, r₁, traced, given⟩ := bind_eq_ok_iff.mp complete
  obtain ⟨returns, -⟩ := pure_eq_ok_iff.mp given
  exact (body.trace_sound traced returns).resolve_left (by simp)

/--
Return completeness is exact. For a body whose jumps stay in its loops and whose returns match, the
check of its ways gives an answer, and the answer is yes exactly if no way falls off the end. A
function of an accepted program that returns something is such a function: its returns matched, the
answer was yes, and no way falls off its end.
-/
theorem return_completeness :
    (∀ (ret : Ty) (body : Block) (s : State), ret ≠ .void → body.jumpsInLoops = true →
      body.ReturnsMatch ret s →
      ∃ complete s', body.returnsOnAllPaths ret s = .ok complete s' ∧
        (complete = true ↔ ¬ body.Ends .falls)) ∧
    ∀ (program : Program) (o : Options) (file : String) (builtins : Registry) (log : Log),
      program.Accepted (o.initialState file builtins log) →
      ∀ p pos h body, (p, Stmt.define pos h body) ∈ program.located → h.result ≠ .void →
        (∃ s s', body.ReturnsMatch h.result.ty s ∧
          body.returnsOnAllPaths h.result.ty s = .ok true s') ∧ ¬ body.Ends .falls := by
  refine ⟨fun ret body s value jumps matching => ?_, ?_⟩
  · exact body.returnsOnAllPaths_exact value jumps matching
  · intro program o file builtins log accepted p pos h body member value
    obtain ⟨s, s', fs, visit⟩ := accepted.visits (p, .define pos h body) member
    obtain ⟨f, s₁, s₂, whole⟩ :=
      Stmt.define_ok visit.standing.stop visit.standing.wellFormed visit.run
    obtain ⟨matching, ⟨r, complete⟩, never⟩ := whole.no_way_falls value
    exact ⟨⟨s₂, r, matching, complete⟩, never⟩

/-- A body with a loop that is left by a break, and returns in both arms of an if. -/
def countdown : Block :=
  let n (line column : Int) : Expr := .ident ⟨line, column⟩ "n"
  let number (line column : Int) (spelling : String) (value : Int32) : Expr :=
    .int ⟨line, column⟩ spelling value
  .mk ⟨1, 20⟩ ⟨9, 0⟩
    [.loop ⟨2, 2⟩ (.binary ⟨2, 10⟩ .gt (n 2 8) (number 2 12 "0" 0))
      (.mk ⟨2, 14⟩ ⟨6, 2⟩
        [.branch ⟨3, 4⟩ (.binary ⟨3, 9⟩ .eq (n 3 7) (number 3 12 "1" 1))
          (.mk ⟨3, 14⟩ ⟨3, 23⟩ [.breakOut ⟨3, 16⟩]) .done,
        .assign ⟨4, 4⟩ "n" (.binary ⟨4, 10⟩ .sub (n 4 8) (number 4 12 "1" 1)),
        .continueOn ⟨5, 4⟩]),
    .branch ⟨7, 2⟩ (.binary ⟨7, 7⟩ .eq (n 7 5) (number 7 10 "0" 0))
      (.mk ⟨7, 12⟩ ⟨7, 24⟩ [.returnWith ⟨7, 14⟩ (some (number 7 21 "1" 1))])
      (.otherwise ⟨7, 26⟩
        (.mk ⟨7, 31⟩ ⟨7, 43⟩ [.returnWith ⟨7, 33⟩ (some (number 7 40 "2" 2))]))]

/-- The function with this body. -/
def countdownHeader : Header :=
  ⟨⟨1, 3⟩, "countdown", [⟨⟨1, 13⟩, .value .int, ⟨1, 17⟩, "n"⟩], some (⟨1, 20⟩, .value .int)⟩

/-- Both parts at one function. -/
theorem countdown_returns :
    (∃ complete s', countdown.returnsOnAllPaths (.value .int)
        (({} : Options).initialState "main" .empty ({} : Options).newLog) = .ok complete s' ∧
      (complete = true ↔ ¬ countdown.Ends .falls)) ∧
    (Program.Accepted [.define ⟨1, 0⟩ countdownHeader countdown]
      (({} : Options).initialState "main" .empty ({} : Options).newLog) ∧
      ¬ countdown.Ends .falls) := by
  have accepted : Program.Accepted [.define ⟨1, 0⟩ countdownHeader countdown]
      (({} : Options).initialState "main" .empty ({} : Options).newLog) := by
    unfold Program.Accepted
    decide +kernel
  refine ⟨return_completeness.1 (.value .int) countdown _ (by decide) (by decide)
    ⟨[true, true], _, rfl, by decide⟩, accepted, ?_⟩
  exact (return_completeness.2 _ _ _ _ _ accepted .top ⟨1, 0⟩ countdownHeader countdown
    List.mem_cons_self (by decide)).2

end Samo
