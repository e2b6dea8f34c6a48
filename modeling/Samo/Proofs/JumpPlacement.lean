import Samo.Proofs.Surroundings

/-!
# Jumps and functions are where they belong

While a check goes into loops and functions and out again, the depth of loops is the number of loops
around, up to the innermost function, and the current function is set exactly if there is a function
around (`Occasion.Counted`). A jump is refused where the depth is zero, a return where no function
is set, and a function where one is. So in an accepted program they all are where they belong
(`Stmt.Placed`).
-/

namespace Samo

open Check

namespace Surrounding

variable {around : List Surrounding}

@[simp] theorem loops_cons_block (start : Pos) : loops (.block start :: around) = loops around := by
  simp [loops, isFunction]

@[simp] theorem loops_cons_loop : loops (.loop :: around) = loops around + 1 := by
  simp [loops, isFunction]

@[simp] theorem loops_cons_function (header : Header) : loops (.function header :: around) = 0 := by
  simp [loops, isFunction]

@[simp] theorem functions_cons_block (start : Pos) :
    functions (.block start :: around) = functions around := by
  simp [functions, isFunction]

@[simp] theorem functions_cons_loop : functions (.loop :: around) = functions around := by
  simp [functions, isFunction]

theorem functions_pos_iff : 0 < functions around ↔ ∃ header, .function header ∈ around := by
  rw [functions, List.countP_pos_iff]
  constructor
  · rintro ⟨a, member, function⟩
    cases a with
    | function header => exact ⟨header, member⟩
    | block start | loop => cases function
  · rintro ⟨header, member⟩
    exact ⟨_, member, rfl⟩

/-- A loop that is counted is around, with no function between. -/
theorem exists_loop (some : 0 < loops around) :
    ∃ inner outer, around = inner ++ .loop :: outer ∧ ∀ header, .function header ∉ inner := by
  induction around with
  | nil => cases some
  | cons a around ih =>
      cases a with
      | loop => exact ⟨[], around, rfl, fun _ member => by cases member⟩
      | function header =>
          rw [loops_cons_function] at some
          cases some
      | block start =>
          rw [loops_cons_block] at some
          obtain ⟨inner, outer, rfl, none⟩ := ih some
          refine ⟨.block start :: inner, outer, rfl, fun header member => ?_⟩
          rcases List.mem_cons.mp member with same | member
          · cases same
          · exact none header member

end Surrounding

/-! ## What is counted on the way -/

/-- The state of a check knows the loops and the functions around. -/
structure Occasion.Counted (x : Occasion) : Prop where
  loops : x.moment.state.loopDepth = Surrounding.loops x.around
  function : x.moment.state.currentFunction.isSome = true ↔ 0 < Surrounding.functions x.around

/-- A state with the same loops and the same function. -/
theorem Occasion.Counted.kept {around : List Surrounding} {part part' : Part} {s s' : State}
    (counted : Occasion.Counted ⟨around, ⟨part, s⟩⟩) (loops : s'.loopDepth = s.loopDepth)
    (function : s'.currentFunction = s.currentFunction) :
    Occasion.Counted ⟨around, ⟨part', s'⟩⟩ := by
  refine ⟨loops.trans counted.loops, ?_⟩
  dsimp only
  rw [function]
  exact counted.function

/-- The counts stay right from one part to the next. -/
theorem Occasion.Next.counted {x y : Occasion} (next : x.Next y) (counted : x.Counted) :
    y.Counted := by
  obtain ⟨around, m⟩ := x
  obtain ⟨around', m'⟩ := y
  obtain ⟨next, rfl⟩ := next
  dsimp only at next counted ⊢
  have asked : ∀ pos keyword cond, Leaves State.Steady (checkCondition pos keyword cond) :=
    fun pos keyword cond => .of_readsTable (.checkCondition pos keyword cond)
  have chance : ∀ pos compound e, Leaves State.Steady (checkProbability pos compound e) :=
    fun pos compound e => .of_readsTable (.checkProbability pos compound e)
  cases next with
  | first | block | otherwise => exact counted.kept rfl rfl
  | @others st sts s s' done =>
      have steady := st.check_steady.of_ok done
      exact counted.kept steady.loops steady.function
  | @enter mode start stop sts s =>
      have loops := counted.loops
      have function := counted.function
      constructor
      · simpa [Part.surrounds] using loops
      · simpa [Part.surrounds] using function
  | @function pos header body s s' f begun =>
      -- the loops around a function are none for its body
      constructor
      · simp [Part.surrounds]
      · simp [Part.surrounds, Surrounding.functions_cons_function]
  | @branch pos cond body rest s s' condition | @elseIf pos cond body rest s s' condition =>
      have steady := (asked pos .ifWord cond).of_ok condition
      exact counted.kept steady.loops steady.function
  | @arms pos cond body rest s s₁ s₂ condition done
  | @moreArms pos cond body rest s s₁ s₂ condition done =>
      have both := (asked pos .ifWord cond).bind fun _ => body.check_steady .new
      have steady := both.of_ok ((bind_ok condition).trans done)
      exact counted.kept steady.loops steady.function
  | @loop pos cond body s s' condition =>
      have steady := (asked pos .whileWord cond).of_ok condition
      have loops := counted.loops
      have function := counted.function
      constructor
      · simpa [Part.surrounds, steady.loops] using loops
      · simpa [Part.surrounds, steady.function] using function
  | @maybe pos e body s s₁ s₂ known probable =>
      have both := (chance pos body.isCompound e).bind fun _ =>
        .of_readsTable (.checkProbable pos body)
      have steady := both.of_ok ((bind_ok known).trans probable)
      exact counted.kept steady.loops steady.function
  | @maybeBody pos e body otherwisePos alternative s s₁ s₂ known feasible =>
      have both := (chance pos body.isCompound e).bind fun _ =>
        .checkAlternatives pos body otherwisePos alternative
      have steady := both.of_ok ((bind_ok known).trans feasible)
      exact counted.kept steady.loops steady.function
  | @alternative pos e body otherwisePos alternative s s₁ s₂ s₃ known feasible done =>
      have both := (chance pos body.isCompound e).bind fun _ =>
        .checkAlternatives pos body otherwisePos alternative
      have before := both.of_ok ((bind_ok known).trans feasible)
      have inside := body.check_steady.of_ok done
      exact counted.kept (inside.loops.trans before.loops) (inside.function.trans before.function)

/-- The counts are right throughout a check. -/
theorem Occasion.Of.counted {o : Options} {file : String} {builtins : Registry} {log : Log}
    {program : Program} {x : Occasion}
    (reached : Occasion.Of program (o.initialState file builtins log) x) : x.Counted := by
  induction reached with
  | refl =>
      constructor
      · rfl
      · simp [Options.initialState, Surrounding.functions]
  | tail _ next ih => exact next.counted ih

/-! ## Where statements belong -/

/-- A statement is allowed in what is around it: a jump in a loop, with no function between, a
return in a function, and a function outside of all functions. -/
def Stmt.Placed (around : List Surrounding) : Stmt → Prop
  | .breakOut _ | .continueOn _ =>
    ∃ inner outer, around = inner ++ .loop :: outer ∧ ∀ header, .function header ∉ inner
  | .returnWith _ _ => ∃ header, .function header ∈ around
  | .define _ _ _ => ∀ header, .function header ∉ around
  | _ => True

/-- What a check accepts under the policy `stop` is where it belongs. -/
theorem Stmt.placed_of_ok {around : List Surrounding} {st : Stmt} {s r : State}
    (counted : Occasion.Counted ⟨around, ⟨.stmt st, s⟩⟩) (stop : s.engine.policy = .stop)
    (wf : s.symbols.WellFormed) (run : st.check s = .ok () r) : st.Placed around := by
  have inLoop : ∀ pos p, (get >>= fun s : State =>
      if s.loopDepth = 0 then fatal pos p else pure ()) s = .ok () r →
      0 < Surrounding.loops around := by
    intro pos p run
    rw [bind_ok (get_run s)] at run
    split at run
    · exact absurd run (fatal_ne_ok stop)
    · next some => exact counted.loops ▸ Nat.pos_of_ne_zero some
  cases st with
  | breakOut pos =>
      rw [Stmt.check] at run
      exact Surrounding.exists_loop (inLoop pos _ run)
  | continueOn pos =>
      rw [Stmt.check] at run
      exact Surrounding.exists_loop (inLoop pos _ run)
  | returnWith pos value =>
      have inside := (Stmt.returnWith_ok stop run).1
      exact Surrounding.functions_pos_iff.mp (counted.function.mp inside)
  | define pos header body =>
      obtain ⟨f, s₁, s₂, whole⟩ := Stmt.define_ok stop wf run
      intro outer member
      have inside := counted.function.mpr (Surrounding.functions_pos_iff.mpr ⟨outer, member⟩)
      dsimp only at inside
      rw [whole.outside] at inside
      cases inside
  | block | declare | infer | assign | call | branch | loop | needs | maybe | maybeOtherwise
  | bad =>
      exact trivial

/-- In an accepted program every statement is where it belongs. -/
theorem Program.Accepted.placed {program : Program} {o : Options} {file : String}
    {builtins : Registry} {log : Log}
    (accepted : program.Accepted (o.initialState file builtins log)) :
    ∀ z ∈ program.surrounded, z.2.Placed z.1 := by
  intro z member
  obtain ⟨m, reached, shown⟩ := accepted.reaches member
  have counted := reached.counted
  have sound := reached.moment.sound
  obtain ⟨r, done, quiet⟩ := accepted.finishes reached.moment
  obtain ⟨around, st⟩ := z
  cases st with
  | block body => exact trivial
  | _ =>
      obtain ⟨part, s⟩ := m
      obtain rfl := Part.eq_stmt_of_stmt? shown fun body same => by cases same
      obtain ⟨r', stopped⟩ := (Stmt.check_disciplined _).stopping_ok done quiet
      exact Stmt.placed_of_ok (s := s.stopping) ⟨counted.loops, counted.function⟩
        (policy_stopping s) sound.wellFormed stopped

/--
Jumps and functions are placed right, whatever the built-in functions and the policy are. All
statements of a program are listed with what is around them. If the program is accepted, every jump
is in a loop with no function between, every return is in a function, and no function is in another.
In every run, accepted or not, the check comes to a statement of the program through what is around
it, and checks it from there on. At that moment the depth of loops is the number of loops around, up
to the innermost function, and a function is set exactly if there is one around.
-/
theorem jumps_placed (o : Options) (file : String) (builtins : Registry) (log : Log)
    (program : Program) :
    let s₀ := o.initialState file builtins log
    program.surrounded.map Prod.snd = Node.stmts (program.visited fun _ => true) ∧
    (program.Accepted s₀ → ∀ z ∈ program.surrounded, z.2.Placed z.1) ∧
    (∀ m, Moment.Of program s₀ m → ∃ around, Occasion.Of program s₀ ⟨around, m⟩) ∧
    ∀ around part s st, Occasion.Of program s₀ ⟨around, ⟨part, s⟩⟩ → part.stmt? = some st →
      (around, st) ∈ program.surrounded ∧ s.loopDepth = Surrounding.loops around ∧
        (s.currentFunction.isSome = true ↔ ∃ header, .function header ∈ around) ∧
        (⟨part, s⟩ : Moment).CheckedIn program s₀ := by
  intro s₀
  refine ⟨Stmt.map_surroundedAll [] program, fun accepted => accepted.placed,
    fun m reached => Occasion.exists_of reached, ?_⟩
  intro around part s st reached shown
  have counted := reached.counted
  exact ⟨reached.listed shown, counted.loops,
    counted.function.trans Surrounding.functions_pos_iff, reached.moment.checkedIn⟩

/-- `fn spin() int { while (true) { break; } return 1; }`, in the block of a loop. -/
def spinHeader : Header := ⟨⟨1, 18⟩, "spin", [], some (⟨1, 25⟩, .value .int)⟩

/-- A loop around a function with a loop in it: `while (true) { fn spin() ... continue; }` -/
def spinLoop : Stmt :=
  .loop ⟨1, 0⟩ (.boolie ⟨1, 7⟩ true) (.mk ⟨1, 13⟩ ⟨1, 80⟩
    [.define ⟨1, 15⟩ spinHeader (.mk ⟨1, 29⟩ ⟨1, 68⟩
      [.loop ⟨1, 31⟩ (.boolie ⟨1, 38⟩ true) (.mk ⟨1, 44⟩ ⟨1, 53⟩ [.breakOut ⟨1, 46⟩]),
        .returnWith ⟨1, 57⟩ (some (.int ⟨1, 64⟩ "1" 1))]),
      .continueOn ⟨1, 70⟩])

/-- What is around the `break`: two loops, one on each side of the function. -/
def spinAround : List Surrounding :=
  [.block ⟨1, 44⟩, .loop, .block ⟨1, 29⟩, .function spinHeader, .block ⟨1, 13⟩, .loop]

/-- At the `break` one of the two loops around counts. -/
theorem spin_placed :
    Program.Accepted [spinLoop] (echoStart .stop) ∧
      (Stmt.breakOut ⟨1, 46⟩).Placed spinAround ∧
      ∃ s, Occasion.Of [spinLoop] (echoStart .stop) ⟨spinAround, ⟨.stmt (.breakOut ⟨1, 46⟩), s⟩⟩ ∧
        s.loopDepth = 1 ∧ s.currentFunction.isSome = true ∧
        (⟨.stmt (.breakOut ⟨1, 46⟩), s⟩ : Moment).CheckedIn [spinLoop] (echoStart .stop) := by
  have accepted : Program.Accepted [spinLoop] (echoStart .stop) := by
    unfold Program.Accepted
    decide +kernel
  have member : (spinAround, Stmt.breakOut ⟨1, 46⟩) ∈ Program.surrounded [spinLoop] := by
    simp [Program.surrounded, spinLoop, spinAround, Stmt.surroundedAll, Stmt.surrounded,
      Block.surrounded]
  obtain ⟨⟨part, s⟩, reached, shown⟩ := accepted.reaches member
  obtain rfl := Part.eq_stmt_of_stmt? shown fun body same => by cases same
  obtain ⟨-, placed, -, counts⟩ :=
    jumps_placed { policy := .stop } "main" .empty ({} : Options).newLog [spinLoop]
  obtain ⟨listed, loops, function, checked⟩ := counts _ _ _ _ reached rfl
  refine ⟨accepted, placed accepted _ listed, s, reached, loops, function.mpr ⟨spinHeader, ?_⟩,
    checked⟩
  decide

end Samo
