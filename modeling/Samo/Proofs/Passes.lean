import Samo.Proofs.Additions
import Samo.Proofs.Composition

/-!
# What an accepted statement does

Under the policy `stop` a statement whose check gets to its end was accepted. This file says, for
every form of statement, what that means: which types its expressions have, and what the check does
to the state (`Passes`). It declares the names of the statement in the current scope, registers the
blocks of the statement, and leaves everything else as it was.
-/

namespace Samo

namespace Check

variable {s s' : State}

/-! ## Declarations -/

theorem expectType_ok {type : ValueType} {e : Expr} {pos : Pos} {fits : Bool}
    (stop : s.engine.policy = .stop) (run : expectType type e pos s = .ok fits s') :
    fits = true ∧ e.Asked s.symbols.bindings (.value type) := by
  unfold expectType at run
  obtain ⟨accepted, s₁, asked, run⟩ := bind_eq_ok_iff.mp run
  have stop₁ : s₁.engine.policy = .stop :=
    ((e.accepts_readsTable type).alike asked).policy.symm.trans stop
  cases accepted with
  | true =>
      obtain ⟨rfl, -⟩ := pure_eq_ok_iff.mp run
      exact ⟨rfl, Expr.asked_of_accepts stop asked⟩
  | false =>
      rw [if_neg Bool.false_ne_true] at run
      obtain ⟨found, s₂, detected, run⟩ := bind_eq_ok_iff.mp run
      have stop₂ : s₂.engine.policy = .stop :=
        (e.detect_readsTable.alike detected).policy.symm.trans stop₁
      dsimp only at run
      split at run
      · exact absurd run (fatal_bind_ne_ok stop₂)
      · exact absurd run (fatal_bind_ne_ok stop₂)

theorem initialise_ok {v v' : Variable} {e : Expr} {pos : Pos} (stop : s.engine.policy = .stop)
    (run : initialise v e pos s = .ok v' s') :
    v'.name = v.name ∧ v'.type = v.type ∧ e.Sane s.symbols.bindings (.value v.type) := by
  refine and_assoc.mp ⟨initialise_kept run, ?_⟩
  unfold initialise at run
  obtain ⟨fits, s₁, expected, run⟩ := bind_eq_ok_iff.mp run
  obtain ⟨rfl, asked⟩ := expectType_ok stop expected
  have alike := (ReadsTable.expectType _ e pos).alike expected
  obtain ⟨folds, s₂, folded, -⟩ := bind_eq_ok_iff.mp run
  exact asked.sane (checkConstant_ok (alike.policy.symm.trans stop) folded)

theorem checkDeclaration_ok {pos namePos : Pos} {type : TypeName} {name : String}
    {init : Option Expr} (stop : s.engine.policy = .stop) (wf : s.symbols.WellFormed)
    (run : checkDeclaration pos type namePos name init s = .ok () s') :
    Passes s s' [name] [] ∧ ∃ v, type = .value v.type ∧
      s'.symbols.lookup name = some (.var v) ∧
      ∀ e ∈ init, e.Sane s.symbols.bindings (.value v.type) := by
  rcases checkDeclaration_cases run with ⟨collects, -⟩ | ⟨t, v, s₁, rfl, adds, made⟩
  · exact absurd stop collects
  have fits : (Variable.fresh t name namePos.line).type = t := Value.type_initial t
  have right : v.name = name ∧ v.type = t ∧ ∀ e ∈ init, e.Sane s.symbols.bindings (.value t) := by
    cases init with
    | none =>
        obtain ⟨rfl, -⟩ := pure_eq_ok_iff.mp made
        exact ⟨rfl, fits, fun e member => nomatch member⟩
    | some e =>
        obtain ⟨named, typed, sane⟩ := initialise_ok stop made
        rw [fits] at typed sane
        refine ⟨named, typed, fun e' member => ?_⟩
        cases member
        exact sane
  obtain ⟨rfl, rfl, sane⟩ := right
  exact ⟨adds.passes wf, { v with home := s.symbols.current }, rfl, adds.table.lookup_one wf, sane⟩

theorem checkInference_ok {namePos : Pos} {name : String} {init : Expr}
    (stop : s.engine.policy = .stop) (wf : s.symbols.WellFormed)
    (run : checkInference namePos name init s = .ok () s') :
    Passes s s' [name] [] ∧ ∃ v, s'.symbols.lookup name = some (.var v) ∧
      init.Sane s.symbols.bindings (.value v.type) := by
  rcases checkInference_cases run with ⟨collects, -⟩ | ⟨t, v, s₁, s₂, alike, adds, made⟩
  · exact absurd stop collects
  obtain ⟨rfl, typed, sane⟩ := initialise_ok (alike.policy.symm.trans stop) made
  refine ⟨adds.passes wf, _, adds.table.lookup_one wf, ?_⟩
  show init.Sane _ (.value v.type)
  rw [typed, alike.table]
  exact sane

/-! ## Assignments, conditions and chances -/

theorem checkAssignment_ok {pos : Pos} {name : String} {value : Expr}
    (stop : s.engine.policy = .stop) (run : checkAssignment pos name value s = .ok () s') :
    ∃ v, s.symbols.lookup name = some (.var v) ∧
      value.Sane s.symbols.bindings (.value v.type) := by
  unfold checkAssignment at run
  rw [bind_ok (symbols_run s)] at run
  split at run
  · exact absurd run (fatal_ne_ok stop)
  rw [bind_ok (lookup_run name s)] at run
  match known : s.symbols.lookup name with
  | none =>
      rw [known] at run
      exact absurd run (fatal_ne_ok stop)
  | some (.fn f) =>
      rw [known] at run
      exact absurd run (fatal_ne_ok stop)
  | some (.var v) =>
      rw [known] at run
      obtain ⟨fits, s₁, expected, run⟩ := bind_eq_ok_iff.mp run
      obtain ⟨rfl, asked⟩ := expectType_ok stop expected
      rw [if_pos rfl] at run
      obtain ⟨folds, s₂, folded, -⟩ := bind_eq_ok_iff.mp run
      have alike := (ReadsTable.expectType _ value pos).alike expected
      exact ⟨v, rfl, asked.sane (checkConstant_ok (alike.policy.symm.trans stop) folded)⟩

theorem checkCondition_ok {pos : Pos} {keyword : Keyword} {cond : Expr}
    (stop : s.engine.policy = .stop) (run : checkCondition pos keyword cond s = .ok () s') :
    cond.Sane s.symbols.bindings (.value .boolie) := by
  unfold checkCondition at run
  obtain ⟨accepted, s₁, asked, run⟩ := bind_eq_ok_iff.mp run
  have stop₁ : s₁.engine.policy = .stop :=
    ((cond.accepts_readsTable .boolie).alike asked).policy.symm.trans stop
  cases accepted with
  | true =>
      obtain ⟨folds, s₂, folded, -⟩ := bind_eq_ok_iff.mp run
      exact (Expr.asked_of_accepts stop asked).sane (checkConstant_ok stop₁ folded)
  | false => exact absurd run (fatal_ne_ok stop₁)

theorem checkProbability_ok {pos : Pos} {compound : Bool} {e : Expr}
    (stop : s.engine.policy = .stop) (run : checkProbability pos compound e s = .ok () s') :
    e.Sane s.symbols.bindings (.value .int) := by
  unfold checkProbability at run
  obtain ⟨found, s₁, detected, run⟩ := bind_eq_ok_iff.mp run
  have alike := e.detect_readsTable.alike detected
  have stop₁ : s₁.engine.policy = .stop := alike.policy.symm.trans stop
  split at run
  · exact absurd run (fatal_ne_ok stop₁)
  dsimp only at run
  split at run
  · obtain ⟨accepted, s₂, asked, run⟩ := bind_eq_ok_iff.mp run
    have stop₂ : s₂.engine.policy = .stop :=
      ((e.accepts_readsTable .int).alike asked).policy.symm.trans stop₁
    cases accepted with
    | true =>
        obtain ⟨folds, s₃, folded, -⟩ := bind_eq_ok_iff.mp run
        rw [alike.table]
        exact (Expr.asked_of_accepts stop₁ asked).sane (checkConstant_ok stop₂ folded)
    | false => exact absurd run (fatal_ne_ok stop₂)
  · exact absurd run (fatal_ne_ok stop₁)

/-! ## Steps that change nothing -/

/-- Nothing has changed but the engine and the log, and not the policy either. -/
structure State.OnlyReports (s s' : State) : Prop where
  policy : s'.engine.policy = s.engine.policy
  same : s' = { s with engine := s'.engine, log := s'.log }

namespace State.OnlyReports

theorem of_readsTable {α : Type} {m : Check α} {a : α} (reads : ReadsTable m)
    (run : m s = .ok a s') : s.OnlyReports s' := by
  obtain ⟨policy, same⟩ := reads.kept run
  exact ⟨policy, same⟩

theorem trans {s₁ s₂ s₃ : State} (first : s₁.OnlyReports s₂) (second : s₂.OnlyReports s₃) :
    s₁.OnlyReports s₃ := by
  refine ⟨second.policy.trans first.policy, ?_⟩
  rw [second.same, first.same]

theorem table (reported : s.OnlyReports s') : s'.symbols = s.symbols := by rw [reported.same]

theorem passes (reported : s.OnlyReports s') (wf : s.symbols.WellFormed) : Passes s s' [] [] := by
  refine ⟨?_, reported.policy, by rw [reported.same], by rw [reported.same]⟩
  rw [reported.table]
  exact .refl wf

end State.OnlyReports

/-- A step that gets to its end leaves alone everything but the engine and the log. -/
def Unobtrusive {α : Type} (m : Check α) : Prop := ∀ s a s', m s = .ok a s' → s.OnlyReports s'

namespace Unobtrusive

theorem compositional : Compositional (fun _ => True) @Unobtrusive where
  ask question _ _ _ run := .of_readsTable question.readsTable run
  bind first second s b s' run := by
    obtain ⟨a, s₁, ran, run⟩ := bind_eq_ok_iff.mp run
    exact (first s a s₁ ran).trans (second a s₁ b s' run)
  look _ each s a s' run := by
    rw [bind_ok (get_run s)] at run
    exact each s s a s' run

theorem warn (pos : Pos) (p : Problem) : Unobtrusive (Check.warn pos p) := by
  intro s a s' run
  cases run
  exact ⟨Engine.policy_record .., rfl⟩

theorem checkAlternatives (pos : Pos) (body : Stmt) (otherwisePos : Pos) (alternative : Stmt) :
    Unobtrusive (checkAlternatives pos body otherwisePos alternative) :=
  compositional.checkAlternatives (warn _ _) trivial trivial body alternative

/-- A simple statement that declares nothing. -/
theorem plain {stmt : Stmt} (simple : stmt.isSimple = true) (undeclared : stmt.declares = []) :
    Unobtrusive stmt.check :=
  compositional.plain simple undeclared (fun _ _ _ _ => warn _ _) stmt.within_anywhere

theorem passes {α : Type} {m : Check α} {a : α} (unobtrusive : Unobtrusive m)
    (wf : s.symbols.WellFormed) (run : m s = .ok a s') : Passes s s' [] [] :=
  (unobtrusive s a s' run).passes wf

end Unobtrusive

/-! ## Surroundings -/

theorem inScope_ok {mode : EntryMode} {action : Check Unit}
    (run : inScope mode action s = .ok () s') :
    ∃ s₁, action { s with symbols := s.symbols.enter mode } = .ok () s₁ ∧
      s' = { s₁ with symbols := s₁.symbols.leave } := by
  unfold inScope at run
  rw [bind_ok (modifySymbols_run _ s)] at run
  exact ensuring_eq_ok_iff.mp run

theorem inLoop_ok {action : Check Unit} (run : inLoop action s = .ok () s') :
    ∃ s₁, action { s with loopDepth := s.loopDepth + 1 } = .ok () s₁ ∧
      s' = { s₁ with loopDepth := s₁.loopDepth - 1 } := by
  unfold inLoop at run
  rw [bind_ok (modify_run _ s)] at run
  exact ensuring_eq_ok_iff.mp run

theorem inUncertainty_ok {action : Check Unit} (run : inUncertainty action s = .ok () s') :
    ∃ s₁, action { s with uncertainDepth := s.uncertainDepth + 1 } = .ok () s₁ ∧
      s' = { s₁ with uncertainDepth := s₁.uncertainDepth - 1 } := by
  unfold inUncertainty at run
  rw [bind_ok (modify_run _ s)] at run
  exact ensuring_eq_ok_iff.mp run

theorem inFunction_ok {f : Function} {action : Check Unit}
    (run : inFunction f action s = .ok () s') :
    ∃ s₁, action { s with currentFunction := some f, loopDepth := 0 } = .ok () s₁ ∧
      s' = { s₁ with currentFunction := none, loopDepth := s.loopDepth } := by
  unfold inFunction at run
  rw [bind_ok (get_run s), bind_ok (modify_run _ s)] at run
  exact ensuring_eq_ok_iff.mp run

/-! ## Functions -/

theorem beginFunction_isSome {pos : Pos} {h : Header} {found : Option Function}
    (stop : s.engine.policy = .stop) (run : beginFunction pos h s = .ok found s') :
    found.isSome = true := by
  unfold beginFunction at run
  rw [bind_ok (get_run s)] at run
  split at run
  · exact absurd run (fatal_bind_ne_ok stop)
  rw [bind_ok (symbols_run s)] at run
  split at run
  · exact absurd run (fatal_bind_ne_ok stop)
  rw [bind_ok (lookup_run h.name s)] at run
  cases known : s.symbols.lookup h.name with
  | some previous =>
      rw [known] at run
      exact absurd run (fatal_bind_ne_ok stop)
  | none =>
      rw [known] at run
      obtain ⟨u, s₁, logged, run⟩ := bind_eq_ok_iff.mp run
      obtain ⟨u, s₂, entered, run⟩ := bind_eq_ok_iff.mp run
      obtain ⟨params, s₃, declared, run⟩ := bind_eq_ok_iff.mp run
      cases logged
      cases entered
      obtain ⟨symbols, -, given, -⟩ := declareParams_adds declared
      obtain ⟨qs, rfl⟩ := Option.isSome_iff_exists.mp (given stop)
      cases run
      rfl

theorem beginFunction_ok {pos : Pos} {h : Header} {found : Option Function}
    (stop : s.engine.policy = .stop) (wf : s.symbols.WellFormed)
    (run : beginFunction pos h s = .ok found s') :
    ∃ f t params, found = some f ∧ Begins h s s' f t params := by
  rcases beginFunction_cases wf run with ⟨rfl, -⟩ | begun
  · cases beginFunction_isSome stop run
  · exact begun

/-- What the end of a function has found out: every return is right, and every way returns. -/
theorem endFunction_ok {h : Header} {body : Block} {f : Function} (stop : s.engine.policy = .stop)
    (wf : s.symbols.WellFormed) (run : endFunction h body f s = .ok () s') :
    (∃ s₁, checkReturns h.namePos h.result.ty body s = .ok true s₁) ∧
      (∃ s₁ s₂, s.Alike s₁ ∧ body.returnsOnAllPaths h.result.ty s₁ = .ok true s₂) ∧
      s.Alike s' ∧ Passes s s' [] [] := by
  unfold endFunction at run
  obtain ⟨valid, s₁, checked, run⟩ := bind_eq_ok_iff.mp run
  have passes₁ := Passes.of_readsTable (.checkReturns h.namePos h.result.ty body) wf checked
  have alike₁ := (ReadsTable.checkReturns h.namePos h.result.ty body).alike checked
  have stop₁ : s₁.engine.policy = .stop := alike₁.policy.symm.trans stop
  cases valid with
  | false =>
      exact absurd run (fatal_bind_ne_ok stop₁)
  | true =>
      obtain ⟨complete, s₂, traced, run⟩ := bind_eq_ok_iff.mp run
      have reads := body.returnsOnAllPaths_readsTable h.result.ty
      have passes₂ := Passes.of_readsTable reads passes₁.table.wellFormed traced
      have alike₂ := reads.alike traced
      cases complete with
      | false =>
          exact absurd run (fatal_bind_ne_ok (alike₂.policy.symm.trans stop₁))
      | true =>
          cases run
          refine ⟨⟨s₁, checked⟩, ⟨s₁, s₂, alike₁, traced⟩, ?_, ?_⟩
          · exact ⟨(alike₁.trans alike₂).table, (alike₁.trans alike₂).policy⟩
          · have both := passes₁.trans passes₂
            exact ⟨both.table, both.policy, both.function, both.loops⟩

end Check

/-- The check of a block, from its opening brace to its closing one. -/
theorem Block.check_ok {mode : EntryMode} {start stop : Pos} {stmts : List Stmt}
    {s s' : Check.State} (run : (Block.mk start stop stmts).check mode s = .ok () s') :
    ∃ s₁, Stmt.checkAll stmts { s with symbols := s.symbols.enter mode } = .ok () s₁ ∧
      s' = { s₁ with symbols := (s₁.symbols.register start).leave } := by
  rw [Block.check] at run
  obtain ⟨s₂, inner, rfl⟩ := Check.inScope_ok run
  obtain ⟨u, s₁, checked, registered⟩ := bind_eq_ok_iff.mp inner
  cases registered
  exact ⟨s₁, checked, rfl⟩

theorem Block.braces_eq (body : Block) :
    body.braces = body.start :: Stmt.bracesAll body.stmts := by
  cases body
  rw [Block.braces]
  rfl

open Check

/--
The check of a function definition that gets to its end. The function is declared, its body is
checked in a scope that holds the parameters, from `s₁` to `s₂`, and then the returns are looked at.
-/
structure DefineRun (h : Header) (body : Block) (s s' : State) (f : Function) (s₁ s₂ : State) :
    Prop where
  outside : s.currentFunction = none
  named : s.symbols.Declares (s.symbols.insert (.fn f)) [h.name] []
  found : ∃ f', (s.symbols.insert (.fn f)).lookup h.name = some (.fn f') ∧ h.Describes f'
  opens : (s.symbols.insert (.fn f)).Opens (s₁.symbols.enter .resumeLast) h.paramNames
  stop : s₁.engine.policy = .stop
  function : s₁.currentFunction = some f
  loops : s₁.loopDepth = 0
  checked : body.check .resumeLast s₁ = .ok () s₂
  ended : endFunction h body f { s₂ with currentFunction := none, loopDepth := s.loopDepth } =
    .ok () s'

theorem Stmt.define_ok {pos : Pos} {h : Header} {body : Block} {s s' : State}
    (stop : s.engine.policy = .stop) (wf : s.symbols.WellFormed)
    (run : (Stmt.define pos h body).check s = .ok () s') :
    ∃ f s₁ s₂, DefineRun h body s s' f s₁ s₂ := by
  rw [Stmt.check] at run
  obtain ⟨found, s₁, begun, run⟩ := bind_eq_ok_iff.mp run
  obtain ⟨f, t, params, rfl, begins⟩ := beginFunction_ok stop wf begun
  obtain ⟨u, s₂, inside, ended⟩ := bind_eq_ok_iff.mp run
  obtain ⟨s₃, checked, rfl⟩ := inFunction_ok inside
  rw [begins.loops] at ended
  have opens := begins.opens wf
  exact ⟨f, { s₁ with currentFunction := some f, loopDepth := 0 }, s₃, begins.outside,
    begins.named wf, begins.found wf, opens, begins.policy.trans stop, rfl, rfl, checked, ended⟩

/-- A return that is accepted where it stands is in a function, and something is found for its
value. -/
theorem Stmt.returnWith_ok {pos : Pos} {value : Option Expr} {s s' : State}
    (stop : s.engine.policy = .stop) (run : (Stmt.returnWith pos value).check s = .ok () s') :
    s.currentFunction.isSome = true ∧ ∀ e ∈ value, ∃ d r, e.detect s = .ok d r := by
  have inside : s.currentFunction.isNone = false := by
    by_contra outside
    cases value with
    | none =>
        rw [Stmt.check, bind_ok (get_run s), if_pos (by simpa using outside)] at run
        exact fatal_ne_ok stop run
    | some e =>
        rw [Stmt.check, bind_ok (get_run s), if_pos (by simpa using outside)] at run
        exact fatal_ne_ok stop run
  refine ⟨by simpa using inside, fun e member => ?_⟩
  cases member
  rw [Stmt.check, bind_ok (get_run s), if_neg (by simp [inside])] at run
  obtain ⟨d, r, detected, -⟩ := bind_eq_ok_iff.mp run
  exact ⟨d, r, detected⟩

section

variable {pos : Pos} {s s' : State}

/-- An arm of an if statement and the arms after it. -/
theorem Branches.arm_ok {cond : Expr} {body : Block} {rest : Branches}
    (run : (do checkCondition pos .ifWord cond; body.check .new; rest.check) s = .ok () s') :
    ∃ s₁ s₂, checkCondition pos .ifWord cond s = .ok () s₁ ∧ s.OnlyReports s₁ ∧
      body.check .new s₁ = .ok () s₂ ∧ rest.check s₂ = .ok () s' := by
  obtain ⟨u, s₁, condition, run⟩ := bind_eq_ok_iff.mp run
  obtain ⟨u, s₂, checked, arms⟩ := bind_eq_ok_iff.mp run
  exact ⟨s₁, s₂, condition, .of_readsTable (.checkCondition _ _ _) condition, checked, arms⟩

theorem Stmt.loop_ok {cond : Expr} {body : Block}
    (run : (Stmt.loop pos cond body).check s = .ok () s') :
    ∃ s₁ s₂, s.OnlyReports s₁ ∧
      body.check .new { s₁ with loopDepth := s₁.loopDepth + 1 } = .ok () s₂ ∧
      s' = { s₂ with loopDepth := s₂.loopDepth - 1 } := by
  rw [Stmt.check] at run
  obtain ⟨u, s₁, condition, looped⟩ := bind_eq_ok_iff.mp run
  obtain ⟨s₂, checked, rfl⟩ := inLoop_ok looped
  exact ⟨s₁, s₂, .of_readsTable (.checkCondition _ _ _) condition, checked, rfl⟩

theorem Stmt.maybe_ok {probability : Expr} {body : Stmt}
    (run : (Stmt.maybe pos probability body).check s = .ok () s') :
    ∃ s₁ s₂, s.OnlyReports s₁ ∧
      body.check { s₁ with uncertainDepth := s₁.uncertainDepth + 1 } = .ok () s₂ ∧
      s' = { s₂ with uncertainDepth := s₂.uncertainDepth - 1 } := by
  rw [Stmt.check] at run
  obtain ⟨u, s₁, chance, run⟩ := bind_eq_ok_iff.mp run
  obtain ⟨u, s₂, probable, run⟩ := bind_eq_ok_iff.mp run
  obtain ⟨s₃, checked, rfl⟩ := inUncertainty_ok run
  have first := State.OnlyReports.of_readsTable (.checkProbability _ _ _) chance
  exact ⟨s₂, s₃, first.trans (.of_readsTable (.checkProbable _ _) probable), checked, rfl⟩

theorem Stmt.maybeOtherwise_ok {otherwisePos : Pos} {probability : Expr} {body alternative : Stmt}
    (run : (Stmt.maybeOtherwise pos probability body otherwisePos alternative).check s =
      .ok () s') :
    ∃ s₁ s₂ s₃, s.OnlyReports s₁ ∧
      body.check { s₁ with uncertainDepth := s₁.uncertainDepth + 1 } = .ok () s₂ ∧
      alternative.check s₂ = .ok () s₃ ∧
      s' = { s₃ with uncertainDepth := s₃.uncertainDepth - 1 } := by
  rw [Stmt.check] at run
  obtain ⟨u, s₁, chance, run⟩ := bind_eq_ok_iff.mp run
  obtain ⟨u, s₂, feasible, run⟩ := bind_eq_ok_iff.mp run
  obtain ⟨s₃, inner, rfl⟩ := inUncertainty_ok run
  obtain ⟨u, s₄, checked, checked'⟩ := bind_eq_ok_iff.mp inner
  have first := State.OnlyReports.of_readsTable (.checkProbability _ _ _) chance
  have second := Unobtrusive.checkAlternatives _ _ _ _ s₁ _ s₂ feasible
  exact ⟨s₂, s₄, s₃, first.trans second, checked, checked', rfl⟩

end

/-! ## Statements -/

/-- What follows a step is checked in a state as good as the one before it. -/
theorem Check.Passes.next {s s₁ s' : State} {names names' : List String} {starts starts' : List Pos}
    (first : Passes s s₁ names starts) (stop : s.engine.policy = .stop)
    (second : s₁.engine.policy = .stop → s₁.symbols.WellFormed → Passes s₁ s' names' starts') :
    Passes s s' (names ++ names') (starts ++ starts') :=
  first.trans (second (first.policy.trans stop) first.table.wellFormed)

mutual

/-- What an accepted statement does to the state. -/
theorem Stmt.check_passes {s s' : State} (stmt : Stmt) (stop : s.engine.policy = .stop)
    (wf : s.symbols.WellFormed) (run : stmt.check s = .ok () s') :
    Passes s s' stmt.declares stmt.braces := by
  cases stmt <;> rw [Stmt.declares, Stmt.braces]
  case block body =>
    rw [Stmt.check] at run
    exact body.check_passes stop wf run
  case declare pos type namePos name init =>
    rw [Stmt.check] at run
    exact (checkDeclaration_ok stop wf run).1
  case infer pos namePos name init =>
    rw [Stmt.check] at run
    exact (checkInference_ok stop wf run).1
  case define pos header body =>
    obtain ⟨f, s₁, s₂, whole⟩ := Stmt.define_ok stop wf run
    obtain ⟨closes, policy, -, -⟩ :=
      body.check_closes whole.stop whole.named.wellFormed whole.opens whole.checked
    obtain ⟨-, -, -, last⟩ := endFunction_ok (by exact policy.trans whole.stop)
      (by exact closes.declares.wellFormed) whole.ended
    rw [body.braces_eq]
    -- the name, then the blocks of the body; the look at the returns adds nothing
    have table := (whole.named.trans closes.declares).trans last.table
    rw [List.append_nil, List.append_nil, List.append_nil] at table
    refine ⟨table, ?_, last.function.trans whole.outside.symm, last.loops⟩
    exact last.policy.trans (policy.trans (whole.stop.trans stop.symm))
  case branch pos cond body rest =>
    rw [Stmt.check] at run
    obtain ⟨s₁, s₂, -, same, checked, arms⟩ := Branches.arm_ok run
    exact (same.passes wf).next stop fun stop wf =>
      (body.check_passes stop wf checked).next stop fun stop wf => rest.check_passes stop wf arms
  case loop pos cond body =>
    obtain ⟨s₁, s₂, same, checked, rfl⟩ := Stmt.loop_ok run
    refine (same.passes wf).next stop fun stop wf => ?_
    have inner := body.check_passes (by exact stop) (by exact wf) checked
    refine ⟨inner.table, inner.policy, inner.function, ?_⟩
    show s₂.loopDepth - 1 = s₁.loopDepth
    rw [inner.loops, Nat.add_sub_cancel]
  case maybe pos probability body =>
    obtain ⟨s₁, s₂, same, checked, rfl⟩ := Stmt.maybe_ok run
    refine (same.passes wf).next stop fun stop wf => ?_
    have inner := body.check_passes (by exact stop) (by exact wf) checked
    exact ⟨inner.table, inner.policy, inner.function, inner.loops⟩
  case maybeOtherwise pos probability body otherwisePos alternative =>
    obtain ⟨s₁, s₂, s₃, same, checked, checked', rfl⟩ := Stmt.maybeOtherwise_ok run
    refine (same.passes wf).next stop fun stop wf => ?_
    have inner := (body.check_passes (by exact stop) (by exact wf) checked).next (by exact stop)
      fun stop wf => alternative.check_passes stop wf checked'
    exact ⟨inner.table, inner.policy, inner.function, inner.loops⟩
  case assign | call | breakOut | continueOn | returnWith | needs | bad =>
    exact (Unobtrusive.plain rfl (by rw [Stmt.declares])).passes wf run

/-- What an accepted block does, wherever its scope was opened. -/
theorem Block.check_closes {s s' : State} {mode : EntryMode} {t : SymbolTable}
    {names : List String} (body : Block) (stop : s.engine.policy = .stop) (wf : t.WellFormed)
    (opens : t.Opens (s.symbols.enter mode) names) (run : body.check mode s = .ok () s') :
    t.Closes s'.symbols (s.symbols.enter mode).current body.start
        (names ++ Stmt.declaresAll body.stmts) (Stmt.bracesAll body.stmts) ∧
      s'.engine.policy = s.engine.policy ∧ s'.currentFunction = s.currentFunction ∧
      s'.loopDepth = s.loopDepth := by
  cases body with
  | mk start final stmts =>
      obtain ⟨s₁, checked, rfl⟩ := Block.check_ok run
      have passes := Stmt.checkAll_passes stmts (by exact stop) (by exact opens.wellFormed) checked
      exact ⟨opens.close wf passes.table start, passes.policy, passes.function, passes.loops⟩

/-- What an accepted block does from outside: it declares nothing. -/
theorem Block.check_passes {s s' : State} (body : Block) (stop : s.engine.policy = .stop)
    (wf : s.symbols.WellFormed) (run : body.check .new s = .ok () s') :
    Passes s s' [] body.braces := by
  cases body with
  | mk start final stmts =>
      obtain ⟨s₁, checked, rfl⟩ := Block.check_ok run
      have opens := SymbolTable.Opens.enter wf
      have passes := Stmt.checkAll_passes stmts (by exact stop) (by exact opens.wellFormed) checked
      have closes := opens.close wf passes.table start
      rw [Block.braces]
      exact ⟨closes.declares, passes.policy, passes.function, passes.loops⟩

theorem Stmt.checkAll_passes {s s' : State} (stmts : List Stmt) (stop : s.engine.policy = .stop)
    (wf : s.symbols.WellFormed) (run : Stmt.checkAll stmts s = .ok () s') :
    Passes s s' (Stmt.declaresAll stmts) (Stmt.bracesAll stmts) := by
  cases stmts with
  | nil =>
      rw [Stmt.checkAll] at run
      exact .of_readsTable (.pure ()) wf run
  | cons stmt stmts =>
      rw [Stmt.checkAll] at run
      rw [Stmt.bracesAll]
      obtain ⟨u, s₁, first, others⟩ := bind_eq_ok_iff.mp run
      exact (stmt.check_passes stop wf first).next stop fun stop wf =>
        Stmt.checkAll_passes stmts stop wf others

theorem Branches.check_passes {s s' : State} (rest : Branches) (stop : s.engine.policy = .stop)
    (wf : s.symbols.WellFormed) (run : rest.check s = .ok () s') :
    Passes s s' [] rest.braces := by
  cases rest <;> (rw [Branches.check] at run; rw [Branches.braces])
  case done => exact .of_readsTable (.pure ()) wf run
  case otherwise pos body => exact body.check_passes stop wf run
  case elseIf pos cond body rest =>
    obtain ⟨s₁, s₂, -, same, checked, arms⟩ := Branches.arm_ok run
    exact (same.passes wf).next stop fun stop wf =>
      (body.check_passes stop wf checked).next stop fun stop wf => rest.check_passes stop wf arms

end

namespace DefineRun

variable {h : Header} {body : Block} {s s' s₁ s₂ : State} {f : Function}

/-- The body of a function is a block below the scope that has the function's name. -/
theorem closes (whole : DefineRun h body s s' f s₁ s₂) :
    (s.symbols.insert (.fn f)).Closes s₂.symbols (s₁.symbols.enter .resumeLast).current body.start
      (h.paramNames ++ Stmt.declaresAll body.stmts) (Stmt.bracesAll body.stmts) :=
  (body.check_closes whole.stop whole.named.wellFormed whole.opens whole.checked).1

/-- When the body is done, the table is final, every return is right and every way returns. -/
theorem returns (whole : DefineRun h body s s' f s₁ s₂) :
    s₂.engine.policy = .stop ∧ s'.symbols = s₂.symbols ∧
      (∃ r, checkReturns h.namePos h.result.ty body s₂ = .ok true r) ∧
      ∃ r, body.returnsOnAllPaths h.result.ty s₂ = .ok true r := by
  obtain ⟨closes, policy, -, -⟩ :=
    body.check_closes whole.stop whole.named.wellFormed whole.opens whole.checked
  have stop := policy.trans whole.stop
  obtain ⟨⟨r, right⟩, ⟨r₁, r₂, alike, complete⟩, same, -⟩ := endFunction_ok (by exact stop)
    (by exact closes.declares.wellFormed) whole.ended
  refine ⟨stop, same.table.symm, ?_, ?_⟩
  · exact (ReadsTable.checkReturns h.namePos h.result.ty body).transfer right ⟨rfl, rfl⟩
  · exact (body.returnsOnAllPaths_readsTable h.result.ty).transfer complete
      ⟨alike.table, alike.policy⟩

end DefineRun

end Samo
