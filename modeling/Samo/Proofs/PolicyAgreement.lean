import Samo.Proofs.Scripts

/-!
# The two policies agree

Every step of a check is run twice, from states that differ in the policy alone, as long as nothing
fatal was recorded. The collecting run always gets to its end. The stopping run either does the same
or halts, and then it has recorded what the other one records up to its first fatal report
(`Agrees`). What a step tells is the same under both policies, so this holds of every step
(`Disciplined`), and of a whole check.
-/

namespace Samo

namespace Check

variable {α β : Type}

/-! ## Two runs of a step -/

/-- The same state under the policy `stop`. -/
def State.stopping (s : State) : State := { s with engine := { s.engine with policy := .stop } }

@[simp] theorem policy_stopping (s : State) : s.stopping.engine.policy = .stop := rfl

/-- What a run leaves behind, wherever it ends. -/
def stateOf : EStateM.Result Halt State α → State
  | .ok _ s => s
  | .error _ s => s

/-- A later state: nothing recorded is lost. -/
structure State.Extends (s s' : State) : Prop where
  diagnostics : s.engine.diagnostics <+: s'.engine.diagnostics
  functions : s.functions <+: s'.functions
  counted : s.engine.Counted → s'.engine.Counted

namespace State.Extends

theorem refl (s : State) : s.Extends s := ⟨List.prefix_refl _, List.prefix_refl _, id⟩

/-- What has the engine and the list of functions of a state is as late as it. -/
theorem of_same {s s' : State} (engine : s'.engine = s.engine)
    (functions : s'.functions = s.functions) : s.Extends s' := by
  refine ⟨?_, ?_, ?_⟩
  · exact engine.symm ▸ List.prefix_refl _
  · exact functions.symm ▸ List.prefix_refl _
  · rw [engine]
    exact id

theorem trans {s₁ s₂ s₃ : State} (first : s₁.Extends s₂) (second : s₂.Extends s₃) :
    s₁.Extends s₃ :=
  ⟨first.diagnostics.trans second.diagnostics, first.functions.trans second.functions,
    second.counted ∘ first.counted⟩

end State.Extends

/-- How a stopping run compares with a collecting run that gave `a` and ended in `s`. -/
inductive Agrees (a : α) (s : State) : EStateM.Result Halt State α → Prop
  | finished (none : s.engine.NoFatal) (log : Log) : Agrees a s (.ok a { s.stopping with log })
  | halted (s' : State) (fatal : ∃ d ∈ s.engine.diagnostics, d.severity = .fatal)
      (diagnostics : s'.engine.diagnostics =
        Diagnostic.throughFirstFatal s.engine.diagnostics)
      (functions : s'.functions <+: s.functions) : Agrees a s (.error .fatal s')

/-- A collecting run of a step gets to its end, and the stopping run agrees with it. -/
def Collects (m : Check α) (s : State) : Prop :=
  ∃ a s', m s = .ok a s' ∧ s'.engine.policy = .collect ∧
    (s.engine.NoFatal → Agrees a s' (m s.stopping))

/-- A step on which the two policies agree, and which loses nothing that was recorded. -/
structure Disciplined (m : Check α) : Prop where
  grows : ∀ s : State, s.Extends (stateOf (m s))
  collects : ∀ s : State, s.engine.policy = .collect → Collects m s

/-! ## What is recorded of events -/

namespace Event

theorem recordIn_cases (e : Engine) (event : Event) :
    recordIn e event = e ∨ ∃ severity pos message,
      recordIn e event = e.record severity pos message ∧
        (event.isFatal = true ↔ severity = .fatal) := by
  cases event with
  | report r =>
      cases r with
      | fatal pos p => exact .inr ⟨_, _, _, rfl, by simp [isFatal, Report.isFatal]⟩
      | error pos p => exact .inr ⟨_, _, _, rfl, by simp [isFatal, Report.isFatal]⟩
  | warning pos p => exact .inr ⟨_, _, _, rfl, by simp [isFatal]⟩
  | listed f => exact .inl rfl

/-- Nothing recorded is lost, and the counts stay right. -/
theorem recordAll_grows (e : Engine) (es : List Event) :
    e.diagnostics <+: (recordAll e es).diagnostics ∧ (e.Counted → (recordAll e es).Counted) := by
  induction es generalizing e with
  | nil => exact ⟨List.prefix_refl _, id⟩
  | cons event es ih =>
      obtain ⟨more, counted⟩ := ih (recordIn e event)
      show e.diagnostics <+: (recordAll (recordIn e event) es).diagnostics ∧
        (e.Counted → (recordAll (recordIn e event) es).Counted)
      rcases recordIn_cases e event with same | ⟨severity, pos, message, same, -⟩
      · rw [same] at more counted ⊢
        exact ⟨more, counted⟩
      · rw [same] at more counted ⊢
        exact ⟨(Engine.prefix_record ..).trans more, fun right => counted (right.record ..)⟩

/-- What is recorded does not depend on the policy. -/
theorem recordAll_under (e : Engine) (p : Policy) (es : List Event) :
    recordAll { e with policy := p } es = { recordAll e es with policy := p } := by
  induction es generalizing e with
  | nil => rfl
  | cons event es ih =>
      have first : recordIn { e with policy := p } event = { recordIn e event with policy := p } := by
        cases event with
        | report r => cases r <;> exact Engine.record_under ..
        | warning pos p => exact Engine.record_under ..
        | listed f => rfl
      show recordAll (recordIn { e with policy := p } event) es = _
      rw [first]
      exact ih _

theorem noFatal_recordIn {e : Engine} (none : e.NoFatal) {event : Event}
    (mild : event.isFatal = false) : (recordIn e event).NoFatal := by
  rcases recordIn_cases e event with same | ⟨severity, pos, message, same, fatal⟩
  · rw [same]
    exact none
  · rw [same]
    refine none.record (fun severe => ?_) pos message
    rw [fatal.mpr severe] at mild
    cases mild

theorem noFatal_recordAll {e : Engine} (none : e.NoFatal) {es : List Event}
    (mild : ∀ event ∈ es, event.isFatal = false) : (recordAll e es).NoFatal := by
  induction es generalizing e with
  | nil => exact none
  | cons event es ih =>
      obtain ⟨first, others⟩ := List.forall_mem_cons.mp mild
      exact ih (noFatal_recordIn none first) others

/-- The first fatal event is recorded, and then all is recorded that is heard by stopping there. -/
theorem recordAll_throughFatal {e : Engine} (none : e.NoFatal) {es : List Event}
    (fatal : ∃ event ∈ es, event.isFatal = true) :
    (∃ d ∈ (recordAll e es).diagnostics, d.severity = .fatal) ∧
      (recordAll e (throughFatal es)).diagnostics =
        Diagnostic.throughFirstFatal (recordAll e es).diagnostics := by
  induction es generalizing e with
  | nil => simp at fatal
  | cons event es ih =>
      by_cases first : event.isFatal = true
      · obtain ⟨more, split⟩ := (recordAll_grows (recordIn e event) es).1
        obtain ⟨d, severe, added⟩ : ∃ d : Diagnostic, d.severity = .fatal ∧
            (recordIn e event).diagnostics = e.diagnostics ++ [d] := by
          rcases event with (⟨pos, p⟩ | ⟨pos, p⟩) | ⟨pos, p⟩ | f
          · -- nothing fatal is recorded yet, so the report repeats none
            rcases e.record_cases .fatal pos p.message with ⟨known, -⟩ | added
            · exact absurd rfl (none _ known)
            · exact ⟨_, rfl, added⟩
          · cases first
          · cases first
          · cases first
        have whole : (recordAll e (event :: es)).diagnostics = e.diagnostics ++ d :: more := by
          rw [List.append_cons, ← added, split]
          rfl
        rw [whole, Diagnostic.throughFirstFatal_append_cons none severe]
        refine ⟨⟨d, by simp, severe⟩, ?_⟩
        rw [throughFatal, if_pos first]
        exact added
      · have later : ∃ event ∈ es, event.isFatal = true := by simpa [first] using fatal
        rw [throughFatal, if_neg first]
        exact ih (noFatal_recordIn none (Bool.eq_false_iff.mpr first)) later

theorem throughFatal_prefix (es : List Event) : throughFatal es <+: es := by
  induction es with
  | nil => exact List.prefix_refl _
  | cons e es ih =>
      unfold throughFatal
      split
      · exact List.prefix_append [e] es
      · exact List.prefix_cons_inj e |>.mpr ih

end Event

/-! ## Steps that tell -/

theorem State.Extends.of_recordAll {s s' : State} {es : List Event}
    (engine : s'.engine = Event.recordAll s.engine es)
    (functions : s'.functions = s.functions ++ Event.functions es) : s.Extends s' := by
  obtain ⟨more, counted⟩ := Event.recordAll_grows s.engine es
  rw [← engine] at more counted
  exact ⟨more, functions ▸ List.prefix_append _ _, counted⟩

/-- What is told under both policies is recorded under both. -/
theorem Tells.agrees {m : Check α} {s s' : State} {es : List Event} {a : α}
    (tells : Tells m s es a s') (policy : s.engine.policy = .collect) : Collects m s := by
  obtain ⟨l, run⟩ := tells.collected policy
  refine ⟨a, _, run, (Event.policy_recordAll ..).trans policy, fun none => ?_⟩
  have twin : s.Twin s.stopping := ⟨_, s.log, rfl⟩
  have under (es : List Event) : Event.recordAll s.stopping.engine es =
      { Event.recordAll s.engine es with policy := .stop } := Event.recordAll_under ..
  by_cases fatal : ∃ e ∈ es, e.isFatal = true
  · obtain ⟨t, halted, engine, functions⟩ := tells.halted s.stopping twin rfl fatal
    obtain ⟨severe, cut⟩ := Event.recordAll_throughFatal none fatal
    rw [halted]
    refine .halted t severe ?_ ?_
    · rw [engine, under]
      exact cut
    · show t.functions <+: s'.functions
      rw [functions, tells.functions]
      exact (List.prefix_append_right_inj _).mpr ((Event.throughFatal_prefix es).filterMap _)
  · have mild : ∀ e ∈ es, e.isFatal = false := by
      intro e member
      rw [Bool.eq_false_iff]
      exact fun severe => fatal ⟨e, member, severe⟩
    obtain ⟨l', finished⟩ := tells.finished s.stopping twin fun _ => mild
    rw [finished, under]
    exact Agrees.finished (s := { s' with engine := Event.recordAll s.engine es, log := l })
      (Event.noFatal_recordAll none mild) l'

theorem Tells.grows {m : Check α} {s s' : State} {es : List Event} {a : α}
    (tells : Tells m s es a s') : s.Extends (stateOf (m s)) := by
  have twin : s.Twin s := ⟨s.engine, s.log, rfl⟩
  by_cases halts : s.engine.policy = .stop ∧ ∃ e ∈ es, e.isFatal = true
  · obtain ⟨t, run, engine, functions⟩ := tells.halted s twin halts.1 halts.2
    rw [run]
    exact .of_recordAll engine functions
  · obtain ⟨l, run⟩ := tells.finished s twin fun stop e member => by
      rw [Bool.eq_false_iff]
      exact fun fatal => halts ⟨stop, e, member, fatal⟩
    rw [run]
    exact .of_recordAll rfl tells.functions

namespace Disciplined

/-- The policies agree on every step that is known by what it tells. -/
theorem of_tells {m : Check α} (each : ∀ s, ∃ es a s', Tells m s es a s') : Disciplined m := by
  refine ⟨fun s => ?_, fun s policy => ?_⟩
  · obtain ⟨es, a, s', tells⟩ := each s
    exact tells.grows
  · obtain ⟨es, a, s', tells⟩ := each s
    exact tells.agrees policy

theorem of_scripted {Q : Pos → Prop} {owed : Prop} {m : Check α} (scripted : Scripted Q owed m) :
    Disciplined m := by
  refine of_tells fun s => ?_
  obtain ⟨_, a, s', -, es, tells, -⟩ := scripted s
  exact ⟨es, a, s', tells⟩

theorem of_readsTable {m : Check α} (reads : ReadsTable m) : Disciplined m := by
  refine of_tells fun s => ?_
  obtain ⟨rs, a, tells⟩ := reads.tells s
  exact ⟨_, a, s, tells⟩

theorem beginFunction (pos : Pos) (h : Header) : Disciplined (beginFunction pos h) :=
  of_scripted (Scripted.declaring.beginFunction (Q := fun _ => True) (.modifySymbols _)
    (.modifySymbols _) trivial h.within_anywhere)

theorem endFunction (h : Header) (body : Block) (f : Function) :
    Disciplined (endFunction h body f) :=
  of_scripted (Scripted.endFunction (Q := fun _ => True) trivial body.within_anywhere f)

end Disciplined

end Check

/-! ## Statements and programs -/

open Check

/-- The policies agree on every statement. -/
theorem Stmt.check_disciplined (s : Stmt) : Disciplined s.check :=
  .of_scripted s.check_scripted_anywhere

theorem Stmt.checkAll_disciplined (ss : List Stmt) : Disciplined (Stmt.checkAll ss) :=
  .of_scripted (Stmt.checkAll_scripted_anywhere ss)

theorem Block.check_disciplined (mode : EntryMode) (b : Block) : Disciplined (b.check mode) :=
  .of_scripted (b.check_scripted_anywhere mode)

theorem Branches.check_disciplined (rest : Branches) : Disciplined rest.check :=
  .of_scripted rest.check_scripted_anywhere

namespace Program

/-- Both checks of a program, from states that differ in the policy alone. -/
theorem checked_agrees (program : Program) {s : State} (policy : s.engine.policy = .collect)
    (none : s.engine.NoFatal) :
    (program.checked s).engine.NoFatal ∧
        (∃ log, Stmt.checkAll program s.stopping =
          .ok () { (program.checked s).stopping with log }) ∨
      (∃ d ∈ (program.checked s).engine.diagnostics, d.severity = .fatal) ∧
        (program.checked s.stopping).engine.diagnostics =
          Diagnostic.throughFirstFatal (program.checked s).engine.diagnostics ∧
        (program.checked s.stopping).functions <+: (program.checked s).functions := by
  obtain ⟨u, s', run, -, agrees⟩ := (Stmt.checkAll_disciplined program).collects s policy
  have agrees := agrees none
  rw [checked_of_ok run]
  cases stopped : Stmt.checkAll program s.stopping with
  | ok u t =>
      rw [stopped] at agrees
      cases agrees with
      | finished none log => exact .inl ⟨none, log, rfl⟩
  | error h t =>
      rw [stopped] at agrees
      cases agrees with
      | halted _ fatal diagnostics functions =>
          obtain ⟨log, same⟩ := checked_of_halt stopped
          rw [same]
          exact .inr ⟨fatal, diagnostics, functions⟩

/-- The check leaves what the statements left, but for the log. -/
theorem checked_eq (program : Program) (s : State) :
    ∃ log, program.checked s = { stateOf (Stmt.checkAll program s) with log } := by
  cases run : Stmt.checkAll program s with
  | ok u s' => exact ⟨s'.log, checked_of_ok run⟩
  | error h s' => exact checked_of_halt run

/-- The counts are right after a check. -/
theorem checked_counted (program : Program) {s : State} (counted : s.engine.Counted) :
    (program.checked s).engine.Counted := by
  obtain ⟨log, same⟩ := program.checked_eq s
  rw [same]
  exact ((Stmt.checkAll_disciplined program).grows s).counted counted

/--
The two policies agree. Stopping at the first fatal report records what collecting all of them
records up to the first one, so at most one, and that is the last. Both accept the same programs,
and the functions that pass before the stop are the first ones that pass.
-/
theorem policies_agree (program : Program) (o : Options) (file : String) (builtins : Registry)
    (log : Log) :
    let stopped := program.checked ({ o with policy := .stop }.initialState file builtins log)
    let collected := program.checked ({ o with policy := .collect }.initialState file builtins log)
    stopped.engine.diagnostics = Diagnostic.throughFirstFatal collected.engine.diagnostics ∧
      stopped.engine.diagnostics.countP (·.severity = .fatal) ≤ 1 ∧
      (∀ d ∈ stopped.engine.diagnostics, d.severity = .fatal →
        stopped.engine.diagnostics.getLast? = some d) ∧
      (stopped.engine.failure? = none ↔ collected.engine.failure? = none) ∧
      stopped.functions <+: collected.functions := by
  intro stopped collected
  let s := { o with policy := .collect }.initialState file builtins log
  have empty : s.engine.NoFatal := fun d member => nomatch member
  have counted : collected.engine.Counted := program.checked_counted ⟨rfl, rfl, rfl⟩
  have counted' : stopped.engine.Counted := program.checked_counted ⟨rfl, rfl, rfl⟩
  have diagnostics : stopped.engine.diagnostics =
      Diagnostic.throughFirstFatal collected.engine.diagnostics := by
    rcases program.checked_agrees (s := s) rfl empty with ⟨none, log, run⟩ | ⟨-, diagnostics, -⟩
    · show (program.checked s.stopping).engine.diagnostics = _
      rw [checked_of_ok run, Diagnostic.throughFirstFatal_eq_self none]
      rfl
    · exact diagnostics
  have functions : stopped.functions <+: collected.functions := by
    rcases program.checked_agrees (s := s) rfl empty with ⟨none, log, run⟩ | ⟨-, -, functions⟩
    · show (program.checked s.stopping).functions <+: _
      rw [checked_of_ok run]
      exact List.prefix_refl _
    · exact functions
  refine ⟨diagnostics, ?_, ?_, ?_, functions⟩
  · rw [diagnostics]
    exact Diagnostic.countP_throughFirstFatal _
  · intro d member fatal
    rw [diagnostics] at member ⊢
    exact Diagnostic.getLast?_throughFirstFatal member fatal
  · rw [Engine.failure?_eq_none_iff counted', Engine.failure?_eq_none_iff counted, diagnostics]
    constructor
    · intro good
      -- nothing fatal before the first fatal report, so there is none and nothing is cut off
      have none : ∀ d ∈ collected.engine.diagnostics, d.severity ≠ .fatal := by
        intro d member fatal
        obtain ⟨d, member, fatal⟩ := Diagnostic.exists_fatal_throughFirstFatal ⟨d, member, fatal⟩
        exact (good d member).1 fatal
      rw [Diagnostic.throughFirstFatal_eq_self none] at good
      exact good
    · intro good d member
      exact good d (Diagnostic.mem_of_mem_throughFirstFatal member)

end Program

end Samo
