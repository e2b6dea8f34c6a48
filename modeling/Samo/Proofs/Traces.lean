import Samo.Checker
import Samo.Proofs.Composition

/-!
# What a check tells

A check tells of problems and of functions that pass. What it tells depends on its surroundings
alone, that is, on everything in the state but the reports and the log; the policy only says how
much of it is heard. `Check.Tells` gives the events of a step in order, and each way to build a step
from others puts the events of its parts one behind the other. What is recorded in the end is what
is heard of the events (`Program.checked_of_tells`).
-/

namespace Samo

/-- Something failed: the diagnostic is fatal or an error. -/
def Diagnostic.Fails (d : Diagnostic) : Prop := d.severity = .fatal ∨ d.severity = .error

namespace Check

variable {α β : Type}

/-- What is recorded of a report. -/
def Report.diagnostic (file : String) : Report → Diagnostic
  | .fatal pos p => ⟨.fatal, p.message, pos, file⟩
  | .error pos p => ⟨.error, p.message, pos, file⟩

theorem Report.fails_diagnostic (file : String) (r : Report) : (r.diagnostic file).Fails := by
  cases r with
  | fatal pos p => exact .inl rfl
  | error pos p => exact .inr rfl

theorem Report.pos_diagnostic (file : String) (r : Report) : (r.diagnostic file).pos = r.pos := by
  cases r with
  | fatal pos p => rfl
  | error pos p => rfl

theorem Report.isFatal_iff (file : String) (r : Report) :
    r.isFatal = true ↔ (r.diagnostic file).severity = .fatal := by
  cases r with
  | fatal pos p => exact ⟨fun _ => rfl, fun _ => rfl⟩
  | error pos p => exact ⟨Bool.noConfusion, Severity.noConfusion⟩

/-! ## What an engine gains -/

/-- An engine after some reports. Warnings are not looked at. -/
structure Gains (rs : List Report) (e e' : Engine) : Prop where
  policy : e'.policy = e.policy
  file : e'.file = e.file
  failures : ∀ d : Diagnostic, d.Fails →
    (d ∈ e'.diagnostics ↔ d ∈ e.diagnostics ∨ ∃ r ∈ rs, d = r.diagnostic e.file)

namespace Gains

theorem refl (e : Engine) : Gains [] e e := by
  refine ⟨rfl, rfl, fun d _ => ⟨.inl, ?_⟩⟩
  rintro (member | ⟨r, none, -⟩)
  · exact member
  · cases none

theorem trans {rs rs' : List Report} {e₁ e₂ e₃ : Engine} (first : Gains rs e₁ e₂)
    (second : Gains rs' e₂ e₃) : Gains (rs ++ rs') e₁ e₃ := by
  refine ⟨second.policy.trans first.policy, second.file.trans first.file, fun d fails => ?_⟩
  rw [second.failures d fails, first.failures d fails, first.file, or_assoc]
  simp only [List.mem_append, or_and_right, exists_or]

theorem fatal (e : Engine) (pos : Pos) (p : Problem) :
    Gains [.fatal pos p] e (e.record .fatal pos p.message) := by
  refine ⟨Engine.policy_record .., Engine.file_record .., fun d _ => ?_⟩
  rw [Engine.mem_record]
  simp only [List.mem_singleton, exists_eq_left, Report.diagnostic]

theorem error (e : Engine) (pos : Pos) (p : Problem) :
    Gains [.error pos p] e (e.record .error pos p.message) := by
  refine ⟨Engine.policy_record .., Engine.file_record .., fun d _ => ?_⟩
  rw [Engine.mem_record]
  simp only [List.mem_singleton, exists_eq_left, Report.diagnostic]

theorem warning (e : Engine) (pos : Pos) (message : String) :
    Gains [] e (e.record .warning pos message) := by
  refine ⟨Engine.policy_record .., Engine.file_record .., fun d fails => ?_⟩
  rw [Engine.mem_record]
  refine or_congr_right ⟨?_, ?_⟩
  · rintro rfl
    rcases fails with fatal | error
    · cases fatal
    · cases error
  · rintro ⟨r, none, -⟩
    cases none

end Gains

/-! ## Twins -/

/-- A state that differs in what was reported and logged alone. -/
def State.Twin (s t : State) : Prop := ∃ e l, t = { s with engine := e, log := l }

/-- The state with nothing reported, from which everything is collected. -/
def State.unreported (s : State) : State := { s with engine := { policy := .collect } }

/-- A change of the surroundings, whatever was reported and logged. -/
def Twinned (f : State → State) : Prop :=
  ∀ s e l, f { s with engine := e, log := l } = { f s with engine := e, log := l }

/-- A change of the surroundings that nothing is told of. -/
structure Untold (f : State → State) : Prop where
  twinned : Twinned f
  functions : ∀ s : State, (f s).functions = s.functions

/-! ## Events -/

/-- Something that a check tells. -/
inductive Event where
  | report (r : Report)
  | warning (pos : Pos) (problem : Problem)
  | listed (f : Function)

namespace Event

/-- Whether nothing follows the event under the policy `stop`. -/
def isFatal : Event → Bool
  | report r => r.isFatal
  | warning .. | listed _ => false

/-- The function that passes, if the event is that one does. -/
def function? : Event → Option Function
  | listed f => some f
  | report _ | warning .. => none

/-- The functions that pass, in order. -/
def functions (es : List Event) : List Function := es.filterMap function?

/-- The report, if the event is one. -/
def report? : Event → Option Report
  | report r => some r
  | warning .. | listed _ => none

/-- The reports, in order. -/
def reports (es : List Event) : List Report := es.filterMap report?

/-- What an engine makes of an event. -/
def recordIn (e : Engine) : Event → Engine
  | report (.fatal pos p) => e.record .fatal pos p.message
  | report (.error pos p) => e.record .error pos p.message
  | warning pos p => e.record .warning pos p.message
  | listed _ => e

/-- The events up to the first fatal one, and that one. -/
def throughFatal : List Event → List Event
  | [] => []
  | e :: es => if e.isFatal then [e] else e :: throughFatal es

/-- What is heard of some events under a policy. -/
def heard : Policy → List Event → List Event
  | .collect, es => es
  | .stop, es => throughFatal es

theorem functions_append (es es' : List Event) :
    functions (es ++ es') = functions es ++ functions es' :=
  List.filterMap_append

theorem reports_append (es es' : List Event) : reports (es ++ es') = reports es ++ reports es' :=
  List.filterMap_append

/-- That a function is listed is no report. -/
theorem reports_listed (es : List Event) (f : Function) :
    reports (es ++ [listed f]) = reports es := by
  rw [reports_append]
  exact List.append_nil _

/-- Reports alone list no functions. -/
theorem functions_map_report (rs : List Report) : functions (rs.map report) = [] := by
  induction rs with
  | nil => rfl
  | cons r rs ih => exact ih

theorem reports_map_report (rs : List Report) : reports (rs.map report) = rs := by
  induction rs with
  | nil => rfl
  | cons r rs ih => exact congrArg (r :: ·) ih

/-- Only reports are fatal. -/
theorem exists_fatal_iff {es : List Event} :
    (∃ e ∈ es, e.isFatal = true) ↔ ∃ r ∈ reports es, r.isFatal = true := by
  constructor
  · rintro ⟨e, member, fatal⟩
    cases e with
    | report r => exact ⟨r, List.mem_filterMap.mpr ⟨_, member, rfl⟩, fatal⟩
    | warning pos p => cases fatal
    | listed f => cases fatal
  · rintro ⟨r, member, fatal⟩
    obtain ⟨e, inside, same⟩ := List.mem_filterMap.mp member
    cases e with
    | report r' =>
        cases same
        exact ⟨_, inside, fatal⟩
    | warning pos p => cases same
    | listed f => cases same

theorem throughFatal_of_none {es : List Event} (none : ∀ e ∈ es, e.isFatal = false) :
    throughFatal es = es := by
  induction es with
  | nil => rfl
  | cons e es ih =>
      obtain ⟨mild, rest⟩ := List.forall_mem_cons.mp none
      simp [throughFatal, mild, ih rest]

/-- What follows a fatal event is not heard. -/
theorem throughFatal_append {es : List Event} (fatal : ∃ e ∈ es, e.isFatal = true)
    (es' : List Event) : throughFatal (es ++ es') = throughFatal es := by
  induction es with
  | nil => simp at fatal
  | cons e es ih =>
      by_cases first : e.isFatal = true
      · simp [throughFatal, first]
      · have later : ∃ e ∈ es, e.isFatal = true := by simpa [first] using fatal
        simp [throughFatal, first, ih later]

theorem throughFatal_append_of_none {es : List Event} (none : ∀ e ∈ es, e.isFatal = false)
    (es' : List Event) : throughFatal (es ++ es') = es ++ throughFatal es' := by
  induction es with
  | nil => rfl
  | cons e es ih =>
      obtain ⟨mild, rest⟩ := List.forall_mem_cons.mp none
      simp [throughFatal, mild, ih rest]

theorem throughFatal_sublist (es : List Event) : (throughFatal es).Sublist es := by
  induction es with
  | nil => exact .refl _
  | cons e es ih =>
      unfold throughFatal
      split
      · exact (List.nil_sublist es).cons_cons e
      · exact ih.cons_cons e

theorem functions_throughFatal {es : List Event} (none : functions es = []) :
    functions (throughFatal es) = [] := by
  have sub := (throughFatal_sublist es).filterMap function?
  rw [functions] at none
  rw [none] at sub
  exact List.sublist_nil.mp sub

theorem reports_throughFatal_subset (es : List Event) : reports (throughFatal es) ⊆ reports es :=
  ((throughFatal_sublist es).filterMap report?).subset

/-- What an engine makes of some events. -/
def recordAll (e : Engine) (es : List Event) : Engine := es.foldl recordIn e

theorem recordAll_append (e : Engine) (es es' : List Event) :
    recordAll e (es ++ es') = recordAll (recordAll e es) es' :=
  List.foldl_append

theorem policy_recordIn (e : Engine) (event : Event) : (recordIn e event).policy = e.policy := by
  cases event with
  | report r => cases r <;> exact Engine.policy_record ..
  | warning pos p => exact Engine.policy_record ..
  | listed f => rfl

theorem policy_recordAll (e : Engine) (es : List Event) : (recordAll e es).policy = e.policy := by
  induction es generalizing e with
  | nil => rfl
  | cons event es ih => exact (ih _).trans (policy_recordIn e event)

/-- The failures that an engine gains are the reports among the events. -/
theorem gains (e : Engine) (es : List Event) : Gains (reports es) e (recordAll e es) := by
  induction es generalizing e with
  | nil => exact .refl e
  | cons event es ih =>
      cases event with
      | report r =>
          cases r with
          | fatal pos p => exact (Gains.fatal e pos p).trans (ih _)
          | error pos p => exact (Gains.error e pos p).trans (ih _)
      | warning pos p => exact (Gains.warning e pos p.message).trans (ih _)
      | listed f => exact ih e

end Event

/--
A step tells some events from a state, or from a twin of it, gives a result, and leads to a state.
Under the policy `stop` it goes only as far as to its first fatal event.
-/
structure Tells (m : Check α) (s : State) (es : List Event) (a : α) (s' : State) : Prop where
  functions : s'.functions = s.functions ++ Event.functions es
  finished : ∀ t, s.Twin t → (t.engine.policy = .stop → ∀ e ∈ es, e.isFatal = false) →
    ∃ l, m t = .ok a { s' with engine := Event.recordAll t.engine es, log := l }
  halted : ∀ t, s.Twin t → t.engine.policy = .stop → (∃ e ∈ es, e.isFatal = true) →
    ∃ t', m t = .error .fatal t' ∧
      t'.engine = Event.recordAll t.engine (Event.throughFatal es) ∧
      t'.functions = s.functions ++ Event.functions (Event.throughFatal es)

namespace Tells

variable {m : Check α} {s s' : State} {es : List Event} {a : α}

/-- A step that tells nothing. -/
theorem silent (functions : s'.functions = s.functions)
    (run : ∀ t, s.Twin t → ∃ l, m t = .ok a { s' with engine := t.engine, log := l }) :
    Tells m s [] a s' := by
  refine ⟨by rw [functions]; exact (List.append_nil _).symm, fun t twin _ => run t twin, ?_⟩
  rintro t - - ⟨e, none, -⟩
  cases none

/-- A step that tells of one thing which is not fatal. -/
theorem mild {e : Event} (mild : e.isFatal = false)
    (functions : s'.functions = s.functions ++ Event.functions [e])
    (run : ∀ t, s.Twin t →
      ∃ l, m t = .ok a { s' with engine := Event.recordIn t.engine e, log := l }) :
    Tells m s [e] a s' := by
  refine ⟨functions, fun t twin _ => run t twin, ?_⟩
  rintro t - - ⟨e', member, fatal⟩
  rw [List.mem_singleton.mp member, mild] at fatal
  cases fatal

/-- A run that collects gets to its end, and records all events. -/
theorem collected (tells : Tells m s es a s') (collect : s.engine.policy = .collect) :
    ∃ l, m s = .ok a { s' with engine := Event.recordAll s.engine es, log := l } := by
  refine tells.finished s ⟨s.engine, s.log, rfl⟩ fun stop => ?_
  rw [collect] at stop
  cases stop

theorem pure (a : α) (s : State) : Tells (pure a) s [] a s := by
  refine silent rfl ?_
  rintro t ⟨e, l, rfl⟩
  exact ⟨l, rfl⟩

/-- Two steps in a row tell one after the other. -/
theorem bind {f : α → Check β} {s₁ s₂ : State} {es' : List Event} {b : β}
    (first : Tells m s es a s₁) (second : Tells (f a) s₁ es' b s₂) :
    Tells (m >>= f) s (es ++ es') b s₂ := by
  refine ⟨?_, fun t twin quiet => ?_, fun t twin stop fatal => ?_⟩
  · rw [second.functions, first.functions, Event.functions_append, List.append_assoc]
  · obtain ⟨l, run⟩ := first.finished t twin fun stop e member =>
      quiet stop e (List.mem_append_left _ member)
    obtain ⟨l', run'⟩ := second.finished _ ⟨Event.recordAll t.engine es, l, rfl⟩
      fun stop e member => quiet (by rw [← stop]; exact (Event.policy_recordAll _ _).symm) e
        (List.mem_append_right _ member)
    refine ⟨l', ?_⟩
    rw [bind_ok run, run', Event.recordAll_append]
  · by_cases early : ∃ e ∈ es, e.isFatal = true
    · obtain ⟨t', run, engine, functions⟩ := first.halted t twin stop early
      exact ⟨t', bind_error run, by rw [engine, Event.throughFatal_append early],
        by rw [functions, Event.throughFatal_append early]⟩
    · -- the first step gets to its end, so the fatal event is one of the second
      have none : ∀ e ∈ es, e.isFatal = false := by
        intro e member
        rw [Bool.eq_false_iff]
        exact fun fatal => early ⟨e, member, fatal⟩
      have late : ∃ e ∈ es', e.isFatal = true := by
        obtain ⟨e, member, fatal⟩ := fatal
        rcases List.mem_append.mp member with left | right
        · exact absurd ⟨e, left, fatal⟩ early
        · exact ⟨e, right, fatal⟩
      obtain ⟨l, run⟩ := first.finished t twin fun _ => none
      obtain ⟨t', run', engine, functions⟩ := second.halted _
        ⟨Event.recordAll t.engine es, l, rfl⟩
        ((Event.policy_recordAll _ _).trans stop) late
      refine ⟨t', by rw [bind_ok run, run'], ?_, ?_⟩
      · rw [engine, Event.throughFatal_append_of_none none, Event.recordAll_append]
      · rw [functions, first.functions, Event.throughFatal_append_of_none none,
          Event.functions_append, List.append_assoc]

/-- What a step tells is a matter of its runs from the state and its twins. -/
theorem congr {m' : Check α} (same : ∀ t, s.Twin t → m' t = m t) (tells : Tells m s es a s') :
    Tells m' s es a s' := by
  refine ⟨tells.functions, fun t twin quiet => ?_, fun t twin stop fatal => ?_⟩
  · rw [same t twin]
    exact tells.finished t twin quiet
  · rw [same t twin]
    exact tells.halted t twin stop fatal

/-- A run from a state is a run from its twins. -/
theorem of_twin {t : State} (tells : Tells m s es a s') (twin : s.Twin t) : Tells m t es a s' := by
  obtain ⟨e, l, rfl⟩ := twin
  refine ⟨tells.functions, ?_, ?_⟩
  · rintro t ⟨e', l', rfl⟩
    exact tells.finished _ ⟨e', l', rfl⟩
  · rintro t ⟨e', l', rfl⟩
    exact tells.halted _ ⟨e', l', rfl⟩

/-- A look at the surroundings. -/
theorem read {f : State → Check α} (same : ∀ e l, f { s with engine := e, log := l } = f s)
    (tells : Tells (f s) s es a s') : Tells (get >>= f) s es a s' := by
  refine congr ?_ tells
  rintro t ⟨e, l, rfl⟩
  rw [bind_ok (get_run _), same]

/-- A change of the surroundings. -/
theorem of_modify {f : State → State}
    (same : ∀ e l, f { s with engine := e, log := l } = { f s with engine := e, log := l })
    (functions : (f s).functions = s.functions) : Tells (modify f) s [] () (f s) := by
  refine silent functions ?_
  rintro t ⟨e, l, rfl⟩
  exact ⟨l, by rw [modify_run, same]⟩

theorem modifySymbols (f : SymbolTable → SymbolTable) (s : State) :
    Tells (modifySymbols f) s [] () { s with symbols := f s.symbols } :=
  of_modify (fun _ _ => rfl) rfl

/-- What is undone on the way out is undone wherever the step ends. -/
theorem ensuring {f : State → State} (tells : Tells m s es a s') (untold : Untold f) :
    Tells (ensuring m f) s es a (f s') := by
  obtain ⟨twinned, functions⟩ := untold
  have engine : ∀ t : State, (f t).engine = t.engine := by
    intro t
    exact (congrArg State.engine (twinned t t.engine t.log :) :)
  refine ⟨by rw [functions, tells.functions], fun t twin quiet => ?_, fun t twin stop fatal => ?_⟩
  · obtain ⟨l, run⟩ := tells.finished t twin quiet
    refine ⟨l, ?_⟩
    unfold Check.ensuring
    rw [run, ← twinned]
  · obtain ⟨t', run, recorded, listed⟩ := tells.halted t twin stop fatal
    refine ⟨f t', ?_, by rw [engine, recorded], by rw [functions, listed]⟩
    unfold Check.ensuring
    rw [run]

/-! A step between two changes of the surroundings. -/

section Surroundings

variable {m : Check Unit}

theorem inScope {mode : EntryMode}
    (tells : Tells m { s with symbols := s.symbols.enter mode } es () s') :
    Tells (inScope mode m) s es () { s' with symbols := s'.symbols.leave } := by
  refine .bind (.of_modify (fun _ _ => rfl) rfl) ?_
  exact tells.ensuring ⟨fun _ _ _ => rfl, fun _ => rfl⟩

theorem inLoop (tells : Tells m { s with loopDepth := s.loopDepth + 1 } es () s') :
    Tells (inLoop m) s es () { s' with loopDepth := s'.loopDepth - 1 } := by
  refine .bind (.of_modify (fun _ _ => rfl) rfl) ?_
  exact tells.ensuring ⟨fun _ _ _ => rfl, fun _ => rfl⟩

theorem inUncertainty (tells : Tells m { s with uncertainDepth := s.uncertainDepth + 1 } es () s') :
    Tells (inUncertainty m) s es () { s' with uncertainDepth := s'.uncertainDepth - 1 } := by
  refine .bind (.of_modify (fun _ _ => rfl) rfl) ?_
  exact tells.ensuring ⟨fun _ _ _ => rfl, fun _ => rfl⟩

theorem inFunction {f : Function}
    (tells : Tells m { s with currentFunction := some f, loopDepth := 0 } es () s') :
    Tells (inFunction f m) s es ()
      { s' with currentFunction := none, loopDepth := s.loopDepth } := by
  refine .read (fun _ _ => rfl) (.bind (.of_modify (fun _ _ => rfl) rfl) ?_)
  exact tells.ensuring ⟨fun _ _ _ => rfl, fun _ => rfl⟩

end Surroundings

theorem debug (message : String) (s : State) : Tells (debug message) s [] () s := by
  refine silent rfl ?_
  rintro t ⟨e, l, rfl⟩
  exact ⟨l.debug message, rfl⟩

theorem fatal (pos : Pos) (p : Problem) (s : State) :
    Tells (fatal pos p) s [.report (.fatal pos p)] () s := by
  refine ⟨(List.append_nil _).symm, ?_, ?_⟩
  · rintro t ⟨e, l, rfl⟩ quiet
    have collect : e.policy ≠ .stop := by
      intro stop
      exact Bool.noConfusion (quiet stop _ (List.mem_singleton_self _))
    rw [fatal_run, if_neg collect]
    exact ⟨_, rfl⟩
  · rintro t ⟨e, l, rfl⟩ stop -
    rw [fatal_run, if_pos stop]
    exact ⟨_, rfl, rfl, (List.append_nil _).symm⟩

theorem error (pos : Pos) (p : Problem) (s : State) :
    Tells (error pos p) s [.report (.error pos p)] () s := by
  refine mild rfl (List.append_nil _).symm ?_
  rintro t ⟨e, l, rfl⟩
  exact ⟨l, rfl⟩

theorem warn (pos : Pos) (p : Problem) (s : State) :
    Tells (warn pos p) s [.warning pos p] () s := by
  refine mild rfl (List.append_nil _).symm ?_
  rintro t ⟨e, l, rfl⟩
  exact ⟨_, rfl⟩

/-- A function that passes is told of. -/
theorem list (f : Function) (s : State) :
    Tells (modify fun s : State => { s with functions := s.functions ++ [f] }) s [.listed f] ()
      { s with functions := s.functions ++ [f] } := by
  refine mild rfl rfl ?_
  rintro t ⟨e, l, rfl⟩
  exact ⟨l, rfl⟩

theorem makeAll (rs : List Report) (s : State) : Tells (makeAll rs) s (rs.map .report) () s := by
  induction rs with
  | nil => exact pure () s
  | cons r rs ih =>
      cases r with
      | fatal pos p => exact (fatal pos p s).bind ih
      | error pos p => exact (error pos p s).bind ih

/-- A step always makes the same reports, as far as they are recorded. -/
theorem exists_report {s₁ s₂ : State} {es' : List Event} {b : α} (tells : Tells m s es a s₁)
    (tells' : Tells m s es' b s₂) {r : Report} (member : r ∈ Event.reports es) :
    ∃ r' ∈ Event.reports es', r.diagnostic "" = r'.diagnostic "" := by
  have twin : s.Twin s.unreported := ⟨_, s.log, rfl⟩
  obtain ⟨l, run⟩ := tells.finished s.unreported twin Policy.noConfusion
  obtain ⟨l', run'⟩ := tells'.finished s.unreported twin Policy.noConfusion
  rw [run] at run'
  have same := congrArg State.engine (EStateM.Result.ok.inj run').2
  have fails := r.fails_diagnostic ""
  have recorded := ((Event.gains s.unreported.engine es).failures _ fails).mpr
    (.inr ⟨r, member, rfl⟩)
  rw [show Event.recordAll _ es = _ from same] at recorded
  rcases ((Event.gains s.unreported.engine es').failures _ fails).mp recorded with none | found
  · cases none
  · exact found

end Tells

/-- What is asked in a state leads back to the state. -/
theorem Question.tells {Q : Pos → Prop} {owed : Prop} {admits : α → Prop} {m : Check α}
    (question : Question Q owed admits m) (s : State) :
    ∃ rs a, Accounted Q owed (admits a) rs ∧ Tells m s (rs.map .report) a s := by
  obtain ⟨rs, a, accounted, same⟩ := question s.symbols
  have tells : Tells (Check.makeAll rs >>= fun _ => Pure.pure a) s _ a s :=
    (Tells.makeAll rs s).bind (Tells.pure a s)
  rw [List.append_nil] at tells
  have run : ∀ t, s.Twin t → m t = (Check.makeAll rs >>= fun _ => Pure.pure a) t := by
    rintro t ⟨e, l, rfl⟩
    exact same _ rfl
  exact ⟨rs, a, accounted, tells.congr run⟩

/-- A step that only reads tells of the reports that the symbol table makes it report. -/
theorem ReadsTable.tells {m : Check α} (reads : ReadsTable m) (s : State) :
    ∃ (rs : List Report) (a : α), Tells m s (rs.map .report) a s := by
  obtain ⟨rs, a, -, tells⟩ := (reads.question False).tells s
  exact ⟨rs, a, tells⟩

/-- What a step that only reads gives under a policy, it gives when all is collected. -/
theorem ReadsTable.collecting {m : Check α} (reads : ReadsTable m) {s s' : State} {a : α}
    (run : m s = .ok a s') : ∃ s'', m s.unreported = .ok a s'' := by
  obtain ⟨rs, b, tells⟩ := reads.tells s
  have twin : s.Twin s := ⟨s.engine, s.log, rfl⟩
  have quiet : s.engine.policy = .stop → ∀ e ∈ rs.map Event.report, e.isFatal = false := by
    intro stop e member
    rw [Bool.eq_false_iff]
    intro fatal
    obtain ⟨t, halted, -⟩ := tells.halted s twin stop ⟨e, member, fatal⟩
    rw [run] at halted
    cases halted
  obtain ⟨l, finished⟩ := tells.finished s twin quiet
  rw [run] at finished
  cases finished
  obtain ⟨l', collected⟩ := tells.finished s.unreported ⟨_, s.log, rfl⟩ Policy.noConfusion
  exact ⟨_, collected⟩

end Check

open Check

namespace Program

/-- The check of a program that gets to its end. -/
theorem checked_of_ok {program : Program} {s s' : State}
    (run : Stmt.checkAll program s = .ok () s') : program.checked s = s' := by
  have guarded : guarded (Stmt.checkAll program) s = .ok (some ()) s' := by
    simp only [guarded, run]
  unfold checked check
  rw [bind_ok guarded]
  rfl

/-- The check of a program that is halted: only a line of the log follows. -/
theorem checked_of_halt {program : Program} {s s' : State} {h : Halt}
    (run : Stmt.checkAll program s = .error h s') : ∃ log, program.checked s = { s' with log } := by
  unfold checked check
  cases h with
  | fatal =>
      have halted : guarded (Stmt.checkAll program) s = .ok none s' := by
        simp only [guarded, run]
      rw [bind_ok halted]
      exact ⟨_, rfl⟩
  | foreign message =>
      have halted : guarded (Stmt.checkAll program) s = .error (.foreign message) s' := by
        simp only [guarded, run]
      rw [bind_error halted]
      exact ⟨s'.log, rfl⟩

/-- The check of a program records what is heard of the events that it tells. -/
theorem checked_of_tells {program : Program} {s s' : State} {es : List Event}
    (tells : Tells (Stmt.checkAll program) s es () s') :
    (program.checked s).engine =
        Event.recordAll s.engine (Event.heard s.engine.policy es) ∧
      (program.checked s).functions =
        s.functions ++ Event.functions (Event.heard s.engine.policy es) := by
  have twin : s.Twin s := ⟨s.engine, s.log, rfl⟩
  by_cases halts : s.engine.policy = .stop ∧ ∃ e ∈ es, e.isFatal = true
  · obtain ⟨t, run, engine, functions⟩ := tells.halted s twin halts.1 halts.2
    obtain ⟨log, same⟩ := checked_of_halt run
    rw [same, halts.1]
    exact ⟨engine, functions⟩
  · have quiet : s.engine.policy = .stop → ∀ e ∈ es, e.isFatal = false := by
      intro stop e member
      rw [Bool.eq_false_iff]
      exact fun fatal => halts ⟨stop, e, member, fatal⟩
    have all : Event.heard s.engine.policy es = es := by
      cases policy : s.engine.policy with
      | collect => rfl
      | stop => exact Event.throughFatal_of_none (quiet policy)
    obtain ⟨l, run⟩ := tells.finished s twin quiet
    rw [checked_of_ok run, all]
    exact ⟨rfl, tells.functions⟩

end Program

end Samo
