import Samo.Check.Program
import Samo.Proofs.Arguments
import Samo.Proofs.Engine
import Samo.Proofs.Run
import Samo.Proofs.Within

/-!
# Steps that only read the symbol table

Most of a check asks questions: what an expression is, whether a return gives what it should. Such
a step leaves the state alone but for what it reports, and the symbol table alone decides what that
is. `ReadsTable` says so: the step makes a fixed list of reports and gives a fixed answer. What a
policy does with the reports is then a matter of that list (`makeAll`), not of the step.

The reports of a question stand in what is asked about, and an error that is not followed by a fatal
report shows in the answer (`Question`).
-/

namespace Samo

namespace Check

variable {α β : Type} {m : Check α} {s s' : State} {a : α} {start : Pos}

/-! ## Running steps -/

/-- What follows an action in any case does not change whether it gets to its end. -/
theorem ensuring_eq_ok_iff {after : State → State} :
    ensuring m after s = .ok a s' ↔ ∃ s₁, m s = .ok a s₁ ∧ s' = after s₁ := by
  unfold ensuring
  cases m s with
  | ok b s₁ =>
      constructor
      · intro run
        cases run
        exact ⟨s₁, rfl, rfl⟩
      · rintro ⟨s₂, run, rfl⟩
        cases run
        rfl
  | error h s₁ =>
      constructor
      · intro run
        cases run
      · rintro ⟨s₂, run, -⟩
        cases run

@[simp] theorem modify_run (f : State → State) (s : State) :
    (modify f : Check Unit) s = .ok () (f s) := rfl

@[simp] theorem symbols_run (s : State) : symbols s = .ok s.symbols s := rfl

@[simp] theorem modifySymbols_run (f : SymbolTable → SymbolTable) (s : State) :
    modifySymbols f s = .ok () { s with symbols := f s.symbols } := rfl

@[simp] theorem lookup_run (name : String) (s : State) :
    lookup name s = .ok (s.symbols.lookup name) s := rfl

/-! ## Reports -/

/-- A report that something failed. -/
inductive Report where
  | fatal (pos : Pos) (problem : Problem)
  | error (pos : Pos) (problem : Problem)

/-- Makes a report. -/
def Report.make : Report → Check Unit
  | .fatal pos problem => Check.fatal pos problem
  | .error pos problem => Check.error pos problem

/-- Where the report points to. -/
def Report.pos : Report → Pos
  | .fatal pos _ | .error pos _ => pos

/-- Whether a report ends a run under the policy `stop`. -/
def Report.isFatal : Report → Bool
  | .fatal .. => true
  | .error .. => false

/--
Reports that are accounted for. They point to a part of a text, and if there is an error among them,
or one is owed from before, then there is a fatal report too, or the error is admitted.
-/
structure Accounted (Q : Pos → Prop) (owed admitted : Prop) (rs : List Report) : Prop where
  placed : ∀ r ∈ rs, Q r.pos
  owned : (owed ∨ ∃ r ∈ rs, r.isFatal = false) → (∃ r ∈ rs, r.isFatal = true) ∨ admitted

namespace Accounted

variable {Q : Pos → Prop} {owed admitted : Prop}

theorem nil (settled : owed → admitted) : Accounted Q owed admitted [] := by
  refine ⟨List.forall_mem_nil _, ?_⟩
  rintro (owes | ⟨r, member, -⟩)
  · exact .inr (settled owes)
  · cases member

/-- What the first reports admit is owed by the ones behind them. -/
theorem append {middle : Prop} {rs rs' : List Report} (first : Accounted Q owed middle rs)
    (second : Accounted Q middle admitted rs') : Accounted Q owed admitted (rs ++ rs') := by
  have settle : middle ∨ (∃ r ∈ rs', r.isFatal = false) →
      (∃ r ∈ rs ++ rs', r.isFatal = true) ∨ admitted := by
    intro owes
    rcases second.owned owes with ⟨r, member, fatal⟩ | done
    · exact .inl ⟨r, List.mem_append_right _ member, fatal⟩
    · exact .inr done
  have start : owed ∨ (∃ r ∈ rs, r.isFatal = false) →
      (∃ r ∈ rs ++ rs', r.isFatal = true) ∨ admitted := by
    intro owes
    rcases first.owned owes with ⟨r, member, fatal⟩ | between
    · exact .inl ⟨r, List.mem_append_left _ member, fatal⟩
    · exact settle (.inl between)
  refine ⟨fun r member => ?_, ?_⟩
  · rcases List.mem_append.mp member with left | right
    · exact first.placed r left
    · exact second.placed r right
  · rintro (owes | ⟨r, member, mild⟩)
    · exact start (.inl owes)
    · rcases List.mem_append.mp member with left | right
      · exact start (.inr ⟨r, left, mild⟩)
      · exact settle (.inr ⟨r, right, mild⟩)

/-- What is owed may be passed on. -/
theorem carry {rs : List Report} (accounted : Accounted Q False admitted rs) (owed : Prop) :
    Accounted Q owed (owed ∨ admitted) rs := by
  refine ⟨accounted.placed, ?_⟩
  rintro (owes | mild)
  · exact .inr (.inl owes)
  · exact (accounted.owned (.inr mild)).imp_right .inr

end Accounted

/-- Makes reports in order. -/
def makeAll : List Report → Check Unit
  | [] => return ()
  | r :: rs => do
    r.make
    makeAll rs

/-- The state after a fatal report. -/
def State.afterFatal (s : State) (pos : Pos) (p : Problem) : State :=
  { s with
    log := s.log.debug s!"fatal at {pos.text}: {p.message}"
    engine := s.engine.record .fatal pos p.message }

/-- The state after an error. -/
def State.afterError (s : State) (pos : Pos) (p : Problem) : State :=
  { s with engine := s.engine.record .error pos p.message }

/-- The engine records a fatal report first, then it looks at its policy. -/
theorem reporter_fatal_run (pos : Pos) (message : String) (e : Engine) :
    Reporter.fatal pos message e =
      if (e.record .fatal pos message).policy = .stop then
        .error .fatal (e.record .fatal pos message)
      else .ok () (e.record .fatal pos message) := by
  show (if (e.record .fatal pos message).policy = .stop then (throw .fatal : Reporter Unit)
    else pure ()) (e.record .fatal pos message) = _
  split <;> rfl

/-- Whether a fatal report is the end depends on the policy alone. -/
theorem fatal_run (pos : Pos) (p : Problem) (s : State) :
    fatal pos p s = if s.engine.policy = .stop then .error .fatal (s.afterFatal pos p)
      else .ok () (s.afterFatal pos p) := by
  show reporting (Reporter.fatal pos p.message) _ = _
  unfold reporting
  rw [reporter_fatal_run, Engine.policy_record]
  by_cases stop : s.engine.policy = .stop
  · rw [if_pos stop, if_pos stop]
    rfl
  · rw [if_neg stop, if_neg stop]
    rfl

theorem error_run (pos : Pos) (p : Problem) (s : State) :
    error pos p s = .ok () (s.afterError pos p) := rfl

/-- Under the policy `stop` a step that gets to its end has made no fatal report. -/
theorem fatal_ne_ok {pos : Pos} {p : Problem} (stop : s.engine.policy = .stop) :
    fatal pos p s ≠ .ok () s' := by
  rw [fatal_run, if_pos stop]
  intro run
  cases run

theorem fatal_bind_ne_ok {pos : Pos} {p : Problem} {f : Unit → Check α}
    (stop : s.engine.policy = .stop) : (fatal pos p >>= f) s ≠ .ok a s' := by
  intro run
  obtain ⟨u, s₁, fatal, -⟩ := bind_eq_ok_iff.mp run
  exact fatal_ne_ok stop fatal

/-! ## Steps that only read -/

/--
A step that only reads the symbol table: the table decides which reports it makes and what it gives,
and nothing but the reports changes the state.
-/
def ReadsTable (m : Check α) : Prop :=
  ∀ t, ∃ reports a, ∀ s : State, s.symbols = t → m s = (makeAll reports >>= fun _ => pure a) s

/-- Whether some reports end a run. -/
def Halts (rs : List Report) (e : Engine) : Prop := e.policy = .stop ∧ rs.any Report.isFatal

instance (rs : List Report) (e : Engine) : Decidable (Halts rs e) :=
  inferInstanceAs (Decidable (_ ∧ _))

/--
What some reports make of an engine and a log: they get to their end or halt, whatever the rest of
the state is, and leave that rest alone.
-/
structure Made (rs : List Report) (e e' : Engine) (l l' : Log) : Prop where
  policy : e'.policy = e.policy
  run : ∀ s : State, s.engine = e → s.log = l →
    makeAll rs s = if Halts rs e then .error .fatal { s with engine := e', log := l' }
      else .ok () { s with engine := e', log := l' }

/-- Reports look at the engine and the log alone. -/
theorem made_exists (rs : List Report) (e : Engine) (l : Log) : ∃ e' l', Made rs e e' l l' := by
  induction rs generalizing e l with
  | nil =>
      refine ⟨e, l, rfl, ?_⟩
      rintro s rfl rfl
      rw [if_neg (fun halts => nomatch halts.2)]
      rfl
  | cons r rs ih =>
      cases r with
      | error pos p =>
          have same : (e.record .error pos p.message).policy = e.policy := Engine.policy_record ..
          obtain ⟨e', l', made⟩ := ih (e.record .error pos p.message) l
          refine ⟨e', l', made.policy.trans same, ?_⟩
          rintro s rfl rfl
          show (error pos p >>= fun _ => makeAll rs) s = _
          rw [bind_ok (error_run pos p s), made.run (s.afterError pos p) rfl rfl]
          simp only [Halts, same, List.any_cons, Report.isFatal, Bool.false_or]
          rfl
      | fatal pos p =>
          have same : (e.record .fatal pos p.message).policy = e.policy := Engine.policy_record ..
          -- a fatal report ends the run under `stop`, so the others are not made
          by_cases stop : e.policy = .stop
          · refine ⟨e.record .fatal pos p.message, l.debug s!"fatal at {pos.text}: {p.message}",
              same, ?_⟩
            rintro s rfl rfl
            have run := fatal_run pos p s
            rw [if_pos stop] at run
            show (fatal pos p >>= fun _ => makeAll rs) s = _
            rw [bind_error run, if_pos ⟨stop, rfl⟩]
            rfl
          · obtain ⟨e', l', made⟩ := ih (e.record .fatal pos p.message)
              (l.debug s!"fatal at {pos.text}: {p.message}")
            refine ⟨e', l', made.policy.trans same, ?_⟩
            rintro s rfl rfl
            have run := fatal_run pos p s
            rw [if_neg stop] at run
            show (fatal pos p >>= fun _ => makeAll rs) s = _
            rw [bind_ok run, made.run (s.afterFatal pos p) rfl rfl,
              if_neg (fun halts => stop (same.symm.trans halts.1)),
              if_neg (fun halts => stop halts.1)]
            rfl

/-- States that no step that only reads can tell apart, but for what was reported before. -/
structure State.Alike (s r : State) : Prop where
  table : s.symbols = r.symbols
  policy : s.engine.policy = r.engine.policy

namespace State.Alike

theorem symm {r : State} (alike : s.Alike r) : r.Alike s := ⟨alike.table.symm, alike.policy.symm⟩

theorem trans {r q : State} (first : s.Alike r) (second : r.Alike q) : s.Alike q :=
  ⟨first.table.trans second.table, first.policy.trans second.policy⟩

end State.Alike

theorem makeAll_append (rs rs' : List Report) :
    makeAll (rs ++ rs') = makeAll rs >>= fun _ => makeAll rs' := by
  induction rs with
  | nil => simp [makeAll]
  | cons r rs ih => simp [makeAll, ih, bind_assoc]

/-- Two steps in a row, each of which makes some reports and gives an answer. The first one leaves
everything but the engine and the log to the second one. -/
theorem bind_reports {f : α → Check β} {rs rs' : List Report} {b : β}
    (first : m s = (makeAll rs >>= fun _ => pure a) s)
    (second : ∀ e l, f a { s with engine := e, log := l } =
      (makeAll rs' >>= fun _ => pure b) { s with engine := e, log := l }) :
    (m >>= f) s = (makeAll (rs ++ rs') >>= fun _ => pure b) s := by
  rw [makeAll_append, bind_assoc]
  obtain ⟨e', l', made⟩ := made_exists rs s.engine s.log
  have run := made.run s rfl rfl
  by_cases halts : Halts rs s.engine
  · rw [if_pos halts] at run
    have halted : m s = .error .fatal { s with engine := e', log := l' } := by
      rw [first, bind_error run]
    rw [bind_error halted, bind_error run]
  · rw [if_neg halts] at run
    have given : m s = .ok a { s with engine := e', log := l' } := by
      rw [first, bind_ok run, pure_run]
    rw [bind_ok given, bind_ok run]
    exact second e' l'

/--
A step that only reads the symbol table, whose reports are accounted for: they point to a part of a
text, and an error without a fatal report is admitted by the answer.
-/
def Question (Q : Pos → Prop) (owed : Prop) (admits : α → Prop) (m : Check α) : Prop :=
  ∀ t, ∃ reports a, Accounted Q owed (admits a) reports ∧
    ∀ s : State, s.symbols = t → m s = (makeAll reports >>= fun _ => pure a) s

theorem Question.readsTable {Q : Pos → Prop} {owed : Prop} {admits : α → Prop}
    (question : Question Q owed admits m) : ReadsTable m := by
  intro t
  obtain ⟨reports, a, -, same⟩ := question t
  exact ⟨reports, a, same⟩

/-- Where nothing is asked of the reports, they are accounted for. -/
theorem ReadsTable.question (reads : ReadsTable m) (owed : Prop) :
    Question (fun _ => True) owed (fun _ => True) m := by
  intro t
  obtain ⟨reports, a, same⟩ := reads t
  exact ⟨reports, a, ⟨fun _ _ => trivial, fun _ => .inr trivial⟩, same⟩

/-- Where a jump starts, its end leads back to. -/
theorem restore_of_goTo? {t t' : SymbolTable} (jump : t.goTo? start = some t') :
    t'.restore = t := by
  unfold SymbolTable.goTo? at jump
  simp only [Option.bind_eq_bind, Option.bind_eq_some_iff, Option.some.injEq] at jump
  obtain ⟨c, -, scope, -, rfl⟩ := jump
  rfl

namespace Question

variable {Q : Pos → Prop} {owed : Prop} {admits : α → Prop} {admits' : β → Prop}

theorem pure (settled : owed → admits a) : Question Q owed admits (pure a) :=
  fun _ => ⟨[], a, .nil settled, fun _ _ => rfl⟩

/-- A step in two parts. What the first part admits is owed by the second one. -/
theorem bind {f : α → Check β} (first : Question Q owed admits m)
    (second : ∀ a, Question Q (admits a) admits' (f a)) : Question Q owed admits' (m >>= f) := by
  intro t
  obtain ⟨rs, a, accounted, first⟩ := first t
  obtain ⟨rs', b, accounted', second⟩ := second a t
  refine ⟨rs ++ rs', b, accounted.append accounted', fun s here => ?_⟩
  exact bind_reports (first s here) fun e l => second { s with engine := e, log := l } here

theorem ite {c : Prop} [Decidable c] {m m' : Check α} (left : c → Question Q owed admits m)
    (right : ¬ c → Question Q owed admits m') : Question Q owed admits (if c then m else m') := by
  split
  · next yes => exact left yes
  · next no => exact right no

/-- Less may be owed. -/
theorem weaken {owed' : Prop} (question : Question Q owed admits m) (less : owed' → owed) :
    Question Q owed' admits m := by
  intro t
  obtain ⟨rs, a, accounted, same⟩ := question t
  exact ⟨rs, a, ⟨accounted.placed, fun owes => accounted.owned (owes.imp_left less)⟩, same⟩

/-- More may be admitted. -/
theorem imp {admits' : α → Prop} (question : Question Q owed admits m)
    (more : ∀ a, admits a → admits' a) : Question Q owed admits' m := by
  intro t
  obtain ⟨rs, a, accounted, same⟩ := question t
  exact ⟨rs, a, ⟨accounted.placed, fun owes => (accounted.owned owes).imp_right (more a)⟩, same⟩

/-- What is owed may be passed on. -/
theorem carry (question : Question Q False admits m) (owed : Prop) :
    Question Q owed (fun a => owed ∨ admits a) m := by
  intro t
  obtain ⟨rs, a, accounted, same⟩ := question t
  exact ⟨rs, a, accounted.carry owed, same⟩

theorem fatal {pos : Pos} (here : Q pos) (p : Problem) {admits : Unit → Prop} :
    Question Q owed admits (fatal pos p) := by
  refine fun _ => ⟨[.fatal pos p], (), ⟨?_, fun _ => .inl ?_⟩, fun _ _ => ?_⟩
  · exact fun r member => List.mem_singleton.mp member ▸ here
  · exact ⟨_, List.mem_singleton_self _, rfl⟩
  · simp [makeAll, Report.make]

/-- A fatal report settles what is owed, whatever the answer. -/
theorem fatal_bind {pos : Pos} (here : Q pos) (p : Problem) {f : Unit → Check α}
    (second : Question Q False admits (f ())) : Question Q owed admits (Check.fatal pos p >>= f) :=
  (fatal here p).bind fun _ => second

theorem error {pos : Pos} (here : Q pos) (p : Problem) :
    Question Q owed (fun _ => True) (error pos p) := by
  refine fun _ => ⟨[.error pos p], (), ⟨?_, fun _ => .inr trivial⟩, fun _ _ => ?_⟩
  · exact fun r member => List.mem_singleton.mp member ▸ here
  · simp [makeAll, Report.make]

/-- An error is admitted by the answer that follows it. -/
theorem error_bind {pos : Pos} (here : Q pos) (p : Problem) {a : α} (admitted : admits a) :
    Question Q owed admits (Check.error pos p >>= fun _ => Pure.pure a) :=
  (error here p).bind fun _ => pure fun _ => admitted

theorem symbols : Question Q owed (fun _ => owed) symbols :=
  fun t => ⟨[], t, .nil id, fun s here => by rw [symbols_run, here]; rfl⟩

theorem lookup (name : String) : Question Q owed (fun _ => owed) (lookup name) := by
  unfold Check.lookup
  exact symbols.bind fun t => pure id

theorem checkConstant {e : Expr} (within : e.Within Q) :
    Question Q False (fun _ => False) (checkConstant e) := by
  unfold Check.checkConstant
  split
  · exact pure id
  · exact fatal_bind within.start _ (pure id)

/-- A step that only reads may be run in the scope of a block: the table is as it was afterwards. -/
theorem inScopeOf (start : Pos) (question : Question Q owed admits m) :
    Question Q owed admits (inScopeOf start m) := by
  intro t
  cases jump : t.goTo? start with
  | none =>
      obtain ⟨rs, a, accounted, reads⟩ := question t
      refine ⟨rs, a, accounted, fun s here => ?_⟩
      rw [← reads s here]
      simp only [Check.inScopeOf, here, jump]
  | some t' =>
      obtain ⟨rs, a, accounted, reads⟩ := question t'
      refine ⟨rs, a, accounted, fun s here => ?_⟩
      obtain ⟨e', l', made⟩ := made_exists rs s.engine s.log
      have inner := made.run { s with symbols := t' } rfl rfl
      have outer := made.run s rfl rfl
      have there := reads { s with symbols := t' } rfl
      subst here
      by_cases halts : Halts rs s.engine
      · rw [if_pos halts] at inner outer
        rw [bind_error inner] at there
        rw [bind_error outer]
        simp only [Check.inScopeOf, jump, ensuring, there, restore_of_goTo? jump]
      · rw [if_neg halts] at inner outer
        rw [bind_ok inner, pure_run] at there
        rw [bind_ok outer, pure_run]
        simp only [Check.inScopeOf, jump, ensuring, there, restore_of_goTo? jump]

end Question

namespace ReadsTable

theorem pure (a : α) : ReadsTable (pure a : Check α) :=
  fun _ => ⟨[], a, fun _ _ => rfl⟩

/-- A step in two parts reads only if both parts do. -/
theorem bind {f : α → Check β} (first : ReadsTable m) (second : ∀ a, ReadsTable (f a)) :
    ReadsTable (m >>= f) :=
  ((first.question True).bind fun a => (second a).question True).readsTable

theorem fatal (pos : Pos) (p : Problem) : ReadsTable (fatal pos p) :=
  fun _ => ⟨[.fatal pos p], (), fun _ _ => by simp [makeAll, Report.make]⟩

theorem checkConstant (e : Expr) : ReadsTable (checkConstant e) :=
  (Question.checkConstant e.within_anywhere).readsTable

/-- What a step that only reads leaves alone: everything but the engine and the log. -/
theorem kept (reads : ReadsTable m) {s s' : State} {a : α} (run : m s = .ok a s') :
    s'.engine.policy = s.engine.policy ∧ s' = { s with engine := s'.engine, log := s'.log } := by
  obtain ⟨rs, b, same⟩ := reads s.symbols
  obtain ⟨e', l', made⟩ := made_exists rs s.engine s.log
  have whole := made.run s rfl rfl
  rw [same s rfl] at run
  by_cases halts : Halts rs s.engine
  · rw [if_pos halts] at whole
    rw [bind_error whole] at run
    cases run
  · rw [if_neg halts] at whole
    rw [bind_ok whole, pure_run] at run
    cases run
    exact ⟨made.policy, rfl⟩

/-- A step that only reads changes nothing that such a step could notice. -/
theorem alike (reads : ReadsTable m) {s s' : State} {a : α} (run : m s = .ok a s') :
    s.Alike s' := by
  obtain ⟨policy, same⟩ := reads.kept run
  exact ⟨by rw [same], policy.symm⟩

/-- A step that only reads does the same in states that are alike. -/
theorem transfer (reads : ReadsTable m) {s s' r : State} {a : α} (run : m s = .ok a s')
    (same : r.Alike s) : ∃ r', m r = .ok a r' := by
  obtain ⟨rs, b, made⟩ := reads s.symbols
  obtain ⟨e, l, there⟩ := made_exists rs s.engine s.log
  obtain ⟨e', l', here⟩ := made_exists rs r.engine r.log
  have there := there.run s rfl rfl
  have here := here.run r rfl rfl
  rw [made s rfl] at run
  by_cases halts : Halts rs s.engine
  · rw [if_pos halts] at there
    rw [bind_error there] at run
    cases run
  · rw [if_neg halts] at there
    rw [bind_ok there, pure_run] at run
    cases run
    have halts' : ¬ Halts rs r.engine := fun halts' => halts ⟨same.policy ▸ halts'.1, halts'.2⟩
    rw [if_neg halts'] at here
    exact ⟨_, by rw [made r same.table, bind_ok here, pure_run]⟩

end ReadsTable

/-- The state in which a step in the scope of a block starts. -/
def State.entering (s : State) (start : Pos) : State :=
  { s with symbols := (s.symbols.goTo? start).getD s.symbols }

theorem State.Alike.entering {r : State} (alike : s.Alike r) (start : Pos) :
    (s.entering start).Alike (r.entering start) := by
  refine ⟨?_, alike.policy⟩
  simp only [State.entering, alike.table]

theorem inScopeOf_ok (run : inScopeOf start m s = .ok a s') :
    ∃ s₁, m (s.entering start) = .ok a s₁ := by
  unfold State.entering
  cases jump : s.symbols.goTo? start with
  | none =>
      simp only [inScopeOf, jump] at run
      exact ⟨s', run⟩
  | some t =>
      simp only [inScopeOf, jump] at run
      obtain ⟨s₁, inner, -⟩ := ensuring_eq_ok_iff.mp run
      exact ⟨s₁, inner⟩

theorem inScopeOf_of_ok {s₁ : State} (run : m (s.entering start) = .ok a s₁) :
    ∃ s', inScopeOf start m s = .ok a s' := by
  unfold State.entering at run
  cases jump : s.symbols.goTo? start with
  | none =>
      rw [jump] at run
      simp only [inScopeOf, jump]
      exact ⟨s₁, run⟩
  | some t =>
      rw [jump] at run
      simp only [inScopeOf, jump]
      exact ⟨_, ensuring_eq_ok_iff.mpr ⟨s₁, run, rfl⟩⟩

end Check

end Samo
