import Samo.Proofs.Firsts
import Samo.Proofs.Step

/-!
# Keeping the books

An `Activity` is anything that can be done with an engine: reports, changes of the file, and calls
that are guarded, that crash, or whose crashes someone else takes care of. What it comes to, its
`Account`, can be told without an engine. The engine records the same: each diagnostic at the place
of its first report (`Firsts`), with the counts and the failure that follow from that.
-/

namespace Samo

/-! ## Activities -/

/-- What may be done with an engine. -/
inductive Activity where
  | idle
  | fatal (pos : Pos) (message : String)
  | error (pos : Pos) (message : String)
  | warning (pos : Pos) (message : String)
  | inFile (file : String)
  | crash (message : String)
  | guarded (inner : Activity)
  | rescued (inner : Activity)
  | andThen (first second : Activity)
deriving Repr

namespace Activity

/-- Takes whatever halts an action. -/
def rescue (action : Reporter Unit) : Reporter Unit := fun e =>
  match action e with
  | .ok _ e => .ok () e
  | .error _ e => .ok () e

/-- Does it. A crash is not raised by the engine, and a guard passes it on. -/
def run : Activity → Reporter Unit
  | idle => pure ()
  | fatal pos message => Reporter.fatal pos message
  | error pos message => Reporter.error pos message
  | warning pos message => Reporter.warning pos message
  | inFile file => modify fun e => { e with file }
  | crash message => throw (.foreign message)
  | guarded inner => do let _ ← Samo.guarded inner.run
  | rescued inner => rescue inner.run
  | andThen first second => do first.run; second.run

end Activity

/-- What an activity comes to: its reports, the file it leaves set, and why it ended early. -/
structure Account where
  reports : List Diagnostic
  file : String
  halt? : Option Halt

/-- How a run with this account ends. -/
def Account.ending (account : Account) (e : Engine) : EStateM.Result Halt Engine Unit :=
  match account.halt? with
  | none => .ok () e
  | some halt => .error halt e

/-- The account of an activity, told without an engine: every report carries the file set last. -/
def Activity.account (policy : Policy) : Activity → String → Account
  | idle, file => ⟨[], file, none⟩
  | fatal pos message, file =>
    ⟨[⟨.fatal, message, pos, file⟩], file, if policy = .stop then some .fatal else none⟩
  | error pos message, file => ⟨[⟨.error, message, pos, file⟩], file, none⟩
  | warning pos message, file => ⟨[⟨.warning, message, pos, file⟩], file, none⟩
  | inFile file, _ => ⟨[], file, none⟩
  | crash message, file => ⟨[], file, some (.foreign message)⟩
  | guarded inner, file =>
    let account := inner.account policy file
    { account with halt? := account.halt?.filter (· ≠ .fatal) }
  | rescued inner, file => { inner.account policy file with halt? := none }
  | andThen first second, file =>
    let account := first.account policy file
    match account.halt? with
    | some _ => account
    | none =>
      let others := second.account policy account.file
      { others with reports := account.reports ++ others.reports }

/-! ## What the engine keeps -/

namespace Engine

/-- The engine records these reports, and its counts are right. -/
structure Records (e : Engine) (reports : List Diagnostic) : Prop where
  first : Firsts reports e.diagnostics
  counted : e.Counted

/-- One report. -/
theorem Records.record {e : Engine} {reports : List Diagnostic} (records : e.Records reports)
    (severity : Severity) (pos : Pos) (message : String) :
    (e.record severity pos message).Records
      (reports ++ [⟨severity, message, pos, e.file⟩]) := by
  refine ⟨?_, records.counted.record severity pos message⟩
  rw [record_eq]
  split
  · next known => exact records.first.again known
  · next new => exact records.first.add new

end Engine

/-- An engine is left as an account says, on top of what it had recorded before. -/
structure Account.Booked (account : Account) (history : List Diagnostic) (e e' : Engine) :
    Prop where
  records : e'.Records (history ++ account.reports)
  file : e'.file = account.file
  policy : e'.policy = e.policy

namespace Account.Booked

variable {history : List Diagnostic} {e e' : Engine}

/-- Nothing is reported. -/
theorem none (records : e.Records history) (halt? : Option Halt) :
    Booked ⟨[], e.file, halt?⟩ history e e :=
  ⟨by rwa [List.append_nil], rfl, rfl⟩

/-- One report. -/
theorem one (records : e.Records history) (severity : Severity) (pos : Pos) (message : String)
    (halt? : Option Halt) :
    Booked ⟨[⟨severity, message, pos, e.file⟩], e.file, halt?⟩ history e
      (e.record severity pos message) :=
  ⟨records.record severity pos message, e.file_record severity pos message,
    e.policy_record severity pos message⟩

/-- How it ended does not matter. -/
theorem ended {account : Account} (booked : account.Booked history e e') (halt? : Option Halt) :
    { account with halt? }.Booked history e e' :=
  ⟨booked.records, booked.file, booked.policy⟩

end Account.Booked

/-- Every run of an activity goes by its account. -/
theorem Activity.run_booked (a : Activity) {history : List Diagnostic} {e : Engine}
    (records : e.Records history) :
    ∃ e', a.run e = (a.account e.policy e.file).ending e' ∧
      (a.account e.policy e.file).Booked history e e' := by
  induction a generalizing history e with
  | idle => exact ⟨e, rfl, .none records _⟩
  | fatal pos message =>
      -- a report that is not recorded again halts all the same
      refine ⟨e.record .fatal pos message, ?_, .one records .fatal pos message _⟩
      rw [run, Check.reporter_fatal_run, Engine.policy_record, account, Account.ending]
      split <;> rfl
  | error pos message => exact ⟨_, rfl, .one records .error pos message _⟩
  | warning pos message => exact ⟨_, rfl, .one records .warning pos message _⟩
  | inFile file =>
      refine ⟨{ e with file }, rfl, ?_, rfl, rfl⟩
      rw [account, List.append_nil]
      exact ⟨records.first, ⟨records.counted.fatals, records.counted.errors,
        records.counted.warnings⟩⟩
  | crash message => exact ⟨e, rfl, .none records _⟩
  | guarded inner ih =>
      obtain ⟨e', ran, booked⟩ := ih records
      refine ⟨e', ?_, booked.ended _⟩
      -- of the two ways to halt a guard takes one and passes on the other
      show (Samo.guarded inner.run >>= fun _ => pure ()) e = _
      rw [account]
      unfold Account.ending at ran ⊢
      cases halted : (inner.account e.policy e.file).halt? with
      | none =>
          rw [halted] at ran
          rw [bind_ok (show Samo.guarded inner.run e = .ok (some ()) e' by rw [Samo.guarded, ran])]
          rfl
      | some halt =>
          rw [halted] at ran
          cases halt with
          | fatal =>
              rw [bind_ok (show Samo.guarded inner.run e = .ok none e' by rw [Samo.guarded, ran])]
              rfl
          | foreign message =>
              rw [bind_error (show Samo.guarded inner.run e = .error (.foreign message) e' by
                rw [Samo.guarded, ran])]
              rfl
  | rescued inner ih =>
      obtain ⟨e', ran, booked⟩ := ih records
      refine ⟨e', ?_, booked.ended _⟩
      rw [run, rescue, ran, Account.ending]
      cases (inner.account e.policy e.file).halt? <;> rfl
  | andThen first second ih ih' =>
      obtain ⟨e₁, ran, booked⟩ := ih records
      show ∃ e', (first.run >>= fun _ => second.run) e = _ ∧ _
      rw [account]
      cases halted : (first.account e.policy e.file).halt? with
      | some halt =>
          rw [Account.ending, halted] at ran
          refine ⟨e₁, ?_, booked⟩
          rw [bind_error ran, Account.ending]
          dsimp only
          rw [halted]
      | none =>
          rw [Account.ending, halted] at ran
          rw [bind_ok ran]
          -- what the first one reported belongs to the history of the second one
          obtain ⟨e₂, ran', booked'⟩ := ih' booked.records
          rw [booked.policy, booked.file] at ran' booked'
          refine ⟨e₂, ran', ?_, booked'.file, booked'.policy.trans booked.policy⟩
          rw [← List.append_assoc]
          exact booked'.records

/-! ## Counts and failures -/

namespace Engine

variable {e : Engine} {reports : List Diagnostic}

/-- Fatal reports and errors are counted together. -/
theorem failures_eq (counted : e.Counted) :
    e.failures = e.diagnostics.countP fun d => d.severity = .fatal ∨ d.severity = .error := by
  rw [failures, counted.fatals, counted.errors]
  induction e.diagnostics with
  | nil => rfl
  | cons d ds ih =>
      rw [List.countP_cons, List.countP_cons, List.countP_cons, ← ih]
      cases d.severity <;> simp <;> omega

/-- A failure lists the fatal reports and then the errors, each in the order of the reports. -/
theorem Records.failure (records : e.Records reports) {f : Failure} (failed : e.failure? = some f) :
    f.diagnostics.Nodup ∧ ∃ fatals errors, f.diagnostics = fatals ++ errors ∧
      Firsts (reports.filter (·.severity = .fatal)) fatals ∧
      Firsts (reports.filter (·.severity = .error)) errors := by
  unfold failure? at failed
  split at failed
  · cases failed
    refine ⟨?_, _, _, rfl, records.first.filter _, records.first.filter _⟩
    refine List.nodup_append.mpr ⟨records.first.once.filter _, records.first.once.filter _, ?_⟩
    rintro d member d' member' rfl
    have fatal := (List.mem_filter.mp member).2
    have error := (List.mem_filter.mp member').2
    simp_all
  · cases failed

end Engine

/--
The engine keeps the books. Whatever is done with a new engine, it ends as the account says, and
wherever it is cut short, the engine has recorded every diagnostic that was reported, once, at the
place of its first report. Its counts are the numbers of the entries. It gives a failure exactly if
there is a fatal entry or an error, and the failure lists just these once each, first the fatal ones
and then the errors, in the order of the reports.
-/
theorem engine_bookkeeping (policy : Policy) (a : Activity) :
    ∃ e, a.run { policy } = (a.account policy "").ending e ∧
      e.file = (a.account policy "").file ∧
      Firsts (a.account policy "").reports e.diagnostics ∧
      e.fatals = e.diagnostics.countP (·.severity = .fatal) ∧
      e.failures =
        e.diagnostics.countP (fun d => d.severity = .fatal ∨ d.severity = .error) ∧
      e.warnings = e.diagnostics.countP (·.severity = .warning) ∧
      (e.failure? = none ↔
        ∀ d ∈ e.diagnostics, d.severity ≠ .fatal ∧ d.severity ≠ .error) ∧
      ∀ f, e.failure? = some f → f.diagnostics.Nodup ∧
        ∃ fatals errors, f.diagnostics = fatals ++ errors ∧
          Firsts ((a.account policy "").reports.filter (·.severity = .fatal)) fatals ∧
          Firsts ((a.account policy "").reports.filter (·.severity = .error)) errors := by
  have empty : ({ policy } : Engine).Records [] := ⟨.nil, ⟨rfl, rfl, rfl⟩⟩
  obtain ⟨e, run, booked⟩ := a.run_booked empty
  have records : e.Records (a.account policy "").reports := booked.records
  exact ⟨e, run, booked.file, records.first, records.counted.fatals,
    Engine.failures_eq records.counted, records.counted.warnings,
    Engine.failure?_eq_none_iff records.counted, fun f failed => records.failure failed⟩

end Samo
