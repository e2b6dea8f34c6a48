import Samo.Proofs.Answers
import Samo.Proofs.Prolonging
import Samo.Proofs.Verdicts
import Samo.Session

/-!
# Entries of a session

A program that passes its check goes on to pass it as far as it goes: when an entry is added, all
failures stand in the entry, also if the entry is a new arm or an alternative of the last statement
before it (`Program.Prolongs.scripted`). So nothing is rejected without a word
(`Session.entries_fail_loudly`).
-/

namespace Samo

open Check

variable {Q : Pos → Prop}

/-! ## Programs that go on -/

/-- What goes on is of the same form. -/
theorem Stmt.Prolongs.isCompound {s s' : Stmt} (prolongs : s.Prolongs Q s') :
    s'.isCompound = s.isCompound := by
  cases prolongs <;> rfl

theorem Stmt.Prolongs.declaresOrReturns {s s' : Stmt} (prolongs : s.Prolongs Q s') :
    s'.declaresOrReturns = s.declaresOrReturns := by
  cases prolongs <;> rfl

/-- What follows an arm without failures may be replaced. -/
theorem Check.Silent.arm {p : Pos} {cond : Expr} {body : Block} {m : Check Unit} {s : State}
    (silent : Silent (do checkCondition p .ifWord cond; body.check .new; m) s)
    (rest : Scripted (fun _ => True) False m) :
    ∃ s₁, Silent m s₁ ∧ ∀ m' : Check Unit, ScriptedAt Q False m' s₁ →
      ScriptedAt Q False (do checkCondition p .ifWord cond; body.check .new; m') s := by
  have inner := body.check_scripted_anywhere .new
  obtain ⟨_, condition, silent⟩ := silent.asked
    (.checkCondition trivial .ifWord cond.within_anywhere) fun _ => inner.bind fun _ => rest
  obtain ⟨_, s₁, block, silent⟩ := silent.parts inner fun _ => rest
  exact ⟨s₁, silent, fun m' scripted => .after condition (.after block scripted)⟩

/-- When arms without failures go on, all failures are in the new part. -/
theorem Branches.Prolongs.scripted {rest rest' : Branches} (prolongs : rest.Prolongs Q rest')
    {s : State} (silent : Silent rest.check s) : ScriptedAt Q False rest'.check s := by
  induction prolongs generalizing s with
  | refl => exact silent.scriptedAt
  | @done rest' within => exact rest'.check_scripted (rest'.within_of_spots within) s
  | @elseIf p cond body rest rest' _ ih =>
      rw [Branches.check] at silent ⊢
      obtain ⟨s₁, silent, replaced⟩ := silent.arm rest.check_scripted_anywhere
      exact replaced _ (ih silent)

/-- The check of what is run by chance, if it makes no reports. -/
theorem Stmt.silent_maybe {p : Pos} {e : Expr} {body : Stmt} {s : State}
    (silent : Silent (Stmt.maybe p e body).check s) :
    Plays (checkProbability p body.isCompound e) s [] () s ∧ body.declaresOrReturns = false ∧
      Silent body.check s.uncertain := by
  rw [Stmt.check] at silent
  have inner := Scripted.inUncertainty body.check_scripted_anywhere
  have probable : Question (fun _ => True) False (fun _ => False) (checkProbable p body) :=
    .checkProbable trivial body
  obtain ⟨_, probability, silent⟩ := silent.asked
    (.checkProbability trivial body.isCompound e.within_anywhere) fun _ =>
      (Scripted.of_question probable).bind fun _ => inner
  obtain ⟨_, chance, silent⟩ := silent.asked probable fun _ => inner
  exact ⟨probability, feasible_of_silent chance, silent.inUncertainty body.check_scripted_anywhere⟩

/-- When a statement without failures goes on, all failures are in the new part. -/
theorem Stmt.Prolongs.scripted {stmt stmt' : Stmt} (prolongs : stmt.Prolongs Q stmt') {s : State}
    (silent : Silent stmt.check s) : ScriptedAt Q False stmt'.check s := by
  induction prolongs generalizing s with
  | refl => exact silent.scriptedAt
  | @branch p cond body rest rest' arms =>
      rw [Stmt.check] at silent ⊢
      obtain ⟨s₁, silent, replaced⟩ := silent.arm rest.check_scripted_anywhere
      exact replaced _ (arms.scripted silent)
  | @maybe p e body body' more ih =>
      obtain ⟨probability, feasible, silent⟩ := Stmt.silent_maybe silent
      rw [← more.declaresOrReturns] at feasible
      rw [Stmt.check, more.isCompound]
      exact .after probability (.after (checkProbable_plays p feasible s) (ih silent).inUncertainty)
  | @alternative p e body body' op other more there within ih =>
      obtain ⟨probability, feasible, silent⟩ := Stmt.silent_maybe silent
      rw [← more.declaresOrReturns] at feasible
      rw [Stmt.check, more.isCompound]
      obtain ⟨rs, accounted, alternatives⟩ := checkAlternatives_plays feasible there s
      obtain ⟨rs', _, s', accounted', plays⟩ := ((ih silent).bind fun _ =>
        other.check_scripted (other.within_of_spots within)).inUncertainty
      exact .after probability
        ⟨rs ++ rs', (), s', accounted.append accounted', alternatives.bind plays⟩
  | @otherwise p e body op other other' more ih =>
      have both := body.check_scripted_anywhere.bind fun _ => other.check_scripted_anywhere
      have same : checkAlternatives p body op other' = checkAlternatives p body op other := by
        unfold checkAlternatives
        rw [more.declaresOrReturns]
      have alternatives : Scripted (fun _ => True) False (checkAlternatives p body op other) :=
        Scripted.declaring.checkAlternatives (.warn _ _) trivial trivial body other
      rw [Stmt.check] at silent ⊢
      obtain ⟨_, probability, silent⟩ := silent.asked
        (.checkProbability trivial body.isCompound e.within_anywhere) fun _ =>
          alternatives.bind fun _ => both.inUncertainty
      obtain ⟨_, s₁, alternatives, silent⟩ := silent.parts
        alternatives fun _ => both.inUncertainty
      obtain ⟨_, s₂, first, silent⟩ := (silent.inUncertainty both).parts
        body.check_scripted_anywhere fun _ => other.check_scripted_anywhere
      have inner : ScriptedAt Q False (do body.check; other'.check) s₁.uncertain :=
        .after first (ih silent)
      rw [same]
      exact .after probability (.after alternatives inner.inUncertainty)

/-- When a program without failures goes on, all failures are in the new part. -/
theorem Program.Prolongs.scripted {program program' : Program}
    (prolongs : program.Prolongs Q program') {s : State}
    (silent : Silent (Stmt.checkAll program) s) :
    ScriptedAt Q False (Stmt.checkAll program') s := by
  have placed : ∀ news : List Stmt, (∀ s ∈ news, ∀ p ∈ s.spots, Q p) →
      Scripted Q False (Stmt.checkAll news) := fun news within =>
    Stmt.checkAll_scripted news fun stmt member => stmt.within_of_spots (within stmt member)
  induction prolongs generalizing s with
  | @fresh news within => exact placed news within s
  | @lost _ pos fault news here within =>
      refine placed _ (List.forall_mem_cons.mpr ⟨?_, within⟩) s
      rw [Stmt.spots]
      exact List.forall_mem_singleton.mpr here
  | @last stmt stmt' news more within =>
      rw [Stmt.checkAll] at silent ⊢
      obtain ⟨_, s₁, old, -⟩ := silent.parts stmt.check_scripted_anywhere fun _ =>
        Stmt.checkAll_scripted_anywhere []
      exact (more.scripted ⟨_, s₁, old⟩).bind fun _ => placed news within
  | @cons stmt ss ss' _ ih =>
      rw [Stmt.checkAll] at silent ⊢
      obtain ⟨_, s₁, old, silent⟩ := silent.parts stmt.check_scripted_anywhere fun _ =>
        Stmt.checkAll_scripted_anywhere ss
      exact .after old (ih silent)

/-- A program without failures has no bad statement. -/
theorem Stmt.not_bad_of_silent {program : Program} {s : State}
    (silent : Silent (Stmt.checkAll program) s) :
    ∀ stmt ∈ program, ∀ pos fault, stmt ≠ .bad pos fault := by
  induction program generalizing s with
  | nil => exact List.forall_mem_nil _
  | cons stmt ss ih =>
      rw [Stmt.checkAll] at silent
      obtain ⟨_, s₁, first, silent⟩ := silent.parts stmt.check_scripted_anywhere fun _ =>
        Stmt.checkAll_scripted_anywhere ss
      refine List.forall_mem_cons.mpr ⟨?_, ih silent⟩
      rintro pos fault rfl
      rw [Stmt.check] at first
      exact Silent.not_fatal _ _ s ⟨_, s₁, first⟩

namespace Session

/-! ## Sessions -/

/-- A session, and the entries it has accepted since it was last cleared. -/
inductive Reached (o : Options) : List Bytes → Session → Prop
  | start : Reached o [] (create o)
  | accepted {entries s entry shown s'} : Reached o entries s → s.eval entry = (true, shown, s') →
      Reached o (entries ++ [entry]) s'
  | rejected {entries s entry shown s'} : Reached o entries s → s.eval entry = (false, shown, s') →
      Reached o entries s'
  | cleared {entries s cs} : Reached o entries s → Command.ofText cs = .reset →
      Reached o [] (s.command cs).2.2
  | logged {entries s} (log : Log) : Reached o entries s → Reached o entries { s with log }

/-- What holds of a session after its entries. -/
structure Holds (builtins : Registry) (entries : List Bytes) (s : Session) : Prop where
  library : Registry.ofLibrary s.options.library = .ok builtins
  program : s.program = entries.flatMap (· ++ [Text.lineFeed])
  lines : s.lines = s.program.count Text.lineFeed
  passes : ∀ file log, Silent (Stmt.checkAll (parse (Text.decode s.program)).1)
    (s.options.initialState file builtins log)

/-- What the check of a program with an entry says. -/
structure Judged (builtins : Registry) (s : Session) (entry : Bytes) (verdict : Verdict) :
    Prop where
  checked : ((s.options.checkText "<repl>" (s.program ++ entry ++ [Text.lineFeed])).run s.log).1 =
    .ok verdict
  counted : verdict.engine.Counted
  below : ∀ d ∈ verdict.engine.diagnostics, d.Fails → (s.lines : Int) < d.pos.line
  loud : verdict.engine.hasFailed = true →
    ∃ d ∈ verdict.engine.diagnostics, d.severity = .fatal
  passes : verdict.engine.hasFailed = false → ∀ file log,
    Silent (Stmt.checkAll (parse (Text.decode (s.program ++ entry ++ [Text.lineFeed]))).1)
      (s.options.initialState file builtins log)

namespace Holds

variable {builtins : Registry} {entries : List Bytes} {s : Session}

theorem whole (holds : Holds builtins entries s) :
    s.program = [] ∨ ∃ lines, s.program = lines ++ [Text.lineFeed] := by
  rw [holds.program]
  rcases List.eq_nil_or_concat entries with rfl | ⟨before, entry, rfl⟩
  · exact .inl rfl
  · refine .inr ⟨before.flatMap (· ++ [Text.lineFeed]) ++ entry, ?_⟩
    simp

/-- Whatever an entry adds is below the lines of the program. -/
theorem prolongs (holds : Holds builtins entries s) (more : Bytes) :
    Program.Prolongs (fun pos => (s.lines : Int) < pos.line) (parse (Text.decode s.program)).1
      (parse (Text.decode (s.program ++ more))).1 := by
  have prolongs := parse_prolongs (Text.lines_decode holds.whole) (Text.decode more)
    (Stmt.not_bad_of_silent (holds.passes "" s.log))
  rw [Text.count_decode, ← holds.lines] at prolongs
  rw [Text.decode_append_of_lines holds.whole]
  exact prolongs

theorem judged (holds : Holds builtins entries s) (entry : Bytes) :
    ∃ verdict, Judged builtins s entry verdict := by
  obtain ⟨log, checked⟩ := Options.checkText_run holds.library "<repl>"
    (s.program ++ entry ++ [Text.lineFeed]) s.log
  obtain ⟨rs, _, s', accounted, plays⟩ :=
    (holds.prolongs (entry ++ [Text.lineFeed])).scripted (holds.passes "<repl>" log)
  rw [← List.append_assoc] at plays
  have records := Program.checked_records plays
  refine ⟨_, checked, records.counted, ?_, ?_, ?_⟩
  · intro d member fails
    obtain ⟨r, reported, rfl⟩ := records.failures d member fails
    rw [r.pos_diagnostic]
    exact accounted.placed r reported
  · exact records.loud_of_hasFailed accounted
  · intro passed file log
    obtain rfl := records.eq_nil_of_passed accounted passed
    obtain ⟨es, tells, none⟩ := plays
    exact ⟨_, s', es, tells.of_twin ⟨_, log, rfl⟩, none⟩

/-- The program passes when it is checked again. -/
theorem uncomplained (holds : Holds builtins entries s) (name : String) (log : Log) :
    Outcome.complaint? ((s.options.checkText name s.program).run log).1 = none := by
  obtain ⟨log', checked⟩ := Options.checkText_run holds.library name s.program log
  obtain ⟨_, s', plays⟩ := holds.passes name log'
  have passes := (Program.checked_records plays).passes
  rw [checked]
  simp [Outcome.complaint?, Verdict.complaint?, passes]

end Holds

/-! ## Steps of a session -/

theorem Judged.eval {builtins : Registry} {s : Session} {entry : Bytes} {verdict : Verdict}
    (judged : Judged builtins s entry verdict) : ∃ log, s.eval entry =
      let shown := listing (entryDiagnostics s.lines verdict.engine.diagnostics)
      let lines := s.lines + entry.count Text.lineFeed + 1
      if verdict.engine.hasFailed then (false, shown, { s with log })
      else
        (true, shown,
          { s with
            log, lines
            program := s.program ++ entry ++ [Text.lineFeed]
            last := some verdict }) := by
  have checked := judged.checked
  cases run : s.options.checkText "<repl>" (s.program ++ entry ++ [Text.lineFeed]) s.log with
  | mk outcome log =>
      simp only [StateT.run, run] at checked
      subst checked
      exact ⟨log, by simp only [Session.eval, run]⟩

namespace Holds

variable {builtins : Registry} {entries : List Bytes} {s : Session}

theorem silent_nothing (s : State) : Silent (Stmt.checkAll (parse (Text.decode [])).1) s := by
  have none : (parse (Text.decode [])).1 = [] := List.length_eq_zero_iff.mp (by decide +kernel)
  rw [none, Stmt.checkAll]
  exact ⟨(), s, (Tells.pure () s).plays⟩

theorem create {o : Options} (library : Registry.ofLibrary o.library = .ok builtins) :
    Holds builtins [] (.create o) :=
  ⟨library, rfl, rfl, fun _ _ => silent_nothing _⟩

theorem logged (holds : Holds builtins entries s) (log : Log) :
    Holds builtins entries { s with log } :=
  ⟨holds.library, holds.program, holds.lines, holds.passes⟩

theorem cleared (holds : Holds builtins entries s) :
    Holds builtins [] { s with program := [], lines := 0, last := none } :=
  ⟨holds.library, rfl, rfl, fun _ _ => silent_nothing _⟩

theorem accepted (holds : Holds builtins entries s) {entry : Bytes} {shown : String} {s' : Session}
    (run : s.eval entry = (true, shown, s')) : Holds builtins (entries ++ [entry]) s' := by
  obtain ⟨verdict, judged⟩ := holds.judged entry
  obtain ⟨log, eval⟩ := judged.eval
  rw [run] at eval
  by_cases failed : verdict.engine.hasFailed = true
  · rw [if_pos failed] at eval
    cases eval
  · rw [if_neg failed] at eval
    cases eval
    refine ⟨holds.library, ?_, ?_, judged.passes (Bool.eq_false_iff.mpr failed)⟩
    · simp [holds.program]
    · rw [List.count_append, List.count_append, ← holds.lines]
      rfl

theorem rejected (holds : Holds builtins entries s) {entry : Bytes} {shown : String} {s' : Session}
    (run : s.eval entry = (false, shown, s')) : Holds builtins entries s' := by
  obtain ⟨verdict, judged⟩ := holds.judged entry
  obtain ⟨log, eval⟩ := judged.eval
  rw [run] at eval
  by_cases failed : verdict.engine.hasFailed = true
  · rw [if_pos failed] at eval
    cases eval
    exact holds.logged log
  · rw [if_neg failed] at eval
    cases eval

end Holds

/-- What holds at the start and is kept by each step holds of every session. -/
theorem Reached.holds {o : Options} {builtins : Registry}
    (library : Registry.ofLibrary o.library = .ok builtins) {entries : List Bytes} {s : Session}
    (reached : Reached o entries s) : Holds builtins entries s := by
  induction reached with
  | start => exact .create library
  | accepted _ run ih => exact ih.accepted run
  | rejected _ run ih => exact ih.rejected run
  | @cleared _ s cs _ reset ih =>
      unfold command
      rw [reset]
      exact ih.cleared
  | logged log _ ih => exact ih.logged log

end Session

/-- The diagnostic with lines counted from the start of an entry. -/
def Diagnostic.movedUp (lines : Nat) (d : Diagnostic) : Diagnostic :=
  { d with pos := { d.pos with line := d.pos.line - lines } }

theorem Session.mem_entryDiagnostics {lines : Nat} {ds : List Diagnostic} {d : Diagnostic}
    (member : d ∈ ds) (below : (lines : Int) < d.pos.line) :
    d.movedUp lines ∈ entryDiagnostics lines ds :=
  List.mem_map.mpr ⟨d, List.mem_filter.mpr ⟨member, decide_eq_true below⟩, rfl⟩

/--
Entries fail loudly and atomically. The program of a session is made of the entries that it has
accepted since it was last cleared, each on lines of its own, and it passes when checked again. An
entry is rejected exactly if the check of the program with the entry fails, and then nothing but
the log changes, and a fatal diagnostic is shown. Whatever makes a check fail is shown: it stands
below the lines of the program, even if the entry goes on with its last statement.
-/
theorem Session.entries_fail_loudly {o : Options} {builtins : Registry}
    (library : Registry.ofLibrary o.library = .ok builtins) {entries : List Bytes} {s : Session}
    (reached : Reached o entries s) :
    s.program = entries.flatMap (· ++ [Text.lineFeed]) ∧
      s.lines = s.program.count Text.lineFeed ∧
      (∀ name log, Outcome.complaint? ((s.options.checkText name s.program).run log).1 = none) ∧
      ∀ entry, ∃ verdict,
        ((s.options.checkText "<repl>" (s.program ++ entry ++ [Text.lineFeed])).run s.log).1 =
            .ok verdict ∧
          let shown := entryDiagnostics s.lines verdict.engine.diagnostics
          (s.eval entry).2.1 = listing shown ∧
          ((s.eval entry).1 = false ↔ ∃ d ∈ verdict.engine.diagnostics, d.Fails) ∧
          ((s.eval entry).1 = false → (∃ log, (s.eval entry).2.2 = { s with log }) ∧
            ∃ d ∈ shown, d.severity = .fatal) ∧
          ∀ d ∈ verdict.engine.diagnostics, d.Fails →
            (s.lines : Int) < d.pos.line ∧ d.movedUp s.lines ∈ shown := by
  have holds := reached.holds library
  refine ⟨holds.program, holds.lines, holds.uncomplained, fun entry => ?_⟩
  obtain ⟨verdict, judged⟩ := holds.judged entry
  obtain ⟨log, eval⟩ := judged.eval
  have all : ∀ d ∈ verdict.engine.diagnostics, d.Fails → (s.lines : Int) < d.pos.line ∧
      d.movedUp s.lines ∈ entryDiagnostics s.lines verdict.engine.diagnostics := by
    intro d member fails
    have below := judged.below d member fails
    exact ⟨below, mem_entryDiagnostics member below⟩
  refine ⟨verdict, judged.checked, ?_⟩
  by_cases failed : verdict.engine.hasFailed = true
  · rw [if_pos failed] at eval
    rw [eval]
    obtain ⟨d, member, fatal⟩ := judged.loud failed
    exact ⟨rfl, ⟨fun _ => ⟨d, member, .inl fatal⟩, fun _ => rfl⟩,
      fun _ => ⟨⟨log, rfl⟩, _, (all d member (.inl fatal)).2, fatal⟩, all⟩
  · rw [if_neg failed] at eval
    rw [eval]
    refine ⟨rfl, ⟨Bool.noConfusion, fun fails => ?_⟩, Bool.noConfusion, all⟩
    exact absurd ((Engine.hasFailed_iff judged.counted).mpr fails) failed

/-- An if statement after a declaration. -/
def lateBranch : Bytes := "boolie late = true;\nif (late) \x7b late = false; \x7d".toUTF8.toList

/-- Another arm, with a condition that is not declared. -/
def unknownArm : Bytes := "else if (early) \x7b \x7d".toUTF8.toList

/-- The arm belongs to the statement before it. It is rejected with a word, and the rest stays. -/
theorem unknownArm_rejected :
    let s := ((Session.create {}).eval lateBranch).2.2
    Registry.ofLibrary .standard = .ok .standard ∧ Session.Reached {} [lateBranch] s ∧
      s.lines = 2 ∧ (s.eval unknownArm).1 = false ∧
      (∃ log, (s.eval unknownArm).2.2 = { s with log }) ∧
      ∃ verdict : Verdict, (s.eval unknownArm).2.1 =
          Session.listing (Session.entryDiagnostics s.lines verdict.engine.diagnostics) ∧
        ∃ d ∈ Session.entryDiagnostics s.lines verdict.engine.diagnostics,
          d.severity = .fatal := by
  intro s
  have library : Registry.ofLibrary ({} : Options).library = .ok .standard := rfl
  have accepted : ((Session.create {}).eval lateBranch).1 = true := by decide +kernel
  have reached : Session.Reached {} [lateBranch] s := .accepted .start (Prod.ext accepted rfl)
  have lines : s.lines = 2 := by decide +kernel
  have rejected : (s.eval unknownArm).1 = false := by decide +kernel
  obtain ⟨-, -, -, entries⟩ := Session.entries_fail_loudly library reached
  obtain ⟨verdict, -, shown, -, kept, -⟩ := entries unknownArm
  exact ⟨rfl, reached, lines, rejected, (kept rejected).1, verdict, shown, (kept rejected).2⟩

end Samo
