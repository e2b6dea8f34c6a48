import Samo.Proofs.Nodes
import Samo.Proofs.Recovery
import Samo.Proofs.Words

/-!
# No syntax error slips through

Every error that is reported while a text is read leaves a bad statement in the tree, and nothing
else does. A check does not look at the errors, but it visits every statement and refuses a bad one.
So a text with an error is never accepted.
-/

namespace Samo

open Check

/-- Before the first token only its flaw is reported. -/
theorem Cursor.clean_ofText (text : List Char) : (Cursor.ofText text).Clean := by
  refine ⟨ends_ofText text, ?_, ?_⟩
  · intro t member
    rw [ofText, rest_look] at member
    obtain ⟨member, visible⟩ := List.mem_filter.mp member
    rcases tokensFrom_isWord .start text t member with word | hidden | flawed
    · exact .inl word
    · rw [hidden] at visible
      cases visible
    · exact .inr flawed
  · rw [ofText, errors_look, pending_look]
    rfl

namespace Parser

theorem recovering_total (topLevel : Bool) (p : Parser Stmt) (c : Cursor) :
    ∃ s c', recovering topLevel p c = .ok s c' := by
  unfold recovering
  cases p c with
  | ok s c' => exact ⟨s, c', rfl⟩
  | error e c' => exact ⟨_, _, rfl⟩

theorem itemsUntil_total {α : Type} (stop : Kind → Bool) {item : Parser α}
    (total : ∀ c, ∃ a c', item c = .ok a c') (n : Nat) (c : Cursor) :
    ∃ as c', itemsUntil stop item n c = .ok as c' := by
  induction n generalizing c with
  | zero => exact ⟨[], c, rfl⟩
  | succ n ih =>
      unfold itemsUntil
      rw [bind_ok (peekKind_run c)]
      split
      · exact ⟨[], c, rfl⟩
      · obtain ⟨a, c₁, first⟩ := total c
        obtain ⟨as, c₂, others⟩ := ih c₁
        rw [bind_ok first, bind_ok others]
        exact ⟨a :: as, c₂, rfl⟩

/-- Reading a program always gets to its end. -/
theorem program_total (c : Cursor) : ∃ program c', Parser.program c = .ok program c' := by
  unfold Parser.program
  rw [bind_ok (remaining_run c)]
  exact itemsUntil_total _ (recovering_total true _) _ c

/-- Nothing is reported when an expression is all there is. -/
theorem wholeExpr_ok {c c' : Cursor} {e : Expr} (clean : c.Clean)
    (run : wholeExpr c = .ok e c') : c'.errors = [] := by
  obtain ⟨e', c₁, read, more⟩ := bind_eq_ok_iff.mp run
  obtain ⟨t, c₂, ended, last⟩ := bind_eq_ok_iff.mp more
  obtain ⟨rfl, rfl⟩ := pure_eq_ok_iff.mp last
  obtain ⟨takes, -⟩ := SpellsAt.expr c e' c₁ clean read
  unfold expect at ended
  rw [bind_ok (peek_run c₁)] at ended
  by_cases front : c₁.front.kind = .endOfFile
  · rw [if_pos front] at ended
    cases ended
    rw [Cursor.next, takes.clean.rest_eq_nil front]
    exact takes.clean.errors_eq_nil front
  · rw [if_neg front] at ended
    exact absurd ended fail_ne_ok

end Parser

/-- A text has no errors exactly if it is a grammatical program, and else there is a bad statement in
what was read. -/
theorem parse_cases (text : List Char) :
    ((parse text).2 = [] ∧ (parse text).1.Grammatical ∧
        (Cursor.ofText text).lexemes = (parse text).1.lexemes) ∨
      (parse text).2 ≠ [] ∧ HasBad (parse text).1.nodes := by
  obtain ⟨program, c, run⟩ := Parser.program_total (.ofText text)
  unfold parse
  rw [run]
  rcases Parser.program_ok (Cursor.clean_ofText text) run with ⟨split, right, none⟩ | spoiled
  · exact .inl ⟨none, right, split⟩
  · exact .inr spoiled

/-- A bad statement is never accepted. -/
theorem Program.Accepted.not_hasBad {program : Program} {o : Options} {file : String}
    {builtins : Registry} {log : Log}
    (accepted : program.Accepted (o.initialState file builtins log)) : ¬ HasBad program.nodes := by
  rintro ⟨pos, fault, member⟩
  cases Program.found member with
  | stmt located =>
      obtain ⟨s, s', fs, visit⟩ := accepted.visits _ located
      have run := visit.run
      rw [Stmt.check] at run
      exact fatal_ne_ok visit.standing.stop run
  | expr located part inside => exact Expr.not_hasBad _ ⟨pos, fault, inside⟩

/-- A check that can start gives what it leaves behind. -/
theorem Options.checkProgram_run {o : Options} {file : String} {program : Program} {log : Log}
    {builtins : Registry} (library : Registry.ofLibrary o.library = .ok builtins) :
    let s := program.checked (o.initialState file builtins log)
    ((o.checkProgram file program).run log).1 = .ok ⟨file, s.symbols, s.functions, s.engine⟩ := by
  unfold checkProgram
  rw [library]
  simp only [StateT.run_bind, StateT.run_get, pure_bind, StateT.run_set]
  split <;> rfl

/-- No check can start if the library does not register. -/
theorem Options.checkProgram_refused {o : Options} {e : RegistryError}
    (library : Registry.ofLibrary o.library = .error e) (file : String) (program : Program)
    (log : Log) : ((o.checkProgram file program).run log).1 = .error (.builtins e) := by
  unfold checkProgram
  rw [library]
  rfl

/-- A text can be checked if the library registers. -/
theorem Options.checkText_run {o : Options} {builtins : Registry}
    (library : Registry.ofLibrary o.library = .ok builtins) (name : String) (source : Bytes)
    (log : Log) : ∃ log',
      let c := (parse (Text.decode source)).1.checked (o.initialState name builtins log')
      ((o.checkText name source).run log).1 = .ok ⟨name, c.symbols, c.functions, c.engine⟩ := by
  let log' := logSyntaxErrors name (parse (Text.decode source)).2
    (log.debug s!"Checking source string {name} ({source.length} bytes)")
  exact ⟨log', checkProgram_run library⟩

theorem Options.checkText_refused {o : Options} {e : RegistryError}
    (library : Registry.ofLibrary o.library = .error e) (name : String) (source : Bytes)
    (log : Log) : ((o.checkText name source).run log).1 = .error (.builtins e) :=
  checkProgram_refused library name (parse (Text.decode source)).1
    (logSyntaxErrors name (parse (Text.decode source)).2
      (log.debug s!"Checking source string {name} ({source.length} bytes)"))

/-- The verdict on a text is what the check of its program leaves behind. -/
theorem Options.checkBytes_ok {o : Options} {file : String} {source : Bytes} {log : Log}
    {v : Verdict} (checked : ((o.checkBytes file source).run log).1 = .ok v) :
    ∃ builtins log' s,
      (parse (Text.decode source)).1.checked (o.initialState file builtins log') = s ∧
        v = ⟨file, s.symbols, s.functions, s.engine⟩ := by
  let log' := logSyntaxErrors file (parse (Text.decode source)).2 log
  have steps : (o.checkBytes file source).run log =
      (o.checkProgram file (parse (Text.decode source)).1).run log' := rfl
  rw [steps] at checked
  cases library : Registry.ofLibrary o.library with
  | error e =>
      rw [checkProgram_refused library] at checked
      cases checked
  | ok builtins =>
      rw [checkProgram_run library] at checked
      cases checked
      exact ⟨builtins, log', _, rfl, rfl⟩

/-- A text that is checked without a complaint is an accepted program. -/
theorem Options.checkText_accepted {o : Options} {name : String} {source : Bytes} {log : Log}
    (fine : Outcome.complaint? ((o.checkText name source).run log).1 = none) :
    ∃ builtins log', (parse (Text.decode source)).1.Accepted (o.initialState name builtins log') := by
  cases library : Registry.ofLibrary o.library with
  | error e =>
      rw [checkText_refused library] at fine
      cases fine
  | ok builtins =>
      obtain ⟨log', checked⟩ := checkText_run library name source log
      rw [checked] at fine
      refine ⟨builtins, log', ?_⟩
      unfold Program.Accepted
      simpa [Outcome.complaint?, Verdict.complaint?] using fine

/--
No syntax error slips through. A text has errors exactly if a bad statement stands somewhere in the
tree that is read from it. If it has one, a check complains, whatever its options are. An expression
is read exactly if there is no error in it.
-/
theorem syntax_errors_surface :
    (∀ text, (parse text).2 ≠ [] ↔
      ∃ pos fault, Node.stmt (.bad pos fault) ∈ (parse text).1.nodes) ∧
    (∀ (o : Options) (name : String) (source : Bytes) (log : Log),
      (parse (Text.decode source)).2 ≠ [] →
        (Outcome.complaint? ((o.checkText name source).run log).1).isSome = true) ∧
    (∀ text, (parseExpr text).1 = none ↔ (parseExpr text).2 ≠ []) := by
  refine ⟨fun text => ?_, fun o name source log reported => ?_, fun text => ?_⟩
  · rcases parse_cases text with ⟨none, right, -⟩ | ⟨some, bad⟩
    · exact ⟨fun reported => absurd none reported, fun bad => absurd bad right.not_hasBad⟩
    · exact ⟨fun _ => bad, fun _ => some⟩
  · rw [Option.isSome_iff_ne_none]
    intro fine
    obtain ⟨builtins, log', accepted⟩ := Options.checkText_accepted fine
    rcases parse_cases (Text.decode source) with ⟨none, -⟩ | ⟨-, bad⟩
    · exact reported none
    · exact accepted.not_hasBad bad
  · unfold parseExpr
    cases run : Parser.wholeExpr (.ofText text) with
    | error e c =>
        have reported : (c.report e).errors ≠ [] :=
          List.append_ne_nil_of_right_ne_nil _ (List.cons_ne_nil _ _)
        exact ⟨fun _ => reported, fun _ => rfl⟩
    | ok e c =>
        have none := Parser.wholeExpr_ok (Cursor.clean_ofText text) run
        exact ⟨nofun, fun reported => absurd none reported⟩

/-- An assignment in a block, of a sign that the language does not have. -/
def straySign : Bytes := "int n = 2; \x7b n = $ \x7d".toUTF8.toList

/-- The sign is reported as a token and as an expression, and a check complains under each policy. -/
theorem straySign_complaint :
    (parse (Text.decode straySign)).2.length = 2 ∧
      ∀ policy, (Outcome.complaint? ((Options.checkText { policy } "main" straySign).run
        (Options.newLog { policy })).1).isSome = true := by
  have two : (parse (Text.decode straySign)).2.length = 2 := by decide +kernel
  have reported : (parse (Text.decode straySign)).2 ≠ [] := by
    intro none
    rw [none] at two
    cases two
  exact ⟨two, fun policy => syntax_errors_surface.2.1 _ _ _ _ reported⟩

end Samo
