import Samo.Proofs.Places
import Samo.Proofs.PolicyAgreement
import Samo.Proofs.Scopes
import Mathlib.Order.Defs.Unbundled

/-!
# What a step leaves behind

A step of a check may end anywhere, at its end or at a fatal report inside of it, and on the way out
of a block, a loop or a function something is undone. `Leaves R` relates the state in which a step
starts to the one it leaves behind, wherever it ends. Most steps leave the surroundings and the
current scope as they were (`State.Stays`). Statements do so too, but for the current scope if they
are halted (`State.Steady`).
-/

namespace Samo

namespace SymbolTable

/-! ## Tables with the same scopes and more -/

/-- The scopes of a table are in another one too, with the same parents. -/
def Keeps (t t' : SymbolTable) : Prop :=
  ∀ c s, t.scope? c = some s → ∃ s', t'.scope? c = some s' ∧ s'.parent = s.parent

namespace Keeps

variable {t t' : SymbolTable}

theorem of_rows (same : t'.rows = t.rows) : t.Keeps t' := by
  intro c s found
  refine ⟨s, ?_, rfl⟩
  rw [scope?, row, same]
  exact found

theorem trans {t₁ : SymbolTable} (first : t.Keeps t₁) (second : t₁.Keeps t') : t.Keeps t' := by
  intro c s found
  obtain ⟨s₁, found₁, parent₁⟩ := first c s found
  obtain ⟨s₂, found₂, parent₂⟩ := second c s₁ found₁
  exact ⟨s₂, found₂, parent₂.trans parent₁⟩

theorem insert (t : SymbolTable) (symbol : Symbol) : t.Keeps (t.insert symbol) := by
  unfold SymbolTable.insert insert?
  split
  · exact .of_rows rfl
  · intro c s found
    rw [Option.getD_some, scope?_modifyScope, found]
    split
    · exact ⟨s.add symbol, rfl, rfl⟩
    · exact ⟨s, rfl, rfl⟩

theorem addScope (t : SymbolTable) (new : Scope) : t.Keeps (t.addScope new) := by
  intro c s found
  refine ⟨s, ?_, rfl⟩
  unfold scope? row at found ⊢
  cases here : t.rows[c.depth]? with
  | none =>
      rw [here] at found
      cases found
  | some scopes =>
      rw [here, Option.getD_some] at found
      unfold SymbolTable.addScope
      split
      · rw [List.getElem?_append_left (List.getElem?_eq_some_iff.mp here).1, here]
        exact found
      · simp only [List.getElem?_modify, here]
        split
        · exact List.getElem?_append_left (List.getElem?_eq_some_iff.mp found).1 ▸ found
        · exact found

theorem enter (t : SymbolTable) (mode : EntryMode) : t.Keeps (t.enter mode) := by
  unfold SymbolTable.enter
  dsimp only
  split
  · exact .of_rows rfl
  · exact (addScope t _).trans (.of_rows rfl)

theorem leave (t : SymbolTable) : t.Keeps t.leave := by
  unfold SymbolTable.leave
  split
  · exact .of_rows rfl
  · exact .of_rows rfl

theorem register (t : SymbolTable) (p : Pos) : t.Keeps (t.register p) := by
  unfold SymbolTable.register
  split
  · exact .of_rows rfl
  · exact .of_rows rfl

end Keeps

end SymbolTable

namespace Check

variable {α β : Type}

/-! ## States before and after -/

/-- The surroundings are as they were: the frames to go back to, the loops and chances around, and
the function. The scopes of the table are still there. -/
structure State.Steady (s s' : State) : Prop where
  resume : s'.symbols.resume = s.symbols.resume
  loops : s'.loopDepth = s.loopDepth
  chances : s'.uncertainDepth = s.uncertainDepth
  function : s'.currentFunction = s.currentFunction
  scopes : s.symbols.Keeps s'.symbols

/-- The surroundings are as they were, and so is the current scope. -/
structure State.Stays (s s' : State) : Prop extends s.Steady s' where
  current : s'.symbols.current = s.symbols.current

/-- The table is as it was. -/
def State.SameTable (s s' : State) : Prop := s'.symbols = s.symbols

/-- There may be more reports and more log lines, and that is all. -/
def State.Untouched (s s' : State) : Prop := ∃ engine log, s' = { s with engine, log }

namespace State

instance : IsPreorder State Steady where
  refl _ := ⟨rfl, rfl, rfl, rfl, .of_rows rfl⟩
  trans _ _ _ first second :=
    ⟨second.resume.trans first.resume, second.loops.trans first.loops,
      second.chances.trans first.chances, second.function.trans first.function,
      first.scopes.trans second.scopes⟩

instance : IsPreorder State Stays where
  refl _ := ⟨Std.Refl.refl _, rfl⟩
  trans _ _ _ first second :=
    ⟨IsTrans.trans _ _ _ first.toSteady second.toSteady, second.current.trans first.current⟩

instance : IsPreorder State SameTable where
  refl _ := rfl
  trans _ _ _ first second := Eq.trans second first

instance : IsPreorder State Untouched where
  refl s := ⟨s.engine, s.log, rfl⟩
  trans := by
    rintro s - - ⟨engine, log, rfl⟩ ⟨engine', log', rfl⟩
    exact ⟨engine', log', rfl⟩

end State

/-- Wherever the step ends, the state it leaves behind is related to the one it starts in. -/
def Leaves (R : State → State → Prop) (m : Check α) : Prop := ∀ s, R s (stateOf (m s))

namespace Leaves

open State

section

variable {R : State → State → Prop}

theorem of_ok {m : Check α} {a : α} {s s' : State} (leaves : Leaves R m) (run : m s = .ok a s') :
    R s s' := by
  have related := leaves s
  rw [run] at related
  exact related

theorem get {f : State → Check α} (each : ∀ s, Leaves R (f s)) :
    Leaves R (MonadState.get >>= f) := by
  intro s
  rw [bind_ok (get_run s)]
  exact each s s

variable [IsPreorder State R]

theorem pure (a : α) : Leaves R (pure a : Check α) := fun s => Std.Refl.refl s

theorem bind_run {m : Check α} {f : α → Check β} {s : State} (first : R s (stateOf (m s)))
    (second : ∀ a s₁, m s = .ok a s₁ → R s₁ (stateOf (f a s₁))) : R s (stateOf ((m >>= f) s)) := by
  cases run : m s with
  | ok a s₁ =>
      rw [run] at first
      rw [bind_ok run]
      exact IsTrans.trans _ _ _ first (second a s₁ run)
  | error h s₁ =>
      rw [run] at first
      rw [bind_error run]
      exact first

theorem bind {m : Check α} {f : α → Check β} (first : Leaves R m) (second : ∀ a, Leaves R (f a)) :
    Leaves R (m >>= f) := fun s => bind_run (first s) fun a s₁ _ => second a s₁

end

end Leaves

/-! ## Steps that stay in the current scope -/

/-- A relation that holds when nothing changes but the reports and the log. -/
class Reporting (R : State → State → Prop) : Prop extends IsPreorder State R where
  aside : ∀ s engine log, R s { s with engine, log }

/-- A relation that also holds when a function is listed or a symbol declared. -/
class Lenient (R : State → State → Prop) : Prop extends Reporting R where
  list : ∀ s functions, R s { s with functions }
  insert : ∀ s symbol, R s { s with symbols := s.symbols.insert symbol }

namespace State

instance : Reporting SameTable where
  aside _ _ _ := rfl

instance : Reporting Untouched where
  aside _ engine log := ⟨engine, log, rfl⟩

instance : Lenient Stays where
  aside _ _ _ := ⟨⟨rfl, rfl, rfl, rfl, .of_rows rfl⟩, rfl⟩
  list _ _ := ⟨⟨rfl, rfl, rfl, rfl, .of_rows rfl⟩, rfl⟩
  insert s symbol := by
    have kept := SymbolTable.Keeps.insert s.symbols symbol
    have same : (s.symbols.insert symbol).resume = s.symbols.resume ∧
        (s.symbols.insert symbol).current = s.symbols.current := by
      unfold SymbolTable.insert SymbolTable.insert?
      split
      · exact ⟨rfl, rfl⟩
      · exact ⟨rfl, rfl⟩
    exact ⟨⟨same.1, rfl, rfl, rfl, kept⟩, same.2⟩

instance : Lenient Steady where
  aside s engine log := (Reporting.aside (R := Stays) s engine log).toSteady
  list s functions := (Lenient.list (R := Stays) s functions).toSteady
  insert s symbol := (Lenient.insert (R := Stays) s symbol).toSteady

end State

namespace Leaves

open State

section

variable {R : State → State → Prop} [Reporting R]

theorem fatal (pos : Pos) (p : Problem) : Leaves R (fatal pos p) := by
  intro s
  rw [fatal_run]
  split
  · exact Reporting.aside s _ _
  · exact Reporting.aside s _ _

theorem error (pos : Pos) (p : Problem) : Leaves R (error pos p) := fun s =>
  Reporting.aside s _ _

theorem warn (pos : Pos) (p : Problem) : Leaves R (warn pos p) := fun s =>
  Reporting.aside s _ _

theorem debug (message : String) : Leaves R (debug message) := fun s =>
  Reporting.aside s _ _

theorem makeAll (rs : List Report) : Leaves R (makeAll rs) := by
  induction rs with
  | nil => exact pure ()
  | cons r rs ih =>
      cases r with
      | fatal pos p => exact (fatal pos p).bind fun _ => ih
      | error pos p => exact (error pos p).bind fun _ => ih

theorem of_readsTable {m : Check α} (reads : ReadsTable m) : Leaves R m := by
  intro s
  obtain ⟨rs, a, same⟩ := reads s.symbols
  rw [same s rfl]
  exact (makeAll rs).bind (fun _ => pure a) s

end

section

variable {R : State → State → Prop} [Lenient R]

theorem insert (symbol : Symbol) : Leaves R (modifySymbols (·.insert symbol)) := fun s =>
  Lenient.insert s symbol

theorem declaring : Declaring (fun _ => True) (Leaves R) where
  ask question := of_readsTable question.readsTable
  bind := bind
  look _ each := get each
  insert := insert
  debug := debug

theorem declareParams (function : String) (ps : List Param) : Leaves R (declareParams function ps) :=
  declaring.declareParams function fun _ _ => ⟨trivial, trivial⟩

theorem checkAlternatives (pos : Pos) (body : Stmt) (otherwisePos : Pos) (alternative : Stmt) :
    Leaves R (checkAlternatives pos body otherwisePos alternative) :=
  declaring.checkAlternatives (warn _ _) trivial trivial body alternative

theorem endFunction (h : Header) (body : Block) (f : Function) : Leaves R (endFunction h body f) :=
  declaring.endFunction trivial body.within_anywhere f
    (of_readsTable (.checkReturns h.namePos h.result.ty body)) fun s => Lenient.list s _

end

/-! ## Steps that go elsewhere and come back -/

/-- What a step does between a change and its undoing, wherever it ends. -/
theorem surrounded {R : State → State → Prop} {before after : State → State} {m : Check Unit}
    (leaves : Leaves R m) {s : State} (back : ∀ s', R (before s) s' → R s (after s')) :
    R s (stateOf ((modify before >>= fun _ => ensuring m after) s)) := by
  rw [bind_ok (modify_run before s), ensuring]
  have inside := leaves (before s)
  cases run : m (before s) with
  | ok a s' =>
      rw [run] at inside
      exact back s' inside
  | error h s' =>
      rw [run] at inside
      exact back s' inside

end Leaves

/-- A relation that also holds when a scope is entered or left, and around loops, uncertainty and
functions. -/
class Balanced (R : State → State → Prop) : Prop extends Lenient R where
  enter : ∀ mode, Leaves R (modifySymbols (·.enter mode))
  leave : Leaves R (modifySymbols (·.leave))
  inLoop : ∀ m, Leaves R m → Leaves R (inLoop m)
  inUncertainty : ∀ m, Leaves R m → Leaves R (inUncertainty m)
  inFunction : ∀ f m s, Leaves R m → s.currentFunction = none → R s (stateOf (inFunction f m s))

namespace State.Steady

theorem enter (mode : EntryMode) : Leaves Steady (modifySymbols (·.enter mode)) := by
  intro s
  have resume : (s.symbols.enter mode).resume = s.symbols.resume := by
    unfold SymbolTable.enter SymbolTable.addScope
    dsimp only
    split
    · rfl
    · split
      · rfl
      · rfl
  exact ⟨resume, rfl, rfl, rfl, .enter s.symbols mode⟩

theorem leave : Leaves Steady (modifySymbols (·.leave)) := by
  intro s
  have resume : s.symbols.leave.resume = s.symbols.resume := by
    unfold SymbolTable.leave
    split
    · rfl
    · rfl
  exact ⟨resume, rfl, rfl, rfl, .leave s.symbols⟩

theorem register (start : Pos) : Leaves Steady (modifySymbols (·.register start)) := by
  intro s
  have resume : (s.symbols.register start).resume = s.symbols.resume := by
    unfold SymbolTable.register
    split
    · rfl
    · rfl
  exact ⟨resume, rfl, rfl, rfl, .register s.symbols start⟩

instance : Balanced Steady where
  enter := enter
  leave := leave
  inLoop m steady s := steady.surrounded fun s' inside =>
    ⟨inside.resume, by simp [inside.loops], inside.chances, inside.function, inside.scopes⟩
  inUncertainty m steady s := steady.surrounded fun s' inside =>
    ⟨inside.resume, inside.loops, by simp [inside.chances], inside.function, inside.scopes⟩
  inFunction f m s steady outside := by
    rw [Check.inFunction, bind_ok (get_run s)]
    exact steady.surrounded fun s' inside =>
      ⟨inside.resume, rfl, inside.chances, outside.symm, inside.scopes⟩

end State.Steady

namespace Leaves

variable {R : State → State → Prop} [Balanced R]

theorem inScope (mode : EntryMode) {m : Check Unit} (leaves : Leaves R m) :
    Leaves R (inScope mode m) := fun s =>
  leaves.surrounded fun s' inside =>
    IsTrans.trans _ _ _ (Balanced.enter mode s) (IsTrans.trans _ _ _ inside (Balanced.leave s'))

theorem beginFunction (pos : Pos) (h : Header) : Leaves R (beginFunction pos h) :=
  declaring.beginFunction (Balanced.enter .new) Balanced.leave trivial h.within_anywhere

end Leaves

/-- A function is begun outside of functions only. -/
theorem outside_of_beginFunction {pos : Pos} {h : Header} {s s' : State} {f : Function}
    (run : beginFunction pos h s = .ok (some f) s') : s.currentFunction = none := by
  unfold beginFunction at run
  rw [bind_ok (get_run s)] at run
  split at run
  · obtain ⟨u, s₁, -, given⟩ := bind_eq_ok_iff.mp run
    obtain ⟨none, -⟩ := pure_eq_ok_iff.mp given
    cases none
  · next outside => simpa using outside

/-- Where a function has been begun it is still outside of functions. -/
theorem begun_outside {pos : Pos} {h : Header} {s s' : State} {f : Function}
    (run : beginFunction pos h s = .ok (some f) s') : s'.currentFunction = none := by
  have steady : State.Steady s s' := (Leaves.beginFunction pos h).of_ok run
  exact steady.function.trans (outside_of_beginFunction run)

end Check

open Check State

/-! ## Statements -/

theorem Stmt.check_stays (stmt : Stmt) (simple : stmt.isSimple = true) :
    Leaves Stays stmt.check :=
  Leaves.declaring.stating.simple simple (fun _ _ _ _ => .warn _ _) stmt.within_anywhere

section

variable {R : State → State → Prop} [Balanced R]

theorem Check.Leaves.block (mode : EntryMode) {start : Pos} (stop : Pos) {stmts : List Stmt}
    (own : Leaves R (modifySymbols (·.register start))) (inner : Leaves R (Stmt.checkAll stmts)) :
    Leaves R ((Block.mk start stop stmts).check mode) := by
  rw [Block.check]
  exact inScope mode (inner.bind fun _ => own)

theorem Check.Leaves.walking :
    Walking (fun _ => True) (fun start => Leaves R (modifySymbols (·.register start)))
      (Leaves R) where
  toStating := declaring.stating
  warn := warn
  definition stop _ _ _ _ own inner s := by
    rw [Stmt.check]
    refine bind_run (beginFunction _ _ s) fun begun s₁ run => ?_
    cases begun with
    | none => exact pure () s₁
    | some f =>
        exact bind_run
          (Balanced.inFunction f _ s₁ (block .resumeLast stop own inner) (begun_outside run))
          fun _ s₂ _ => endFunction _ _ f s₂
  block stop _ own inner := block .new stop own inner
  inLoop := Balanced.inLoop _
  inUncertainty := Balanced.inUncertainty _

/-- What is kept by each step of a check, and by the registration of the blocks in a statement, is
kept by the statement, also if it is halted. -/
theorem Stmt.check_leaves (stmt : Stmt)
    (registers : ∀ start ∈ stmt.braces, Leaves R (modifySymbols (·.register start))) :
    Leaves R stmt.check := Leaves.walking.stmt stmt stmt.within_anywhere registers

theorem Stmt.checkAll_leaves (stmts : List Stmt)
    (registers : ∀ start ∈ Stmt.bracesAll stmts, Leaves R (modifySymbols (·.register start))) :
    Leaves R (Stmt.checkAll stmts) :=
  Leaves.walking.all stmts (Stmt.all_within_anywhere stmts) registers

theorem Block.check_leaves (mode : EntryMode) (body : Block)
    (registers : ∀ start ∈ body.braces, Leaves R (modifySymbols (·.register start))) :
    Leaves R (body.check mode) := by
  cases body with
  | mk start stop stmts =>
      rw [Block.braces] at registers
      obtain ⟨own, inner⟩ := List.forall_mem_cons.mp registers
      exact .block mode stop own (Stmt.checkAll_leaves stmts inner)

theorem Branches.check_leaves (rest : Branches)
    (registers : ∀ start ∈ rest.braces, Leaves R (modifySymbols (·.register start))) :
    Leaves R rest.check := Leaves.walking.branches rest rest.within_anywhere registers

end

/-- A statement leaves its surroundings as they were, also if it is halted. -/
theorem Stmt.check_steady (stmt : Stmt) : Leaves Steady stmt.check :=
  stmt.check_leaves fun start _ => Steady.register start

theorem Block.check_steady (mode : EntryMode) (body : Block) : Leaves Steady (body.check mode) :=
  body.check_leaves mode fun start _ => Steady.register start

theorem Stmt.checkAll_steady (stmts : List Stmt) : Leaves Steady (Stmt.checkAll stmts) :=
  Stmt.checkAll_leaves stmts fun start _ => Steady.register start

theorem Branches.check_steady (rest : Branches) : Leaves Steady rest.check :=
  rest.check_leaves fun start _ => Steady.register start

end Samo
