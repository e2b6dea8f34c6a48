import Samo.Proofs.Answers
import Samo.Proofs.Formed
import Samo.Proofs.ReturnCompleteness
import Samo.Proofs.Returns

/-!
# The second visit of a function that is well formed

When the body of a function is done, its returns are visited once more, in the scopes of their
blocks, and then the ways through it are looked at. If every return is right where it stands,
neither visit reports anything, and the function passes (`Check.endFunction_run`).
-/

namespace Samo

open Check

/-! ## Visits that report nothing -/

section

variable {α : Type} {visit : Stmt → Check (List α)} {found : Stmt → List α}

/-- A visit leaves the state alone at a site, and gives what is to be found there. -/
def Check.SilentAt (visit : Stmt → Check (List α)) (found : Stmt → List α) (s : State)
    (x : List Pos × Stmt) : Prop :=
  visit x.2 (s.enteringAll x.1) = .ok (found x.2) (s.enteringAll x.1)

/-- A site in no block is where the visit starts. -/
theorem Check.SilentAt.here {s : State} {stmt : Stmt} (silent : SilentAt visit found s ([], stmt)) :
    visit stmt s = .ok (found stmt) s := silent

theorem Check.SilentAt.visitAt {s : State} {x : List Pos × Stmt}
    (silent : SilentAt visit found s x) : visitAt visit x s = .ok (found x.2) s := by
  obtain ⟨c, resume, moved⟩ := s.enteringAll_eq x.1
  unfold SilentAt at silent
  unfold Check.visitAt ensuring
  rw [silent, moved]

theorem Check.visitEach_silent {s : State} {sites : List (List Pos × Stmt)}
    (silent : ∀ x ∈ sites, SilentAt visit found s x) :
    visitEach visit sites s = .ok (sites.flatMap (found ·.2)) s := by
  induction sites with
  | nil => rfl
  | cons x sites ih =>
      obtain ⟨here, others⟩ := List.forall_mem_cons.mp silent
      rw [visitEach, andThen, bind_ok here.visitAt, bind_ok (ih others), List.flatMap_cons]
      rfl

/-- A visit that leaves the state alone at each site collects what it finds there. -/
theorem Block.visitScoped_eq {s : State} (reads : ∀ stmt, ReadsTable (visit stmt)) (body : Block)
    (silent : ∀ x ∈ body.sites, SilentAt visit found s x) :
    body.visitScoped visit s = .ok (body.sites.flatMap (found ·.2)) s := by
  rw [body.visitScoped_eq_visitEach fun stmt => .of_readsTable (reads stmt)]
  exact visitEach_silent silent

end

/-- What is found at a statement if all is well: a return is right. -/
def Stmt.verdict : Stmt → List Bool
  | .returnWith .. => [true]
  | _ => []

theorem Stmt.all_verdict (stmt : Stmt) : stmt.verdict.all id = true := by
  cases stmt <;> rfl

/-! ## Trails that report nothing -/

section

variable {ret : Ty} {s : State}

theorem Check.SilentAt.matches {x : List Pos × Stmt}
    (silent : SilentAt (matchIfReturn ret) Stmt.verdict s x) : MatchesAt True ret s x :=
  ⟨_, _, silent, List.all_eq_true.mp x.2.all_verdict, fun _ => rfl⟩

/-- Where matching the returns leaves the state alone, following the ways does too. -/
theorem Stmt.trace_silent (stmt : Stmt)
    (silent : ∀ x ∈ stmt.sites, SilentAt (matchIfReturn ret) Stmt.verdict s x) (t : Trail) :
    ∃ t', stmt.trace ret t s = .ok t' s := by
  obtain ⟨t', r, run, near, -⟩ :=
    stmt.trace_complete (fun x member => (silent x member).matches) (.refl s) t
  exact ⟨t', near.2 trivial ▸ run⟩

theorem Block.trace_silent (body : Block)
    (silent : ∀ x ∈ body.sites, SilentAt (matchIfReturn ret) Stmt.verdict s x) (t : Trail) :
    ∃ t', body.trace ret t s = .ok t' s ∧ (body.jumpsInLoops = true →
      t.returns = true ∨ ¬ body.Ends .falls → t'.returns = true) := by
  obtain ⟨t', r, run, near, returns⟩ :=
    body.trace_complete (fun x member => (silent x member).matches) (.refl s) t
  exact ⟨t', near.2 trivial ▸ run, returns⟩

end

/-! ## Bodies without a return -/

mutual

/-- A way falls through every statement in which there is no return and that no jump leaves. -/
theorem Stmt.falls_of_no_return (stmt : Stmt) (none : ∀ x ∈ stmt.sites, x.2.verdict = [])
    (jumps : stmt.jumpsInLoops = true) : stmt.Ends .falls := by
  cases stmt with
  | returnWith pos value =>
      rw [Stmt.sites, List.forall_mem_singleton] at none
      cases none
  | block body =>
      rw [Stmt.sites, List.forall_mem_cons] at none
      rw [Stmt.jumpsInLoops] at jumps
      exact .block (body.falls_of_no_return none.2 jumps)
  | branch pos cond body rest =>
      rw [Stmt.sites, List.forall_mem_cons, List.forall_mem_cons, List.forall_mem_append] at none
      rw [Stmt.jumpsInLoops, Bool.and_eq_true] at jumps
      exact .branchTaken (body.falls_of_no_return none.2.2.1 jumps.1)
  | maybeOtherwise pos probability body otherwisePos alternative =>
      rw [Stmt.sites, List.forall_mem_cons, List.forall_mem_append] at none
      rw [Stmt.jumpsInLoops, Bool.and_eq_true] at jumps
      exact .maybeFirst (body.falls_of_no_return none.2.1 jumps.1)
  | loop => exact .loopDone
  | maybe => exact .maybePassed
  | breakOut | continueOn =>
      rw [Stmt.jumpsInLoops] at jumps
      cases jumps
  | declare => exact .declare
  | infer => exact .infer
  | assign => exact .assign
  | call => exact .call
  | define => exact .define
  | needs => exact .needs
  | bad => exact .bad

theorem Block.falls_of_no_return (body : Block) (none : ∀ x ∈ body.sites, x.2.verdict = [])
    (jumps : body.jumpsInLoops = true) : body.Ends .falls := by
  cases body with
  | mk start stop stmts =>
      rw [Block.sites, List.forall_mem_map] at none
      rw [Block.jumpsInLoops] at jumps
      exact .mk (Stmt.all_fall_of_no_return stmts none jumps)

theorem Stmt.all_fall_of_no_return (stmts : List Stmt)
    (none : ∀ x ∈ Stmt.sitesAll stmts, x.2.verdict = [])
    (jumps : Stmt.allJumpInLoops stmts = true) : Stmt.EndsAll stmts .falls := by
  cases stmts with
  | nil => exact .nil
  | cons stmt stmts =>
      rw [Stmt.sitesAll, List.forall_mem_append] at none
      rw [Stmt.allJumpInLoops, Bool.and_eq_true] at jumps
      exact .next (stmt.falls_of_no_return none.1 jumps.1)
        (Stmt.all_fall_of_no_return stmts none.2 jumps.2)

end

/-! ## The end of a function -/

/-- A return gives what the function is to return; any other statement is as it may be. -/
def Stmt.ReturnsRight (Γ : Bindings) (result : TypeName) : Stmt → Prop
  | .returnWith _ value => Returned Γ result value
  | _ => True

theorem TypeName.ty_ne_void_iff {t : TypeName} : t.ty ≠ .void ↔ t ≠ .void := by
  cases t <;> simp [TypeName.ty]

namespace Check

variable {s : State}

theorem checkReturn_run {result : TypeName} {value : Option Expr} (pos : Pos)
    (right : Returned s.symbols.bindings result value) (distinct : s.symbols.builtins.Distinct) :
    checkReturn pos result.ty value s = .ok true s := by
  cases right with
  | nothing => rfl
  | @value type e sane =>
      have answers := sane.answers distinct
      unfold checkReturn
      dsimp only
      rw [if_neg (by rintro ⟨⟩), bind_ok answers.detect]
      have accepts : ((Ty.value type).value?.elim (pure false) e.accepts : Check Bool) s =
          .ok true s := answers.accepts
      simp only [Bool.not_true, Bool.false_eq_true, if_false, TypeName.ty, ne_eq,
        not_true_eq_false]
      rw [bind_ok accepts]
      exact checkConstant_run sane.folds

theorem returnMatches_run {result : TypeName} {value : Option Expr}
    (right : Returned s.symbols.bindings result value) (distinct : s.symbols.builtins.Distinct) :
    returnMatches result.ty value s = .ok true s := by
  cases right with
  | nothing => rfl
  | @value type e sane =>
      unfold returnMatches
      dsimp only
      rw [bind_ok (sane.answers distinct).detect]
      simp [TypeName.ty, pure_run]

variable {result : TypeName} {x : List Pos × Stmt}

/-- Where a return is right, looking at it reports nothing. -/
theorem SilentAt.checkIfReturn
    (right : x.2.ReturnsRight (s.enteringAll x.1).symbols.bindings result)
    (distinct : (s.enteringAll x.1).symbols.builtins.Distinct) :
    SilentAt (checkIfReturn result.ty) Stmt.verdict s x := by
  obtain ⟨starts, stmt⟩ := x
  cases stmt with
  | returnWith pos value =>
      show (checkReturn pos result.ty value >>= fun v => pure [v]) (s.enteringAll starts) = _
      rw [bind_ok (checkReturn_run pos right distinct)]
      rfl
  | _ => rfl

theorem SilentAt.matchIfReturn
    (right : x.2.ReturnsRight (s.enteringAll x.1).symbols.bindings result)
    (distinct : (s.enteringAll x.1).symbols.builtins.Distinct) :
    SilentAt (matchIfReturn result.ty) Stmt.verdict s x := by
  obtain ⟨starts, stmt⟩ := x
  cases stmt with
  | returnWith pos value =>
      show (returnMatches result.ty value >>= fun v => pure [v]) (s.enteringAll starts) = _
      rw [bind_ok (returnMatches_run right distinct)]
      rfl
  | _ => rfl

/-- Entering scopes does not change the built-in functions. -/
theorem distinct_enteringAll (distinct : s.symbols.builtins.Distinct) (starts : List Pos) :
    (s.enteringAll starts).symbols.builtins.Distinct := by
  obtain ⟨c, resume, moved⟩ := s.enteringAll_eq starts
  rw [moved]
  exact distinct

section

variable {body : Block}

theorem all_verdicts (sites : List (List Pos × Stmt)) :
    (sites.flatMap (·.2.verdict)).all id = true := by
  rw [List.all_flatMap, List.all_eq_true]
  exact fun x _ => x.2.all_verdict

/-- The returns of a body are found to be right. If there is none, some way falls off its end. -/
theorem checkReturns_run (namePos : Pos) (distinct : s.symbols.builtins.Distinct)
    (right : ∀ x ∈ body.sites, x.2.ReturnsRight (s.enteringAll x.1).symbols.bindings result)
    (jumps : body.jumpsInLoops = true) (complete : result ≠ .void → ¬ body.Ends .falls) :
    checkReturns namePos result.ty body s = .ok true s := by
  have visited := body.visitScoped_eq (.checkIfReturn result.ty) fun x member =>
    SilentAt.checkIfReturn (right x member) (distinct_enteringAll distinct x.1)
  unfold checkReturns
  rw [bind_ok visited, if_neg, all_verdicts]
  · rfl
  · intro missing
    obtain ⟨value, empty⟩ := (Bool.and_eq_true _ _).mp missing
    rw [List.isEmpty_iff, List.flatMap_eq_nil_iff] at empty
    have falls := body.falls_of_no_return empty jumps
    exact complete (result.ty_ne_void_iff.mp (of_decide_eq_true value)) falls

/-- Every way through a body is found to return. -/
theorem returnsOnAllPaths_run (distinct : s.symbols.builtins.Distinct)
    (right : ∀ x ∈ body.sites, x.2.ReturnsRight (s.enteringAll x.1).symbols.bindings result)
    (jumps : body.jumpsInLoops = true) (complete : result ≠ .void → ¬ body.Ends .falls) :
    body.returnsOnAllPaths result.ty s = .ok true s := by
  have matching := fun x member =>
    SilentAt.matchIfReturn (right x member) (distinct_enteringAll distinct x.1)
  by_cases void : result.ty = .void
  · rw [Block.returnsOnAllPaths, if_pos void]
    rfl
  · obtain ⟨t, traced, returns⟩ := body.trace_silent matching .start
    have returned := returns jumps (.inr (complete (result.ty_ne_void_iff.mp void)))
    rw [Block.returnsOnAllPaths, if_neg void, Block.path, bind_assoc, bind_ok traced, ← returned]
    rfl

/-- A function passes if its returns are right and its ways return. -/
theorem endFunction_run {h : Header} {f : Function} (distinct : s.symbols.builtins.Distinct)
    (right : ∀ x ∈ body.sites, x.2.ReturnsRight (s.enteringAll x.1).symbols.bindings h.result)
    (jumps : body.jumpsInLoops = true) (complete : h.result ≠ .void → ¬ body.Ends .falls) :
    endFunction h body f s = .ok () { s with functions := s.functions ++ [f] } := by
  unfold endFunction
  rw [bind_ok (checkReturns_run h.namePos distinct right jumps complete), if_neg (by simp)]
  dsimp only
  rw [bind_ok (returnsOnAllPaths_run distinct right jumps complete), if_neg (by simp)]
  rfl

end

end Check

end Samo
