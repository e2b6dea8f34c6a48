import Samo.Proofs.Passes
import Mathlib.Logic.Relation

/-!
# The moments of a check

A check goes from one part of a program to the next: from a block to its statements, from a
statement to the blocks in it, and on to what follows it once it is done. `Moment.Next` gives the
parts that are checked on the way, each with the state in which its check starts. Every such moment
is one of the run: if the part is halted, so is everything around it, and on the way out nothing
happens to the table but that blocks leave their scopes (`Moment.Next.unwinds`).
-/

namespace Samo

open Check

/-- A part of a program that is checked as one. -/
inductive Part where
  | stmt (stmt : Stmt)
  | block (mode : EntryMode) (body : Block)
  | stmts (stmts : List Stmt)
  | branches (rest : Branches)

/-- The check of a part. -/
def Part.check : Part → Check Unit
  | stmt st => st.check
  | block mode body => body.check mode
  | stmts sts => Stmt.checkAll sts
  | branches rest => rest.check

/-- What is made of the table on the way out of a part: a block leaves its scope. -/
def Part.unwind : Part → SymbolTable → SymbolTable
  | block _ _, t => t.leave
  | _, t => t

/-- A part whose check is about to start, and the state at that moment. -/
structure Moment where
  part : Part
  state : State

namespace Moment

/-- The check of a part comes to the check of a part in it. -/
inductive Next : Moment → Moment → Prop
  | first {st sts s} : Next ⟨.stmts (st :: sts), s⟩ ⟨.stmt st, s⟩
  | others {st sts s s'} : st.check s = .ok () s' → Next ⟨.stmts (st :: sts), s⟩ ⟨.stmts sts, s'⟩
  | enter {mode start final sts s} : Next ⟨.block mode (.mk start final sts), s⟩
      ⟨.stmts sts, { s with symbols := s.symbols.enter mode }⟩
  | block {body s} : Next ⟨.stmt (.block body), s⟩ ⟨.block .new body, s⟩
  | function {pos h body s s' f} : beginFunction pos h s = .ok (some f) s' →
      Next ⟨.stmt (.define pos h body), s⟩
        ⟨.block .resumeLast body, { s' with currentFunction := some f, loopDepth := 0 }⟩
  | branch {pos cond body rest s s'} : checkCondition pos .ifWord cond s = .ok () s' →
      Next ⟨.stmt (.branch pos cond body rest), s⟩ ⟨.block .new body, s'⟩
  | arms {pos cond body rest s s₁ s₂} : checkCondition pos .ifWord cond s = .ok () s₁ →
      body.check .new s₁ = .ok () s₂ →
      Next ⟨.stmt (.branch pos cond body rest), s⟩ ⟨.branches rest, s₂⟩
  | otherwise {pos body s} : Next ⟨.branches (.otherwise pos body), s⟩ ⟨.block .new body, s⟩
  | elseIf {pos cond body rest s s'} : checkCondition pos .ifWord cond s = .ok () s' →
      Next ⟨.branches (.elseIf pos cond body rest), s⟩ ⟨.block .new body, s'⟩
  | moreArms {pos cond body rest s s₁ s₂} : checkCondition pos .ifWord cond s = .ok () s₁ →
      body.check .new s₁ = .ok () s₂ →
      Next ⟨.branches (.elseIf pos cond body rest), s⟩ ⟨.branches rest, s₂⟩
  | loop {pos cond body s s'} : checkCondition pos .whileWord cond s = .ok () s' →
      Next ⟨.stmt (.loop pos cond body), s⟩
        ⟨.block .new body, { s' with loopDepth := s'.loopDepth + 1 }⟩
  | maybe {pos e body s s₁ s₂} : checkProbability pos body.isCompound e s = .ok () s₁ →
      checkProbable pos body s₁ = .ok () s₂ →
      Next ⟨.stmt (.maybe pos e body), s⟩
        ⟨.stmt body, { s₂ with uncertainDepth := s₂.uncertainDepth + 1 }⟩
  | maybeBody {pos e body otherwisePos alternative s s₁ s₂} :
      checkProbability pos body.isCompound e s = .ok () s₁ →
      checkAlternatives pos body otherwisePos alternative s₁ = .ok () s₂ →
      Next ⟨.stmt (.maybeOtherwise pos e body otherwisePos alternative), s⟩
        ⟨.stmt body, { s₂ with uncertainDepth := s₂.uncertainDepth + 1 }⟩
  | alternative {pos e body otherwisePos alternative s s₁ s₂ s₃} :
      checkProbability pos body.isCompound e s = .ok () s₁ →
      checkAlternatives pos body otherwisePos alternative s₁ = .ok () s₂ →
      body.check { s₂ with uncertainDepth := s₂.uncertainDepth + 1 } = .ok () s₃ →
      Next ⟨.stmt (.maybeOtherwise pos e body otherwisePos alternative), s⟩ ⟨.stmt alternative, s₃⟩

/-- The moments of the check of a program, from its start on. -/
def Of (program : Program) (s : State) (m : Moment) : Prop :=
  Relation.ReflTransGen Next ⟨.stmts program, s⟩ m

/-- The check that starts at a moment is halted. -/
def Halts (m : Moment) (h : Halt) : Prop := ∃ s', m.part.check m.state = .error h s'

/-- What is halted in some surroundings is halted outside of them. -/
theorem surrounded_halts {m : Check Unit} {before after : State → State} {s s' : State} {h : Halt}
    (halted : m (before s) = .error h s') :
    (modify before >>= fun _ => ensuring m after) s = .error h (after s') := by
  rw [bind_ok (modify_run before s), ensuring, halted]

/-- What is halted in its surroundings was halted inside of them. -/
theorem halts_of_surrounded {m : Check Unit} {before after : State → State} {s s' : State} {h : Halt}
    (halted : (modify before >>= fun _ => ensuring m after) s = .error h s') :
    ∃ s₁, m (before s) = .error h s₁ := by
  rw [bind_ok (modify_run before s), ensuring] at halted
  split at halted
  · cases halted
  · next run =>
    cases halted
    exact ⟨_, run⟩

/-- What is halted inside a part halts the part, which only leaves its own scope. -/
theorem Next.unwinds {m m' : Moment} (next : Next m m') {h : Halt} {r : State}
    (halted : m'.part.check m'.state = .error h r) :
    ∃ s', m.part.check m.state = .error h s' ∧ s'.symbols = m.part.unwind r.symbols := by
  cases next with
  | first =>
      dsimp only [Part.check] at halted ⊢
      rw [Stmt.checkAll, bind_error halted]
      exact ⟨r, rfl, rfl⟩
  | others done =>
      dsimp only [Part.check] at halted ⊢
      rw [Stmt.checkAll, bind_ok done]
      exact ⟨r, halted, rfl⟩
  -- the one case in which a scope is left
  | enter =>
      dsimp only [Part.check] at halted ⊢
      rw [Block.check]
      exact ⟨_, surrounded_halts (bind_error halted), rfl⟩
  | block =>
      dsimp only [Part.check] at halted ⊢
      rw [Stmt.check]
      exact ⟨r, halted, rfl⟩
  | @function pos header body s s' f begun =>
      dsimp only [Part.check] at halted ⊢
      have inside : ∃ r', inFunction f (body.check .resumeLast) s' = .error h r' ∧
          r'.symbols = r.symbols := by
        rw [inFunction, bind_ok (get_run s')]
        exact ⟨_, surrounded_halts halted, rfl⟩
      obtain ⟨r', inside, table⟩ := inside
      rw [Stmt.check, bind_ok begun]
      exact ⟨r', bind_error inside, table⟩
  | branch condition =>
      dsimp only [Part.check] at halted ⊢
      rw [Stmt.check, bind_ok condition, bind_error halted]
      exact ⟨r, rfl, rfl⟩
  | arms condition done =>
      dsimp only [Part.check] at halted ⊢
      rw [Stmt.check, bind_ok condition, bind_ok done]
      exact ⟨r, halted, rfl⟩
  | otherwise =>
      dsimp only [Part.check] at halted ⊢
      rw [Branches.check]
      exact ⟨r, halted, rfl⟩
  | elseIf condition =>
      dsimp only [Part.check] at halted ⊢
      rw [Branches.check, bind_ok condition, bind_error halted]
      exact ⟨r, rfl, rfl⟩
  | moreArms condition done =>
      dsimp only [Part.check] at halted ⊢
      rw [Branches.check, bind_ok condition, bind_ok done]
      exact ⟨r, halted, rfl⟩
  | loop condition =>
      dsimp only [Part.check] at halted ⊢
      rw [Stmt.check, bind_ok condition]
      exact ⟨_, surrounded_halts halted, rfl⟩
  | maybe chance probable =>
      dsimp only [Part.check] at halted ⊢
      rw [Stmt.check, bind_ok chance, bind_ok probable]
      exact ⟨_, surrounded_halts halted, rfl⟩
  | maybeBody chance feasible =>
      dsimp only [Part.check] at halted ⊢
      rw [Stmt.check, bind_ok chance, bind_ok feasible]
      exact ⟨_, surrounded_halts (bind_error halted), rfl⟩
  | alternative chance feasible done =>
      dsimp only [Part.check] at halted ⊢
      rw [Stmt.check, bind_ok chance, bind_ok feasible]
      exact ⟨_, surrounded_halts ((bind_ok done).trans halted), rfl⟩

/-- What is halted inside a part halts the part. -/
theorem Next.halts {m m' : Moment} (next : Next m m') {h : Halt} (halted : m'.Halts h) :
    m.Halts h := by
  obtain ⟨r, halted⟩ := halted
  obtain ⟨s', halted, -⟩ := next.unwinds halted
  exact ⟨s', halted⟩

/-- A program is halted if any part of it is. -/
theorem Of.halts {program : Program} {s : State} {m : Moment} (reached : Of program s m) {h : Halt}
    (halted : m.Halts h) : ∃ s', Stmt.checkAll program s = .error h s' := by
  have back : ∀ m₀, Relation.ReflTransGen Next m₀ m → m₀.Halts h := by
    intro m₀ steps
    induction steps using Relation.ReflTransGen.head_induction_on with
    | refl => exact halted
    | head next _ ih => exact next.halts ih
  exact back _ reached

end Moment

end Samo
