import Samo.Proofs.ScopedVisits
import Samo.Proofs.SecondVisit

/-!
# The returns that the ways through a body are asked about

Reading the ways off a body goes from one part of it to the next, in the scopes registered for its
blocks, with the trail so far. `Waypoint.Next` gives the parts on the way. It asks about a return
only as long as the statements since the last branch do not return (`Block.Asks`). If matching the
returns leaves the state alone at every site of a body, each return that is asked about is at one of
these sites, in the scope of that site (`Block.Asks.site`).
-/

namespace Samo

open Check

/-- A part of a body along which the ways are read, and the trail before it. The arms after the
first one are read from the start. -/
inductive Leg where
  | stmt (stmt : Stmt) (trail : Trail)
  | block (body : Block) (trail : Trail)
  | stmts (stmts : List Stmt) (trail : Trail)
  | branches (rest : Branches)

/-- The sites in a part. -/
def Leg.sites : Leg → List (List Pos × Stmt)
  | stmt st _ => st.sites
  | block body _ => body.sites
  | stmts sts _ => Stmt.sitesAll sts
  | branches rest => rest.sites

/-- A part that is about to be read, and the state at that moment. -/
structure Waypoint where
  leg : Leg
  state : State

namespace Waypoint

/-- Reading a part comes to a part in it. -/
inductive Next (ret : Ty) : Waypoint → Waypoint → Prop
  | first {st sts t s} : Next ret ⟨.stmts (st :: sts) t, s⟩ ⟨.stmt st t, s⟩
  | others {st sts t t' s s'} : st.trace ret t s = .ok t' s' →
      Next ret ⟨.stmts (st :: sts) t, s⟩ ⟨.stmts sts t', s'⟩
  | enter {start final sts t s} :
      Next ret ⟨.block (.mk start final sts) t, s⟩ ⟨.stmts sts t, s.entering start⟩
  | block {body t s} : Next ret ⟨.stmt (.block body) t, s⟩ ⟨.block body t, s⟩
  | branch {pos cond body rest t s} :
      Next ret ⟨.stmt (.branch pos cond body rest) t, s⟩ ⟨.block body .start, s⟩
  | arms {pos cond body rest t t' s s'} : body.trace ret .start s = .ok t' s' →
      Next ret ⟨.stmt (.branch pos cond body rest) t, s⟩ ⟨.branches rest, s'⟩
  | otherwise {pos body s} : Next ret ⟨.branches (.otherwise pos body), s⟩ ⟨.block body .start, s⟩
  | elseIf {pos cond body rest s} :
      Next ret ⟨.branches (.elseIf pos cond body rest), s⟩ ⟨.block body .start, s⟩
  | moreArms {pos cond body rest t' s s'} : body.trace ret .start s = .ok t' s' →
      Next ret ⟨.branches (.elseIf pos cond body rest), s⟩ ⟨.branches rest, s'⟩
  | loop {pos cond body t s} :
      Next ret ⟨.stmt (.loop pos cond body) t, s⟩ ⟨.block body .start, s⟩
  | maybe {pos e body t s} : Next ret ⟨.stmt (.maybe pos e body) t, s⟩ ⟨.stmt body .start, s⟩
  | maybeBody {pos e body otherwisePos alternative t s} :
      Next ret ⟨.stmt (.maybeOtherwise pos e body otherwisePos alternative) t, s⟩
        ⟨.stmt body .start, s⟩
  | alternative {pos e body otherwisePos alternative t t' s s'} :
      body.trace ret .start s = .ok t' s' →
      Next ret ⟨.stmt (.maybeOtherwise pos e body otherwisePos alternative) t, s⟩
        ⟨.stmt alternative .start, s'⟩

variable {ret : Ty} {sites : List (List Pos × Stmt)} {r : State}
  {w w' : Waypoint}

/-- The part is read in the scope of some blocks, and its sites are among the given ones there. -/
def At (sites : List (List Pos × Stmt)) (r : State) (w : Waypoint) : Prop :=
  ∃ starts, w.state = r.enteringAll starts ∧ ∀ x ∈ w.leg.sites, under starts x ∈ sites

theorem At.inside {leg leg' : Leg} {s : State} (here : At sites r ⟨leg, s⟩)
    (fewer : leg'.sites ⊆ leg.sites) : At sites r ⟨leg', s⟩ := by
  obtain ⟨starts, scope, listed⟩ := here
  exact ⟨starts, scope, fun x member => listed x (fewer member)⟩

/-- What leaves the state alone at the given sites does so at those of the part. -/
theorem At.silent {visit : Stmt → Check (List Bool)} (here : w.At sites r)
    (silent : ∀ x ∈ sites, SilentAt visit Stmt.verdict r x) :
    ∀ x ∈ w.leg.sites, SilentAt visit Stmt.verdict w.state x := by
  obtain ⟨starts, scope, listed⟩ := here
  intro x member
  have same := silent _ (listed x member)
  unfold SilentAt State.enteringAll under at same
  rw [List.foldl_append] at same
  rw [scope]
  exact same

/-- Reading on stays at the sites, as long as matching the returns leaves the state alone there. -/
theorem Next.at_sites (next : Next ret w w') (here : w.At sites r)
    (silent : ∀ x ∈ sites, SilentAt (matchIfReturn ret) Stmt.verdict r x) : w'.At sites r := by
  have calm := here.silent silent
  cases next with
  | first | block | branch | otherwise | elseIf | loop | maybe | maybeBody =>
      refine here.inside fun x member => ?_
      dsimp only [Leg.sites] at member ⊢
      simp [Stmt.sites, Stmt.sitesAll, Branches.sites, member]
  | @others st sts t t' s s' read =>
      dsimp only [Leg.sites] at calm
      rw [Stmt.sitesAll, List.forall_mem_append] at calm
      obtain ⟨t₁, same⟩ := st.trace_silent calm.1 t
      cases read.symm.trans same
      refine here.inside fun x member => ?_
      dsimp only [Leg.sites] at member ⊢
      simp [Stmt.sitesAll, member]
  | @enter start final sts t s =>
      obtain ⟨starts, scope, listed⟩ := here
      refine ⟨starts ++ [start], ?_, fun x member => ?_⟩
      · dsimp only at scope ⊢
        rw [scope, State.enteringAll, State.enteringAll, List.foldl_append]
        rfl
      · have inside : (start :: x.1, x.2) ∈ (Block.mk start final sts).sites := by
          rw [Block.sites]
          exact List.mem_map_of_mem member
        simpa [under] using listed _ inside
  | @arms pos cond body rest t t' s s' read =>
      dsimp only [Leg.sites] at calm
      rw [Stmt.sites, List.forall_mem_cons, List.forall_mem_cons, List.forall_mem_append] at calm
      obtain ⟨t₁, same, -⟩ := body.trace_silent calm.2.2.1 .start
      cases read.symm.trans same
      refine here.inside fun x member => ?_
      dsimp only [Leg.sites] at member ⊢
      simp [Stmt.sites, member]
  | @moreArms pos cond body rest t' s s' read =>
      dsimp only [Leg.sites] at calm
      rw [Branches.sites, List.forall_mem_cons, List.forall_mem_append] at calm
      obtain ⟨t₁, same, -⟩ := body.trace_silent calm.2.1 .start
      cases read.symm.trans same
      refine here.inside fun x member => ?_
      dsimp only [Leg.sites] at member ⊢
      simp [Branches.sites, member]
  | @alternative pos e body otherwisePos alternative t t' s s' read =>
      dsimp only [Leg.sites] at calm
      rw [Stmt.sites, List.forall_mem_cons, List.forall_mem_append] at calm
      obtain ⟨t₁, same⟩ := body.trace_silent calm.2.1 .start
      cases read.symm.trans same
      refine here.inside fun x member => ?_
      dsimp only [Leg.sites] at member ⊢
      simp [Stmt.sites, member]

theorem at_of_steps (steps : Relation.ReflTransGen (Next ret) w w') (here : w.At sites r)
    (silent : ∀ x ∈ sites, SilentAt (matchIfReturn ret) Stmt.verdict r x) : w'.At sites r := by
  induction steps with
  | refl => exact here
  | tail _ next ih => exact next.at_sites ih silent

end Waypoint

/-- Reading the ways off a body from the state `s` on asks about a return in the state `w`. -/
def Block.Asks (ret : Ty) (body : Block) (s : State) (pos : Pos) (value : Option Expr) (w : State) :
    Prop :=
  ∃ t : Trail, t.returned = false ∧ Relation.ReflTransGen (Waypoint.Next ret)
    ⟨.block body .start, s⟩ ⟨.stmt (.returnWith pos value) t, w⟩

/-- A return that is asked about is at a site of the body, in the scope of that site, if matching
the returns leaves the state alone. -/
theorem Block.Asks.site {ret : Ty} {body : Block} {s w : State}
    {pos : Pos} {value : Option Expr} (asks : body.Asks ret s pos value w)
    (silent : ∀ x ∈ body.sites, SilentAt (matchIfReturn ret) Stmt.verdict s x) :
    ∃ starts, (starts, .returnWith pos value) ∈ body.sites ∧ w = s.enteringAll starts := by
  obtain ⟨t, -, steps⟩ := asks
  have start : Waypoint.At body.sites s ⟨.block body .start, s⟩ := by
    refine ⟨[], rfl, fun x member => ?_⟩
    simpa [under, Leg.sites] using member
  obtain ⟨starts, scope, listed⟩ := Waypoint.at_of_steps steps start silent
  have inside := listed ([], .returnWith pos value) (by simp [Leg.sites, Stmt.sites])
  exact ⟨starts, by simpa [under] using inside, scope⟩

end Samo
