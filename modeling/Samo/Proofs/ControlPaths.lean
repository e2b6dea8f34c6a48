import Samo.Proofs.Sites

/-!
# Ways through a body

What `Stmt.trace` reads off some statements is compared with the ways through them. `Stmt.Ends`
lists the ways by how they end, with every condition and chance left open. A trail that returns
(`Trail.returns`) has no way that falls off the end (`Stmt.trace_sound`), and if every return is a
right one and no jump leaves the statements, a trail that does not return has one
(`Stmt.trace_complete`).
-/

namespace Samo

/-! ## Ways -/

/-- How a way through some statements ends: at their end, or at a statement that leaves them. -/
inductive Exit where
  | falls
  | returns
  | breaks
  | continues
deriving DecidableEq, Repr

mutual

/-- The ways through a statement, by how they end. -/
inductive Stmt.Ends : Stmt → Exit → Prop
  | block {body : Block} {x : Exit} : body.Ends x → Stmt.Ends (.block body) x
  | declare {pos type namePos name init} : Stmt.Ends (.declare pos type namePos name init) .falls
  | infer {pos namePos name init} : Stmt.Ends (.infer pos namePos name init) .falls
  | assign {pos name value} : Stmt.Ends (.assign pos name value) .falls
  | call {pos name args} : Stmt.Ends (.call pos name args) .falls
  | define {pos header body} : Stmt.Ends (.define pos header body) .falls
  | needs {pos spelling path} : Stmt.Ends (.needs pos spelling path) .falls
  | bad {pos fault} : Stmt.Ends (.bad pos fault) .falls
  | breakOut {pos} : Stmt.Ends (.breakOut pos) .breaks
  | continueOn {pos} : Stmt.Ends (.continueOn pos) .continues
  | returnWith {pos value} : Stmt.Ends (.returnWith pos value) .returns
  | branchTaken {pos cond body rest x} :
      body.Ends x → Stmt.Ends (.branch pos cond body rest) x
  | branchPassed {pos cond body rest x} :
      rest.Ends x → Stmt.Ends (.branch pos cond body rest) x
  | loopDone {pos cond body} : Stmt.Ends (.loop pos cond body) .falls
  | loopAgain {pos cond body x y} : body.Ends x → x = .falls ∨ x = .continues →
      Stmt.Ends (.loop pos cond body) y → Stmt.Ends (.loop pos cond body) y
  | loopBroken {pos cond body} : body.Ends .breaks → Stmt.Ends (.loop pos cond body) .falls
  | loopReturned {pos cond body} : body.Ends .returns → Stmt.Ends (.loop pos cond body) .returns
  | maybeTaken {pos probability body x} :
      body.Ends x → Stmt.Ends (.maybe pos probability body) x
  | maybePassed {pos probability body} : Stmt.Ends (.maybe pos probability body) .falls
  | maybeFirst {pos probability body otherwisePos alternative x} :
      body.Ends x → Stmt.Ends (.maybeOtherwise pos probability body otherwisePos alternative) x
  | maybeSecond {pos probability body otherwisePos alternative x} : alternative.Ends x →
      Stmt.Ends (.maybeOtherwise pos probability body otherwisePos alternative) x

/-- The ways through a block. -/
inductive Block.Ends : Block → Exit → Prop
  | mk {start stop stmts x} : Stmt.EndsAll stmts x → Block.Ends (.mk start stop stmts) x

/-- The ways through a row of statements: the first one that does not fall through ends the way. -/
inductive Stmt.EndsAll : List Stmt → Exit → Prop
  | nil : Stmt.EndsAll [] .falls
  | next {s ss x} : s.Ends .falls → Stmt.EndsAll ss x → Stmt.EndsAll (s :: ss) x
  | stop {s ss x} : s.Ends x → x ≠ .falls → Stmt.EndsAll (s :: ss) x

/-- The ways through what follows the first arm of an if: any arm, or nothing without an else. -/
inductive Branches.Ends : Branches → Exit → Prop
  | done : Branches.Ends .done .falls
  | otherwise {pos body x} : body.Ends x → Branches.Ends (.otherwise pos body) x
  | taken {pos cond body rest x} : body.Ends x → Branches.Ends (.elseIf pos cond body rest) x
  | passed {pos cond body rest x} : rest.Ends x → Branches.Ends (.elseIf pos cond body rest) x

end

/-- A way falls through a row when it falls through the first statement and through the others. -/
theorem Stmt.endsAll_cons_falls {s : Stmt} {ss : List Stmt} :
    Stmt.EndsAll (s :: ss) .falls ↔ s.Ends .falls ∧ Stmt.EndsAll ss .falls := by
  constructor
  · rintro (_ | ⟨first, others⟩ | ⟨_, leaves⟩)
    · exact ⟨first, others⟩
    · exact absurd rfl leaves
  · rintro ⟨first, others⟩
    exact .next first others

/-! ## Jumps -/

mutual

/-- Whether a break or a continue leaves no more than a loop of the statement. -/
def Stmt.jumpsInLoops : Stmt → Bool
  | .breakOut _ | .continueOn _ => false
  | .block body => body.jumpsInLoops
  | .branch _ _ body rest => body.jumpsInLoops && rest.jumpsInLoops
  | .maybe _ _ body => body.jumpsInLoops
  | .maybeOtherwise _ _ body _ alternative => body.jumpsInLoops && alternative.jumpsInLoops
  | .declare .. | .infer .. | .assign .. | .call .. | .define .. | .loop .. | .returnWith ..
  | .needs .. | .bad .. => true

def Block.jumpsInLoops : Block → Bool
  | .mk _ _ stmts => Stmt.allJumpInLoops stmts

def Stmt.allJumpInLoops : List Stmt → Bool
  | [] => true
  | s :: ss => s.jumpsInLoops && Stmt.allJumpInLoops ss

def Branches.jumpsInLoops : Branches → Bool
  | .done => true
  | .otherwise _ body => body.jumpsInLoops
  | .elseIf _ _ body rest => body.jumpsInLoops && rest.jumpsInLoops

end

/-! ## Trails -/

namespace Trail

/-- Whether every way along the trail returns. -/
def returns (t : Trail) : Bool := Path.anyReturns t.close

@[simp] theorem returns_start : start.returns = false := by decide

theorem returns_eq (t : Trail) : t.returns = (Path.anyReturns t.steps || t.returned) := by
  simp [returns, close, Path.anyReturns_eq_any, Path.returns]

theorem returns_of_returned {t : Trail} (returned : t.returned = true) : t.returns = true := by
  rw [returns_eq, returned, Bool.or_true]

/-- What is pushed returns for the trail if it returns itself. -/
@[simp] theorem returns_push (t : Trail) (p : Path) :
    (t.push p).returns = (t.returns || p.returns) := by
  simp only [returns, push, close, Path.anyReturns_eq_any, Path.returns, List.any_append,
    List.any_cons, List.any_nil, Bool.or_false, Bool.or_assoc]

/-- The block of a trail returns when the trail does. -/
@[simp] theorem returns_block_close (t : Trail) : (Path.block t.close).returns = t.returns := by
  rw [Path.returns, returns]

end Trail

open Check

/-! ## A trail that returns -/

mutual

/-- If the trail returns after a statement, it did so before or no way falls through it. -/
theorem Stmt.trace_sound {ret : Ty} {t t' : Trail} {r r' : State} (s : Stmt)
    (run : s.trace ret t r = .ok t' r') (returns : t'.returns = true) :
    t.returns = true ∨ ¬ s.Ends .falls := by
  cases s with
  | returnWith p value => exact .inr fun falls => nomatch falls
  | block b =>
      rw [Stmt.trace] at run
      rcases b.trace_sound run returns with before | never
      · exact .inl before
      · exact .inr fun | .block falls => never falls
  | branch p c b rest =>
      rw [Stmt.trace] at run
      obtain ⟨first, r₁, body, run⟩ := bind_eq_ok_iff.mp run
      obtain ⟨others, r₂, arms, run⟩ := bind_eq_ok_iff.mp run
      cases run
      simp only [Trail.returns_push, Path.returns, Path.allReturn, Bool.or_eq_true,
        Bool.and_eq_true] at returns
      rcases returns with before | ⟨last, taken, passed⟩
      · exact .inl before
      · refine .inr fun falls => ?_
        cases falls with
        | branchTaken falls => exact (b.trace_sound body taken).resolve_left (by simp) falls
        | branchPassed falls => exact rest.trace_sound arms passed last falls
  | loop p c b =>
      rw [Stmt.trace] at run
      obtain ⟨body, r₁, -, run⟩ := bind_eq_ok_iff.mp run
      cases run
      rw [Trail.returns_push, Path.returns, Bool.or_false] at returns
      exact .inl returns
  | maybe p e body =>
      rw [Stmt.trace] at run
      obtain ⟨inner, r₁, -, run⟩ := bind_eq_ok_iff.mp run
      cases run
      -- without an alternative it does not matter what the body does
      rw [Trail.returns_push, Path.returns, Bool.false_and, Bool.or_false] at returns
      exact .inl returns
  | maybeOtherwise p e body q alternative =>
      rw [Stmt.trace] at run
      obtain ⟨inner, r₁, first, run⟩ := bind_eq_ok_iff.mp run
      obtain ⟨other, r₂, second, run⟩ := bind_eq_ok_iff.mp run
      cases run
      simp only [Trail.returns_push, Path.returns, Path.allReturn, Bool.or_eq_true,
        Bool.and_eq_true, Bool.true_and, and_true] at returns
      rcases returns with before | ⟨left, right⟩
      · exact .inl before
      · refine .inr fun falls => ?_
        cases falls with
        | maybeFirst falls => exact (body.trace_sound first left).resolve_left (by simp) falls
        | maybeSecond falls =>
            exact (alternative.trace_sound second right).resolve_left (by simp) falls
  | declare | infer | assign | call | define | breakOut | continueOn | needs | bad =>
      rw [Stmt.trace] at run
      cases run
      exact .inl returns

theorem Block.trace_sound {ret : Ty} {t t' : Trail} {r r' : State} (b : Block)
    (run : b.trace ret t r = .ok t' r') (returns : t'.returns = true) :
    t.returns = true ∨ ¬ b.Ends .falls := by
  cases b with
  | mk start stop stmts =>
      rw [Block.trace] at run
      obtain ⟨r₁, run⟩ := inScopeOf_ok run
      rcases Stmt.traceAll_sound stmts run returns with before | never
      · exact .inl before
      · exact .inr fun | .mk falls => never falls

theorem Stmt.traceAll_sound {ret : Ty} {t t' : Trail} {r r' : State} (ss : List Stmt)
    (run : Stmt.traceAll ret ss t r = .ok t' r') (returns : t'.returns = true) :
    t.returns = true ∨ ¬ Stmt.EndsAll ss .falls := by
  cases ss with
  | nil =>
      rw [Stmt.traceAll] at run
      cases run
      exact .inl returns
  | cons s ss =>
      rw [Stmt.traceAll] at run
      obtain ⟨t₁, r₁, first, others⟩ := bind_eq_ok_iff.mp run
      rw [Stmt.endsAll_cons_falls]
      rcases Stmt.traceAll_sound ss others returns with returned | never
      · rcases s.trace_sound first returned with before | never
        · exact .inl before
        · exact .inr fun falls => never falls.1
      · exact .inr fun falls => never falls.2

/-- If there is an else and every arm returns, no way falls through the arms. -/
theorem Branches.trace_sound {ret : Ty} {paths : List Path} {r r' : State} (rest : Branches)
    (run : rest.trace ret r = .ok paths r') (returns : Path.allReturn paths = true)
    (last : rest.last?.isSome = true) : ¬ rest.Ends .falls := by
  cases rest with
  | done => cases last
  | otherwise p b =>
      rw [Branches.trace] at run
      obtain ⟨t, r₁, body, run⟩ := bind_eq_ok_iff.mp run
      cases run
      simp only [Path.allReturn, Trail.returns_block_close, Bool.and_true] at returns
      have never := (b.trace_sound body returns).resolve_left (by simp)
      exact fun | .otherwise falls => never falls
  | elseIf p c b rest =>
      rw [Branches.trace] at run
      obtain ⟨t, r₁, body, run⟩ := bind_eq_ok_iff.mp run
      obtain ⟨others, r₂, arms, run⟩ := bind_eq_ok_iff.mp run
      cases run
      simp only [Path.allReturn, Trail.returns_block_close, Bool.and_eq_true] at returns
      intro falls
      cases falls with
      | taken falls => exact (b.trace_sound body returns.1).resolve_left (by simp) falls
      | passed falls => exact rest.trace_sound arms returns.2 last falls

end

/-! ## A trail that does not return -/

/-- What there is to match at a statement: a return. -/
def Check.matchIfReturn (ret : Ty) : Stmt → Check (List Bool)
  | .returnWith _ value => return [← returnMatches ret value]
  | _ => return []

/-- Every return of a body, in the scope of its block, gives what the function is to return. -/
def Block.ReturnsMatch (ret : Ty) (body : Block) (s : State) : Prop :=
  ∃ verdicts s', body.visitScoped (matchIfReturn ret) s = .ok verdicts s' ∧
    ∀ v ∈ verdicts, v = true

theorem Check.ReadsTable.matchIfReturn (ret : Ty) (s : Stmt) :
    ReadsTable (matchIfReturn ret s) := by
  unfold Check.matchIfReturn
  split
  · exact (returnMatches ret _).bind fun _ => pure _
  · exact pure _

/-- States that no step that only reads can tell apart. If `still`, they are the same. -/
def Check.State.Near (still : Prop) (r q : State) : Prop := r.Alike q ∧ (still → r = q)

namespace Check

variable {still : Prop}

theorem State.Near.refl (s : State) : s.Near still s := ⟨⟨rfl, rfl⟩, fun _ => rfl⟩

theorem State.Near.trans {r q s : State} (first : r.Near still q) (second : q.Near still s) :
    r.Near still s :=
  ⟨first.1.trans second.1, fun same => (first.2 same).trans (second.2 same)⟩

theorem State.Near.entering {r q : State} (near : r.Near still q) (start : Pos) :
    (r.entering start).Near still (q.entering start) :=
  ⟨near.1.entering start, fun same => by rw [near.2 same]⟩

/-- A step in the scope of a block that leaves the state alone there leaves it alone here. -/
theorem inScopeOf_run {α : Type} {m : Check α} {start : Pos} {s : State} {a : α}
    (run : m (s.entering start) = .ok a (s.entering start)) :
    inScopeOf start m s = .ok a s := by
  unfold State.entering at run
  unfold inScopeOf
  cases jump : s.symbols.goTo? start with
  | none =>
      rw [jump] at run
      exact run
  | some t =>
      rw [jump] at run
      have inner : m { s with symbols := t } = .ok a { s with symbols := t } := run
      dsimp only
      unfold ensuring
      rw [inner]
      dsimp only
      rw [restore_of_goTo? jump]

theorem inScopeOf_near {α : Type} {m : Check α} (reads : ReadsTable m) {start : Pos}
    {r r₁ : State} {a : α} (run : m (r.entering start) = .ok a r₁)
    (near : r₁.Near still (r.entering start)) :
    ∃ r', inScopeOf start m r = .ok a r' ∧ r'.Near still r := by
  obtain ⟨r', whole⟩ := inScopeOf_of_ok run
  refine ⟨r', whole, ((reads.question True).inScopeOf start).readsTable.alike whole |>.symm, ?_⟩
  intro same
  rw [near.2 same] at run
  rw [inScopeOf_run run] at whole
  cases whole
  rfl

/-- Matching a return at a site finds that it is right. If `still`, it leaves the state alone. -/
def MatchesAt (still : Prop) (ret : Ty) (q : State) (x : List Pos × Stmt) : Prop :=
  ∃ vs q', matchIfReturn ret x.2 (q.enteringAll x.1) = .ok vs q' ∧ (∀ v ∈ vs, v = true) ∧
    (still → q' = q.enteringAll x.1)

end Check

section

variable {still : Prop} {ret : Ty}

mutual

/--
If the returns of a statement match and no jump leaves it, a trail that does not return after it has
a way that falls through it.
-/
theorem Stmt.trace_complete {q r : State} (s : Stmt)
    (right : ∀ x ∈ s.sites, MatchesAt still ret q x) (near : r.Near still q) (t : Trail) :
    ∃ t' r', s.trace ret t r = .ok t' r' ∧ r'.Near still r ∧ (s.jumpsInLoops = true →
      t.returns = true ∨ ¬ s.Ends .falls → t'.returns = true) := by
  cases s with
  | returnWith p value =>
      rw [Stmt.trace]
      by_cases returned : t.returned = true
      · -- behind a return nothing more is looked at
        rw [if_pos returned]
        exact ⟨t, r, rfl, .refl r, fun _ _ => Trail.returns_of_returned returned⟩
      · rw [if_neg returned]
        rw [Stmt.sites] at right
        obtain ⟨vs, q', visited, right, quiet⟩ := right _ (List.mem_singleton_self _)
        obtain ⟨v, q₁, matched, given⟩ := bind_eq_ok_iff.mp visited
        cases given
        obtain rfl : v = true := right v List.mem_cons_self
        have reads := ReadsTable.returnMatches ret value
        obtain ⟨r₁, run⟩ := reads.transfer matched near.1
        refine ⟨{ t with returned := true }, r₁, ?_, ⟨(reads.alike run).symm, fun same => ?_⟩,
          fun _ _ => Trail.returns_of_returned rfl⟩
        · rw [bind_ok run]
          rfl
        · obtain rfl := near.2 same
          cases run.symm.trans matched
          exact quiet same
  | block b =>
      rw [Stmt.sites] at right
      obtain ⟨t', r', run, kept, returns⟩ :=
        b.trace_complete (List.forall_mem_cons.mp right).2 near t
      refine ⟨t', r', by rw [Stmt.trace, run], kept, fun jumps before => ?_⟩
      rw [Stmt.jumpsInLoops] at jumps
      refine returns jumps (before.imp_right fun never falls => never ?_)
      exact .block falls
  | branch p c b rest =>
      simp only [Stmt.sites, List.forall_mem_cons, List.forall_mem_append] at right
      obtain ⟨-, -, inner, arms⟩ := right
      obtain ⟨t₁, r₁, body, kept, returns⟩ := b.trace_complete inner near .start
      obtain ⟨paths, r₂, run, kept', all⟩ := rest.trace_complete arms (kept.trans near)
      refine ⟨t.push (.branch rest.last?.isSome (.block t₁.close :: paths)), r₂, ?_,
        kept'.trans kept, fun jumps before => ?_⟩
      · rw [Stmt.trace, bind_ok body, bind_ok run]
        rfl
      rw [Stmt.jumpsInLoops, Bool.and_eq_true] at jumps
      rw [Trail.returns_push, Bool.or_eq_true]
      refine before.imp_right fun never => ?_
      obtain ⟨last, passed⟩ := all jumps.2 fun falls => never (.branchPassed falls)
      have taken := returns jumps.1 (.inr fun falls => never (.branchTaken falls))
      rw [Path.returns, last, Path.allReturn, Trail.returns_block_close, taken, passed]
      rfl
  | loop p c b =>
      simp only [Stmt.sites, List.forall_mem_cons] at right
      obtain ⟨t₁, r₁, body, kept, -⟩ := b.trace_complete right.2.2 near .start
      refine ⟨t.push (.loop t₁.close), r₁, by rw [Stmt.trace, bind_ok body]; rfl, kept,
        fun _ before => ?_⟩
      rw [Trail.returns_push, Bool.or_eq_true]
      -- a loop may not run at all
      exact .inl (before.resolve_right fun never => never .loopDone)
  | maybe p e body =>
      rw [Stmt.sites] at right
      obtain ⟨t₁, r₁, run, kept, -⟩ :=
        body.trace_complete (List.forall_mem_cons.mp right).2 near .start
      refine ⟨t.push (.branch false [.block t₁.close]), r₁, by rw [Stmt.trace, bind_ok run]; rfl,
        kept, fun _ before => ?_⟩
      rw [Trail.returns_push, Bool.or_eq_true]
      exact .inl (before.resolve_right fun never => never .maybePassed)
  | maybeOtherwise p e body pos alternative =>
      simp only [Stmt.sites, List.forall_mem_cons, List.forall_mem_append] at right
      obtain ⟨-, inner, other⟩ := right
      obtain ⟨t₁, r₁, first, kept, returns⟩ := body.trace_complete inner near .start
      obtain ⟨t₂, r₂, second, kept', returns'⟩ :=
        alternative.trace_complete other (kept.trans near) .start
      refine ⟨t.push (.branch true [.block t₁.close, .block t₂.close]), r₂, ?_, kept'.trans kept,
        fun jumps before => ?_⟩
      · rw [Stmt.trace, bind_ok first, bind_ok second]
        rfl
      rw [Stmt.jumpsInLoops, Bool.and_eq_true] at jumps
      rw [Trail.returns_push, Bool.or_eq_true]
      refine before.imp_right fun never => ?_
      have left := returns jumps.1 (.inr fun falls => never (.maybeFirst falls))
      have right := returns' jumps.2 (.inr fun falls => never (.maybeSecond falls))
      rw [Path.returns, Path.allReturn, Path.allReturn, Trail.returns_block_close,
        Trail.returns_block_close, left, right]
      rfl
  | breakOut | continueOn =>
      exact ⟨t, r, by rw [Stmt.trace]; rfl, .refl r, fun jumps => nomatch jumps⟩
  | declare | infer | assign | call | define | needs | bad =>
      refine ⟨t, r, by rw [Stmt.trace]; rfl, .refl r, fun _ before => ?_⟩
      exact before.resolve_right fun never => never (by constructor)

theorem Block.trace_complete {q r : State} (b : Block)
    (right : ∀ x ∈ b.sites, MatchesAt still ret q x) (near : r.Near still q) (t : Trail) :
    ∃ t' r', b.trace ret t r = .ok t' r' ∧ r'.Near still r ∧ (b.jumpsInLoops = true →
      t.returns = true ∨ ¬ b.Ends .falls → t'.returns = true) := by
  cases b with
  | mk start stop stmts =>
      rw [Block.sites] at right
      have inside : ∀ x ∈ Stmt.sitesAll stmts, MatchesAt still ret (q.entering start) x :=
        fun x member => right (start :: x.1, x.2) (List.mem_map_of_mem member)
      obtain ⟨t', r₁, run, kept, returns⟩ :=
        Stmt.traceAll_complete stmts inside (near.entering start) t
      have reads := Stmt.traceAll_question ret stmts (fun s _ => s.within_anywhere) t
      obtain ⟨r', run, kept⟩ := inScopeOf_near reads.readsTable run kept
      refine ⟨t', r', by rw [Block.trace, run], kept, fun jumps before => ?_⟩
      rw [Block.jumpsInLoops] at jumps
      refine returns jumps (before.imp_right fun never falls => never ?_)
      exact .mk falls

theorem Stmt.traceAll_complete {q r : State} (ss : List Stmt)
    (right : ∀ x ∈ Stmt.sitesAll ss, MatchesAt still ret q x) (near : r.Near still q) (t : Trail) :
    ∃ t' r', Stmt.traceAll ret ss t r = .ok t' r' ∧ r'.Near still r ∧
      (Stmt.allJumpInLoops ss = true → t.returns = true ∨ ¬ Stmt.EndsAll ss .falls →
        t'.returns = true) := by
  cases ss with
  | nil =>
      refine ⟨t, r, by rw [Stmt.traceAll]; rfl, .refl r, fun _ before => ?_⟩
      exact before.resolve_right fun never => never .nil
  | cons s ss =>
      rw [Stmt.sitesAll] at right
      obtain ⟨first, others⟩ := List.forall_mem_append.mp right
      obtain ⟨t₁, r₁, run, kept, returns⟩ := s.trace_complete first near t
      obtain ⟨t₂, r₂, run', kept', returns'⟩ :=
        Stmt.traceAll_complete ss others (kept.trans near) t₁
      refine ⟨t₂, r₂, by rw [Stmt.traceAll, bind_ok run, run'], kept'.trans kept,
        fun jumps before => ?_⟩
      rw [Stmt.allJumpInLoops, Bool.and_eq_true] at jumps
      -- either a way leads on to the others, or this statement is the one that returns
      by_cases falls : s.Ends .falls
      · refine returns' jumps.2 (before.imp (fun early => ?_) fun never falls' => ?_)
        · exact returns jumps.1 (.inl early)
        · exact never (.next falls falls')
      · exact returns' jumps.2 (.inl (returns jumps.1 (.inr falls)))

/-- If no way falls through the arms, there is an else and every arm returns. -/
theorem Branches.trace_complete {q r : State} (rest : Branches)
    (right : ∀ x ∈ rest.sites, MatchesAt still ret q x) (near : r.Near still q) :
    ∃ paths r', rest.trace ret r = .ok paths r' ∧ r'.Near still r ∧ (rest.jumpsInLoops = true →
      ¬ rest.Ends .falls → rest.last?.isSome = true ∧ Path.allReturn paths = true) := by
  cases rest with
  | done => exact ⟨[], r, by rw [Branches.trace]; rfl, .refl r, fun _ never => absurd .done never⟩
  | otherwise p b =>
      rw [Branches.sites] at right
      obtain ⟨t, r₁, run, kept, returns⟩ :=
        b.trace_complete (List.forall_mem_cons.mp right).2 near .start
      refine ⟨[.block t.close], r₁, by rw [Branches.trace, bind_ok run]; rfl, kept,
        fun jumps never => ⟨rfl, ?_⟩⟩
      rw [Branches.jumpsInLoops] at jumps
      have returned := returns jumps (.inr fun falls => never (.otherwise falls))
      rw [Path.allReturn, Trail.returns_block_close, returned]
      rfl
  | elseIf p c b rest =>
      simp only [Branches.sites, List.forall_mem_cons, List.forall_mem_append] at right
      obtain ⟨-, inner, arms⟩ := right
      obtain ⟨t, r₁, body, kept, returns⟩ := b.trace_complete inner near .start
      obtain ⟨paths, r₂, run, kept', all⟩ := rest.trace_complete arms (kept.trans near)
      refine ⟨.block t.close :: paths, r₂, by rw [Branches.trace, bind_ok body, bind_ok run]; rfl,
        kept'.trans kept, fun jumps never => ?_⟩
      rw [Branches.jumpsInLoops, Bool.and_eq_true] at jumps
      have taken := returns jumps.1 (.inr fun falls => never (.taken falls))
      obtain ⟨last, passed⟩ := all jumps.2 fun falls => never (.passed falls)
      refine ⟨last, ?_⟩
      rw [Path.allReturn, Trail.returns_block_close, taken, passed]
      rfl

end

end

/-- What is found out about the ways through a body is right, if its returns match and no jump
leaves it. -/
theorem Block.returnsOnAllPaths_exact {ret : Ty} {body : Block} {s : State} (value : ret ≠ .void)
    (jumps : body.jumpsInLoops = true) (matching : body.ReturnsMatch ret s) :
    ∃ complete s', body.returnsOnAllPaths ret s = .ok complete s' ∧
      (complete = true ↔ ¬ body.Ends .falls) := by
  have right : ∀ x ∈ body.sites, MatchesAt False ret s x := by
    intro x member
    obtain ⟨vs, s', run, right⟩ := (body.visitScoped_iff (.matchIfReturn ret)).mp matching x member
    exact ⟨vs, s', run, right, False.elim⟩
  obtain ⟨t, s', run, -, returns⟩ := body.trace_complete right (.refl s) .start
  refine ⟨t.returns, s', ?_, ?_, fun never => returns jumps (.inr never)⟩
  · rw [Block.returnsOnAllPaths, if_neg value, Block.path, bind_assoc, bind_ok run]
    rfl
  · intro returned
    exact (body.trace_sound run returned).resolve_left (by simp)

end Samo
