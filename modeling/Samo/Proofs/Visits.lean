import Samo.Proofs.Passes

/-!
# Every statement is visited where it stands

An accepted program is checked statement by statement. `Stmt.check_visits` follows the check to each
statement of the program: it was run in a state that fits the statement's place (`Standing`), it was
accepted, and the blocks around it have their scopes in every later table (`Framed`).
-/

namespace Samo

/-! ## Later tables -/

namespace SymbolTable

/-- A later table, in which the scopes that were left before are as they were. -/
structure Later (t t' : SymbolTable) : Prop where
  grows : t.Grows t'
  closed : ∀ c s, t.current.depth < c.depth → t.scope? c = some s → t'.scope? c = some s

namespace Later

theorem refl (t : SymbolTable) : t.Later t := ⟨.refl t, fun _ _ _ => id⟩

/-- What is later than the end of some statements is later than their start. -/
theorem of_declares {t t₁ t' : SymbolTable} {names : List String} {starts : List Pos}
    (declares : t.Declares t₁ names starts) (later : t₁.Later t') : t.Later t' := by
  refine ⟨declares.grows.trans later.grows, fun c s deeper found => ?_⟩
  apply later.closed c s
  · rw [declares.current]
    exact deeper
  · refine declares.kept c s ?_ found
    rintro rfl
    omega

/-- What is later than the end of a block is later than its last statement. -/
theorem of_close {t t' : SymbolTable} {s : Scope} {p : Coordinates} {start : Pos}
    (wf : t.WellFormed) (here : t.currentScope? = some s) (above : s.parent = some p)
    (later : (t.register start).leave.Later t') : t.Later t' := by
  have left := Left.of_parent wf here above start
  refine ⟨left.grows.trans later.grows, fun c s' deeper found => ?_⟩
  apply later.closed c s'
  · have below := (wf.parent_found here above).1
    rw [left.current]
    omega
  · rw [left.scopes, found]

end Later

/-! ## Blocks that are not registered yet -/

/-- None of the positions is registered, and no two of them are the same. -/
structure Unregistered (t : SymbolTable) (starts : List Pos) : Prop where
  distinct : starts.Nodup
  missing : ∀ start ∈ starts, t.blocks.lookup start = none

namespace Unregistered

variable {t t' : SymbolTable} {starts starts' : List Pos}

theorem left (fresh : t.Unregistered (starts ++ starts')) : t.Unregistered starts :=
  ⟨(List.nodup_append.mp fresh.distinct).1, fun start member =>
    fresh.missing start (List.mem_append_left _ member)⟩

/-- Statements register their own blocks only. -/
theorem right {names : List String} (fresh : t.Unregistered (starts ++ starts'))
    (declares : t.Declares t' names starts) : t'.Unregistered starts' := by
  obtain ⟨-, distinct, disjoint⟩ := List.nodup_append.mp fresh.distinct
  refine ⟨distinct, fun start member => ?_⟩
  by_contra registered
  rcases (declares.starts start).mp (Option.isSome_iff_ne_none.mpr registered) with before | own
  · rw [fresh.missing start (List.mem_append_right _ member)] at before
    cases before
  · exact disjoint start own start member rfl

theorem kept {names : List String} (fresh : t.Unregistered starts)
    (declares : t.Declares t' names []) : t'.Unregistered starts :=
  have fresh : t.Unregistered ([] ++ starts) := fresh
  fresh.right declares

/-- The blocks in a block whose scope has just been opened. -/
theorem opened {names : List String} {start : Pos} (fresh : t.Unregistered (start :: starts))
    (opens : t.Opens t' names) : t'.Unregistered starts := by
  refine ⟨(List.nodup_cons.mp fresh.distinct).2, fun start' member => ?_⟩
  rw [opens.blocks]
  exact fresh.missing start' (List.mem_cons_of_mem _ member)

end Unregistered

/-! ## Scopes of blocks -/

/-- The scope of a block: registered under its opening brace, with the names of the block. -/
structure FrameAt (t : SymbolTable) (f : Frame) (c p : Coordinates) : Prop where
  registered : t.blocks.lookup f.start = some c
  scope : ∃ s, t.scope? c = some s ∧ s.parent = some p ∧ s.names = f.names

/-- The scopes of blocks, each inside the next one, from one scope out to another. -/
def Framed (t : SymbolTable) : List Frame → Coordinates → Coordinates → Prop
  | [], c, c₀ => c = c₀
  | f :: fs, c, c₀ => ∃ p, t.FrameAt f c p ∧ t.Framed fs p c₀

theorem framed_append {t : SymbolTable} {fs gs : List Frame} {c c₀ : Coordinates} :
    t.Framed (fs ++ gs) c c₀ ↔ ∃ c₁, t.Framed fs c c₁ ∧ t.Framed gs c₁ c₀ := by
  induction fs generalizing c with
  | nil =>
      constructor
      · exact fun framed => ⟨c, rfl, framed⟩
      · rintro ⟨c₁, rfl, framed⟩
        exact framed
  | cons f fs ih =>
      constructor
      · rintro ⟨p, first, others⟩
        obtain ⟨c₁, inner, outer⟩ := ih.mp others
        exact ⟨c₁, ⟨p, first, inner⟩, outer⟩
      · rintro ⟨c₁, ⟨p, first, inner⟩, outer⟩
        exact ⟨p, first, ih.mpr ⟨c₁, inner, outer⟩⟩

/-- A block that was closed has its scope in every later table. -/
theorem Closes.frameAt {t t₁ t' : SymbolTable} {c : Coordinates} {start : Pos}
    {names : List String} {starts : List Pos} (closes : t.Closes t₁ c start names starts)
    (fresh : t.Unregistered (start :: starts)) (later : t₁.Later t') :
    t'.FrameAt ⟨start, names⟩ c t.current := by
  obtain ⟨s, found, above, declared⟩ := closes.scope
  refine ⟨?_, s, ?_, above, declared⟩
  · rcases closes.registered with new | before | inner
    · exact later.grows.blocks start c new
    · rw [fresh.missing start List.mem_cons_self] at before
      cases before
    · exact absurd inner (List.nodup_cons.mp fresh.distinct).1
  · refine later.closed c s ?_ found
    have below := (closes.declares.wellFormed.parent_found found above).1
    rw [closes.declares.current]
    omega

end SymbolTable

open Check

/-! ## States that fit a place -/

/-- A state in which a statement at a place is checked: the names declared before are visible, and
the check knows the function and the loops around it. -/
structure Standing (p : Place) (s : State) : Prop where
  stop : s.engine.policy = .stop
  wellFormed : s.symbols.WellFormed
  visible : ∀ name, (s.symbols.lookup name).isSome = true ↔ name ∈ p.before
  function : s.currentFunction.isSome = p.function.isSome
  loops : s.loopDepth = p.loops

namespace Standing

variable {p : Place} {s s' : State}

/-- After statements that declare nothing the state still fits. -/
theorem passed {starts : List Pos} (standing : Standing p s) (passes : Passes s s' [] starts) :
    Standing p s' := by
  refine ⟨passes.policy.trans standing.stop, passes.table.wellFormed, fun name => ?_, ?_, ?_⟩
  · rw [passes.table.visible standing.wellFormed, standing.visible]
    simp
  · rw [passes.function, standing.function]
  · rw [passes.loops, standing.loops]

theorem after {starts : List Pos} {stmt : Stmt} (standing : Standing p s)
    (passes : Passes s s' stmt.declares starts) : Standing (p.after stmt) s' := by
  refine ⟨passes.policy.trans standing.stop, passes.table.wellFormed, fun name => ?_, ?_, ?_⟩
  · rw [passes.table.visible standing.wellFormed, standing.visible]
    exact List.mem_append.symm
  · rw [passes.function, standing.function]
    rfl
  · rw [passes.loops, standing.loops]
    rfl

theorem enter (standing : Standing p s) (body : Block) :
    Standing (p.enter body) { s with symbols := s.symbols.enter .new } := by
  have opens := SymbolTable.Opens.enter standing.wellFormed
  refine ⟨standing.stop, opens.wellFormed, fun name => ?_, standing.function, standing.loops⟩
  show ((s.symbols.enter .new).lookup name).isSome = true ↔ name ∈ p.before
  rw [opens.visible standing.wellFormed, standing.visible]
  simp

theorem inLoop (standing : Standing p s) :
    Standing p.inLoop { s with loopDepth := s.loopDepth + 1 } :=
  ⟨standing.stop, standing.wellFormed, standing.visible, standing.function,
    congrArg (· + 1) standing.loops⟩

/-- Chance is nothing that a place knows of. -/
theorem uncertain (standing : Standing p s) :
    Standing p { s with uncertainDepth := s.uncertainDepth + 1 } :=
  ⟨standing.stop, standing.wellFormed, standing.visible, standing.function, standing.loops⟩

/-- In a function's body its own name and the parameters are visible too. -/
theorem inFunction {h : Header} {body : Block} {f : Function} {s₁ s₂ : State}
    (standing : Standing p s) (whole : DefineRun h body s s' f s₁ s₂) :
    Standing (p.inFunction h body) { s₁ with symbols := s₁.symbols.enter .resumeLast } := by
  refine ⟨whole.stop, whole.opens.wellFormed, fun name => ?_, ?_, whole.loops⟩
  · show ((s₁.symbols.enter .resumeLast).lookup name).isSome = true ↔
      name ∈ p.before ++ h.name :: h.paramNames
    rw [whole.opens.visible whole.named.wellFormed, whole.named.visible standing.wellFormed,
      standing.visible]
    simp [or_assoc]
  · show s₁.currentFunction.isSome = true
    rw [whole.function]
    rfl

end Standing

/-- The check of an arm of an if statement at a place, and of the arms after it. -/
structure ArmRun (p : Place) (pos : Pos) (cond : Expr) (body : Block) (rest : Branches)
    (s s₁ s₂ s' : State) : Prop where
  condition : checkCondition pos .ifWord cond s = .ok () s₁
  checked : body.check .new s₁ = .ok () s₂
  arms : rest.check s₂ = .ok () s'
  first : Passes s s₁ [] []
  second : Passes s₁ s₂ [] body.braces
  third : Passes s₂ s' [] rest.braces
  standing₁ : Standing p s₁
  standing₂ : Standing p s₂

theorem Standing.arm {p : Place} {s s' : State} {pos : Pos} {cond : Expr} {body : Block}
    {rest : Branches} (standing : Standing p s)
    (run : (do checkCondition pos .ifWord cond; body.check .new; rest.check) s = .ok () s') :
    ∃ s₁ s₂, ArmRun p pos cond body rest s s₁ s₂ s' := by
  obtain ⟨s₁, s₂, condition, same, checked, arms⟩ := Branches.arm_ok run
  have first := same.passes standing.wellFormed
  have standing₁ := standing.passed first
  have second := body.check_passes standing₁.stop standing₁.wellFormed checked
  have standing₂ := standing₁.passed second
  have third := rest.check_passes standing₂.stop standing₂.wellFormed arms
  exact ⟨s₁, s₂, condition, checked, arms, first, second, third, standing₁, standing₂⟩

/-! ## Visits -/

/--
The visit of a statement `x` on the way through statements at a place `p`, in the scope `c`: it was
accepted in a state that fits its place. The blocks between `x` and `p` have their scopes in the
later table `t`, provided that their braces can be told apart (`clean`).
-/
structure Visit (clean : Prop) (t : SymbolTable) (p : Place) (c : Coordinates) (x : Place × Stmt)
    (s s' : State) (fs : List Frame) : Prop where
  standing : Standing x.1 s
  run : x.2.check s = .ok () s'
  fresh : clean → s.symbols.Unregistered x.2.braces
  later : s'.symbols.Later t
  frames : x.1.frames = fs ++ p.frames
  framed : clean → t.Framed fs s.symbols.current c
  within : p.function.isSome = true → x.1.function = p.function ∧
    (∀ name ∈ p.within, name ∈ x.1.within) ∧ ∀ f ∈ fs, ∀ name ∈ f.names, name ∈ x.1.within

/-- A statement was visited. -/
def Visited (clean : Prop) (t : SymbolTable) (p : Place) (c : Coordinates) (x : Place × Stmt) :
    Prop :=
  ∃ s s' fs, Visit clean t p c x s s' fs

namespace Visited

variable {clean : Prop} {t : SymbolTable} {p : Place} {c : Coordinates}

/-- A statement that is checked is visited itself. -/
theorem self {stmt : Stmt} {s s' : State} (standing : Standing p s)
    (run : stmt.check s = .ok () s') (later : s'.symbols.Later t)
    (fresh : clean → s.symbols.Unregistered stmt.braces) :
    Visited clean t p s.symbols.current (p, stmt) :=
  ⟨s, s', [], standing, run, fresh, later, rfl, fun _ => rfl, fun _ =>
    ⟨rfl, fun _ => id, fun _ member => nomatch member⟩⟩

/-- A visit, seen from another place in the same block. -/
theorem seenFrom {q : Place} {x : Place × Stmt} (visited : Visited clean t q c x)
    (frames : q.frames = p.frames) (function : q.function = p.function)
    (within : q.within = p.within) : Visited clean t p c x := by
  obtain ⟨s, s', fs, visit⟩ := visited
  refine ⟨s, s', fs, visit.standing, visit.run, visit.fresh, visit.later, ?_, visit.framed, ?_⟩
  · rw [visit.frames, frames]
  · rw [← function, ← within]
    exact visit.within

/-- A visit inside a frame, seen from outside. The names of the frame are those of the place inside,
unless a function starts there. -/
theorem enclosed {q : Place} {f : Frame} {x : Place × Stmt} {c' : Coordinates}
    (visited : Visited clean t q c' x) (frames : q.frames = f :: p.frames)
    (frame : clean → t.FrameAt f c' c)
    (same : p.function.isSome = true → q.function = p.function ∧ q.within = p.within ++ f.names) :
    Visited clean t p c x := by
  obtain ⟨s, s', fs, visit⟩ := visited
  refine ⟨s, s', fs ++ [f], visit.standing, visit.run, visit.fresh, visit.later, ?_,
    fun clean => ?_, fun inside => ?_⟩
  · rw [visit.frames, frames, List.append_assoc]
    rfl
  · exact SymbolTable.framed_append.mpr ⟨c', visit.framed clean, c, frame clean, rfl⟩
  · obtain ⟨function, names⟩ := same inside
    obtain ⟨function', outer, inner⟩ := visit.within (by rw [function]; exact inside)
    rw [names, List.forall_mem_append] at outer
    refine ⟨function'.trans function, outer.1, fun g member => ?_⟩
    rcases List.mem_append.mp member with member | member
    · exact inner g member
    · rw [List.mem_singleton.mp member]
      exact outer.2

/-- The visits of the statements of a block, seen from outside. -/
theorem ofBlock {body : Block} {c' : Coordinates}
    (inside : (clean → t.FrameAt ⟨body.start, [] ++ Stmt.declaresAll body.stmts⟩ c' c) ∧
      ∀ x ∈ body.located (p.enter body), Visited clean t (p.enter body) c' x) :
    ∀ x ∈ body.located (p.enter body), Visited clean t p c x :=
  fun x member => (inside.2 x member).enclosed rfl inside.1 fun _ => ⟨rfl, rfl⟩

end Visited

mutual

/-- Every statement in an accepted statement is visited. -/
theorem Stmt.check_visits {clean : Prop} {t : SymbolTable} {p : Place} {s s' : State} (stmt : Stmt)
    (standing : Standing p s) (run : stmt.check s = .ok () s') (later : s'.symbols.Later t)
    (fresh : clean → s.symbols.Unregistered stmt.braces) :
    ∀ x ∈ stmt.located p, Visited clean t p s.symbols.current x := by
  have self : Visited clean t p s.symbols.current (p, stmt) := .self standing run later fresh
  cases stmt <;> (rw [Stmt.braces] at fresh; rw [Stmt.located])
  case block body =>
    rw [Stmt.check] at run
    intro x member
    rcases List.mem_cons.mp member with rfl | member
    · exact self
    · exact .ofBlock (body.check_visits standing.wellFormed (.enter standing.wellFormed)
        (standing.enter body) run later fresh) x member
  case define pos header body =>
    obtain ⟨f, s₁, s₂, whole⟩ := Stmt.define_ok standing.stop standing.wellFormed run
    have later₂ : s₂.symbols.Later t := by
      rw [← whole.returns.2.1]
      exact later
    -- a function is defined outside of all functions
    have function : p.function = none := by
      have same := standing.function
      rw [whole.outside] at same
      exact Option.isNone_iff_eq_none.mp (by simpa using same.symm)
    obtain ⟨frame, visits⟩ := body.check_visits whole.named.wellFormed whole.opens
      (standing.inFunction whole) whole.checked later₂ fun clean => (fresh clean).kept whole.named
    intro x member
    rcases List.mem_cons.mp member with rfl | member
    · exact self
    · rw [← whole.named.current]
      refine (visits x member).enclosed rfl frame fun inside => ?_
      rw [function] at inside
      cases inside
  case branch pos cond body rest =>
    rw [Stmt.check] at run
    obtain ⟨s₁, s₂, arm⟩ := standing.arm run
    have fresh₁ : clean → s₁.symbols.Unregistered (body.braces ++ rest.braces) := fun clean =>
      (fresh clean).kept arm.first.table
    intro x member
    rcases List.mem_cons.mp member with rfl | member
    · exact self
    rw [← arm.first.table.current]
    rcases List.mem_append.mp member with member | member
    · exact .ofBlock (body.check_visits arm.standing₁.wellFormed (.enter arm.standing₁.wellFormed)
        (arm.standing₁.enter body) arm.checked (.of_declares arm.third.table later)
        fun clean => (fresh₁ clean).left) x member
    · rw [← arm.second.table.current]
      exact rest.check_visits arm.standing₂ arm.arms later
        (fun clean => (fresh₁ clean).right arm.second.table) x member
  case loop pos cond body =>
    obtain ⟨s₁, s₂, same, checked, rfl⟩ := Stmt.loop_ok run
    have first := same.passes standing.wellFormed
    have standing₁ := (standing.passed first).inLoop
    intro x member
    rcases List.mem_cons.mp member with rfl | member
    · exact self
    · rw [← first.table.current]
      have inside := Visited.ofBlock (body.check_visits standing₁.wellFormed
        (.enter standing₁.wellFormed) (standing₁.enter body) checked later
        fun clean => (fresh clean).kept first.table) x member
      exact inside.seenFrom rfl rfl rfl
  case maybe pos probability body =>
    obtain ⟨s₁, s₂, same, checked, rfl⟩ := Stmt.maybe_ok run
    have first := same.passes standing.wellFormed
    intro x member
    rcases List.mem_cons.mp member with rfl | member
    · exact self
    · -- the body is checked in the scope around it
      rw [← first.table.current]
      exact body.check_visits (standing.passed first).uncertain checked later
        (fun clean => (fresh clean).kept first.table) x member
  case maybeOtherwise pos probability body otherwisePos alternative =>
    obtain ⟨s₁, s₂, s₃, same, checked, checked', rfl⟩ := Stmt.maybeOtherwise_ok run
    have first := same.passes standing.wellFormed
    have standing₁ := (standing.passed first).uncertain
    have second := body.check_passes standing₁.stop standing₁.wellFormed checked
    have standing₂ := standing₁.after second
    have third := alternative.check_passes standing₂.stop standing₂.wellFormed checked'
    have fresh₁ : clean → s₁.symbols.Unregistered (body.braces ++ alternative.braces) :=
      fun clean => (fresh clean).kept first.table
    intro x member
    rcases List.mem_cons.mp member with rfl | member
    · exact self
    rw [← first.table.current]
    rcases List.mem_append.mp member with member | member
    · exact body.check_visits standing₁ checked (.of_declares third.table later)
        (fun clean => (fresh₁ clean).left) x member
    · have current : s₂.symbols.current = s₁.symbols.current := second.table.current
      rw [← current]
      exact (alternative.check_visits standing₂ checked' later
        (fun clean => (fresh₁ clean).right second.table) x member).seenFrom rfl rfl rfl
  case declare | infer | assign | call | breakOut | continueOn | returnWith | needs | bad =>
    intro x member
    rw [List.mem_singleton.mp member]
    exact self

/-- Every statement of an accepted block is visited, wherever the block's scope was opened, and the
scope of the block stays. -/
theorem Block.check_visits {clean : Prop} {t t₀ : SymbolTable} {q : Place} {s s' : State}
    {mode : EntryMode} {names : List String} (body : Block) (wf : t₀.WellFormed)
    (opens : t₀.Opens (s.symbols.enter mode) names)
    (standing : Standing q { s with symbols := s.symbols.enter mode })
    (run : body.check mode s = .ok () s') (later : s'.symbols.Later t)
    (fresh : clean → t₀.Unregistered body.braces) :
    (clean → t.FrameAt ⟨body.start, names ++ Stmt.declaresAll body.stmts⟩
        (s.symbols.enter mode).current t₀.current) ∧
      ∀ x ∈ body.located q, Visited clean t q (s.symbols.enter mode).current x := by
  obtain ⟨closes, -, -, -⟩ := body.check_closes (by exact standing.stop) wf opens run
  rw [body.braces_eq] at fresh
  refine ⟨fun clean => closes.frameAt (fresh clean) later, ?_⟩
  cases body with
  | mk start final stmts =>
      obtain ⟨s₁, checked, rfl⟩ := Block.check_ok run
      have passes := Stmt.checkAll_passes stmts standing.stop standing.wellFormed checked
      obtain ⟨scope, here, above, -⟩ := opens.scope
      obtain ⟨scope', here', above', -⟩ := passes.table.declared scope here
      -- `later` speaks of the table in which the block is closed already
      have later₁ : s₁.symbols.Later t :=
        .of_close passes.table.wellFormed here' (above'.trans above) later
      rw [Block.located]
      exact Stmt.checkAll_visits stmts standing checked later₁ fun clean =>
        (fresh clean).opened opens

theorem Stmt.checkAll_visits {clean : Prop} {t : SymbolTable} {p : Place} {s s' : State}
    (stmts : List Stmt) (standing : Standing p s) (run : Stmt.checkAll stmts s = .ok () s')
    (later : s'.symbols.Later t) (fresh : clean → s.symbols.Unregistered (Stmt.bracesAll stmts)) :
    ∀ x ∈ Stmt.locatedAll p stmts, Visited clean t p s.symbols.current x := by
  cases stmts with
  | nil =>
      rw [Stmt.locatedAll]
      intro x member
      cases member
  | cons stmt stmts =>
      rw [Stmt.checkAll] at run
      rw [Stmt.bracesAll] at fresh
      rw [Stmt.locatedAll]
      obtain ⟨u, s₁, first, others⟩ := bind_eq_ok_iff.mp run
      have passes := stmt.check_passes standing.stop standing.wellFormed first
      have standing₁ := standing.after passes
      have rest := Stmt.checkAll_passes stmts standing₁.stop standing₁.wellFormed others
      intro x member
      rcases List.mem_append.mp member with member | member
      · exact stmt.check_visits standing first (.of_declares rest.table later)
          (fun clean => (fresh clean).left) x member
      · rw [← passes.table.current]
        exact (Stmt.checkAll_visits stmts standing₁ others later
          (fun clean => (fresh clean).right passes.table) x member).seenFrom rfl rfl rfl

theorem Branches.check_visits {clean : Prop} {t : SymbolTable} {p : Place} {s s' : State}
    (rest : Branches) (standing : Standing p s) (run : rest.check s = .ok () s')
    (later : s'.symbols.Later t) (fresh : clean → s.symbols.Unregistered rest.braces) :
    ∀ x ∈ rest.located p, Visited clean t p s.symbols.current x := by
  cases rest <;> (rw [Branches.braces] at fresh; rw [Branches.located])
  case done =>
    intro x member
    cases member
  case otherwise pos body =>
    rw [Branches.check] at run
    exact .ofBlock (body.check_visits standing.wellFormed (.enter standing.wellFormed)
      (standing.enter body) run later fresh)
  case elseIf pos cond body rest =>
    rw [Branches.check] at run
    obtain ⟨s₁, s₂, arm⟩ := standing.arm run
    have fresh₁ : clean → s₁.symbols.Unregistered (body.braces ++ rest.braces) := fun clean =>
      (fresh clean).kept arm.first.table
    intro x member
    rw [← arm.first.table.current]
    rcases List.mem_append.mp member with member | member
    · exact .ofBlock (body.check_visits arm.standing₁.wellFormed (.enter arm.standing₁.wellFormed)
        (arm.standing₁.enter body) arm.checked (.of_declares arm.third.table later)
        fun clean => (fresh₁ clean).left) x member
    · rw [← arm.second.table.current]
      exact rest.check_visits arm.standing₂ arm.arms later
        (fun clean => (fresh₁ clean).right arm.second.table) x member

end

end Samo
