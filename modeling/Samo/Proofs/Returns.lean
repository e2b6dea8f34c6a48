import Samo.Proofs.Acceptance
import Samo.Proofs.Sites

/-!
# Returns, when their function ends

The value of a return is settled only when its function ends, by a second visit of the body. This
file joins the two visits: every return of a program is a site of its function's body
(`Block.located_reached`), the second visit finds the scope that the first one made for the block
around it, and there the value has the function's type (`Program.Accepted.returned`).
-/

namespace Samo

open Check

/-! ## From places to sites -/

/--
A statement that is found from a place on, among located statements: it is in the same function and
is a site, under the braces of the blocks between, or it is in the body of a function among them.
-/
def Reached (p : Place) (located : List (Place × Stmt)) (sites : List (List Pos × Stmt))
    (x : Place × Stmt) : Prop :=
  (x.1.function = p.function ∧
    ∃ fs, x.1.frames = fs ++ p.frames ∧ ((fs.map Frame.start).reverse, x.2) ∈ sites) ∨
  ∃ q pos h body, (q, Stmt.define pos h body) ∈ located ∧
    x ∈ body.located (q.inFunction h body) ∧ x.1.function = some h

namespace Reached

variable {p : Place} {located located' : List (Place × Stmt)}
  {sites sites' : List (List Pos × Stmt)} {x : Place × Stmt}

theorem self {stmt : Stmt} (member : ([], stmt) ∈ sites) : Reached p located sites (p, stmt) :=
  .inl ⟨rfl, [], rfl, member⟩

theorem mono (reached : Reached p located sites x) (more : located ⊆ located')
    (more' : sites ⊆ sites') : Reached p located' sites' x := by
  rcases reached with ⟨function, fs, frames, member⟩ | ⟨q, pos, h, body, member, inside, function⟩
  · exact .inl ⟨function, fs, frames, more' member⟩
  · exact .inr ⟨q, pos, h, body, more member, inside, function⟩

/-- What is found from the start of a block on is found from outside, under the block's brace. -/
theorem enter {body : Block}
    (reached : Reached (p.enter body) located (Stmt.sitesAll body.stmts) x) :
    Reached p located body.sites x := by
  rcases reached with ⟨function, fs, frames, member⟩ | inner
  · refine .inl ⟨function, fs ++ [⟨body.start, Stmt.declaresAll body.stmts⟩], ?_, ?_⟩
    · rw [frames]
      simp [Place.enter]
    · cases body with
      | mk start stop stmts =>
          rw [Block.sites]
          refine List.mem_map.mpr ⟨_, member, ?_⟩
          simp [Block.start]
  · exact .inr inner

/-- What is found from the start of a function on is in the body of a function. -/
theorem inFunction {pos : Pos} {h : Header} {body : Block}
    (here : (p, Stmt.define pos h body) ∈ located) (more : located' ⊆ located)
    (member : x ∈ body.located (p.inFunction h body))
    (reached : Reached (p.inFunction h body) located' sites x) : Reached p located sites' x := by
  rcases reached with ⟨function, -⟩ | ⟨q, pos', h', body', member', inside, function⟩
  · exact .inr ⟨p, pos, h, body, here, member, function⟩
  · exact .inr ⟨q, pos', h', body', more member', inside, function⟩

end Reached

mutual

theorem Stmt.located_reached {p : Place} (stmt : Stmt) :
    ∀ x ∈ stmt.located p, Reached p (stmt.located p) stmt.sites x := by
  cases stmt <;> rw [Stmt.located, Stmt.sites]
  case block body =>
    intro x member
    rcases List.mem_cons.mp member with rfl | member
    · exact .self List.mem_cons_self
    · exact (body.located_reached x member).enter.mono (List.subset_cons_self _ _)
        (List.subset_cons_self _ _)
  case define pos header body =>
    intro x member
    rcases List.mem_cons.mp member with rfl | member
    · exact .self List.mem_cons_self
    -- a visit stops at a function, whose body is reached from its own start
    · exact .inFunction List.mem_cons_self (List.subset_cons_self _ _) member
        (body.located_reached x member)
  case branch pos cond body rest =>
    intro x member
    rcases List.mem_cons.mp member with rfl | member
    · exact .self List.mem_cons_self
    rcases List.mem_append.mp member with member | member
    · refine (body.located_reached x member).enter.mono ?_ ?_
      · exact List.subset_cons_of_subset _ (List.subset_append_left _ _)
      · exact List.subset_cons_of_subset _
          (List.subset_cons_of_subset _ (List.subset_append_left _ _))
    · refine (rest.located_reached x member).mono ?_ ?_
      · exact List.subset_cons_of_subset _ (List.subset_append_right _ _)
      · exact List.subset_cons_of_subset _
          (List.subset_cons_of_subset _ (List.subset_append_right _ _))
  case loop pos cond body =>
    intro x member
    rcases List.mem_cons.mp member with rfl | member
    · exact .self List.mem_cons_self
    · have inside : Reached p (body.located (p.inLoop.enter body)) body.sites x :=
        .enter (body.located_reached x member)
      exact inside.mono (List.subset_cons_self _ _)
        (List.subset_cons_of_subset _ (List.subset_cons_self _ _))
  case maybe pos probability body =>
    intro x member
    rcases List.mem_cons.mp member with rfl | member
    · exact .self List.mem_cons_self
    · exact (body.located_reached x member).mono (List.subset_cons_self _ _)
        (List.subset_cons_self _ _)
  case maybeOtherwise pos probability body otherwisePos alternative =>
    intro x member
    rcases List.mem_cons.mp member with rfl | member
    · exact .self List.mem_cons_self
    rcases List.mem_append.mp member with member | member
    · exact (body.located_reached x member).mono
        (List.subset_cons_of_subset _ (List.subset_append_left _ _))
        (List.subset_cons_of_subset _ (List.subset_append_left _ _))
    · have later : Reached p (alternative.located (p.after body)) alternative.sites x :=
        alternative.located_reached x member
      exact later.mono (List.subset_cons_of_subset _ (List.subset_append_right _ _))
        (List.subset_cons_of_subset _ (List.subset_append_right _ _))
  case declare | infer | assign | call | breakOut | continueOn | returnWith | needs | bad =>
    intro x member
    rw [List.mem_singleton.mp member]
    exact .self List.mem_cons_self

/-- The statements of a block, found from its start on. -/
theorem Block.located_reached {q : Place} (body : Block) :
    ∀ x ∈ body.located q, Reached q (body.located q) (Stmt.sitesAll body.stmts) x := by
  cases body with
  | mk start stop stmts =>
      rw [Block.located]
      exact Stmt.locatedAll_reached stmts

theorem Stmt.locatedAll_reached {p : Place} (stmts : List Stmt) :
    ∀ x ∈ Stmt.locatedAll p stmts,
      Reached p (Stmt.locatedAll p stmts) (Stmt.sitesAll stmts) x := by
  cases stmts with
  | nil =>
      rw [Stmt.locatedAll]
      intro x member
      cases member
  | cons stmt stmts =>
      rw [Stmt.locatedAll, Stmt.sitesAll]
      intro x member
      rcases List.mem_append.mp member with member | member
      · exact (stmt.located_reached x member).mono (List.subset_append_left _ _)
          (List.subset_append_left _ _)
      · have later : Reached p (Stmt.locatedAll (p.after stmt) stmts) (Stmt.sitesAll stmts) x :=
          Stmt.locatedAll_reached stmts x member
        exact later.mono (List.subset_append_right _ _) (List.subset_append_right _ _)

theorem Branches.located_reached {p : Place} (rest : Branches) :
    ∀ x ∈ rest.located p, Reached p (rest.located p) rest.sites x := by
  cases rest with
  | done =>
      rw [Branches.located]
      intro x member
      cases member
  | otherwise pos body =>
      rw [Branches.located, Branches.sites]
      intro x member
      exact (body.located_reached x member).enter.mono (List.Subset.refl _)
        (List.subset_cons_self _ _)
  | elseIf pos cond body rest =>
      rw [Branches.located, Branches.sites]
      intro x member
      rcases List.mem_append.mp member with member | member
      · exact (body.located_reached x member).enter.mono (List.subset_append_left _ _)
          (List.subset_cons_of_subset _ (List.subset_append_left _ _))
      · exact (rest.located_reached x member).mono (List.subset_append_right _ _)
          (List.subset_cons_of_subset _ (List.subset_append_right _ _))

end

/-! ## The scope of the second visit -/

/-- Entering the scopes of blocks only moves around in the table. -/
theorem Check.State.enteringAll_eq (s : State) (starts : List Pos) :
    ∃ c resume, s.enteringAll starts =
      { s with symbols := { s.symbols with current := c, resume := resume } } := by
  induction starts generalizing s with
  | nil => exact ⟨s.symbols.current, s.symbols.resume, rfl⟩
  | cons start starts ih =>
      obtain ⟨c, resume, same⟩ := ih (s.entering start)
      refine ⟨c, resume, same.trans ?_⟩
      unfold entering
      cases jump : s.symbols.goTo? start with
      | none => rfl
      | some t =>
          obtain ⟨c', -, jump⟩ := Option.bind_eq_some_iff.mp jump
          obtain ⟨scope, -, jump⟩ := Option.bind_eq_some_iff.mp jump
          cases jump
          rfl

/-- The scope that is entered last is where a step starts. -/
theorem Check.State.enteringAll_concat {s : State} {start : Pos} {c : Coordinates} {scope : Scope}
    (registered : s.symbols.blocks.lookup start = some c)
    (found : s.symbols.scope? c = some scope) (starts : List Pos) :
    ∃ resume, s.enteringAll (starts ++ [start]) =
      { s with symbols := { s.symbols with current := c, resume := resume } } := by
  obtain ⟨c', resume, same⟩ := s.enteringAll_eq starts
  have jump : SymbolTable.goTo? { s.symbols with current := c', resume := resume } start =
      some { s.symbols with current := c, resume := c' :: resume } := by
    have found' : SymbolTable.scope? { s.symbols with current := c', resume := resume } c =
      some scope := found
    simp only [SymbolTable.goTo?, registered, found', Option.bind_eq_bind, Option.bind_some]
  refine ⟨c' :: resume, ?_⟩
  have last : s.enteringAll (starts ++ [start]) = (s.enteringAll starts).entering start := by
    rw [enteringAll, List.foldl_append]
    rfl
  rw [last, same, entering, jump]
  rfl

/-- From the innermost of some blocks the names of the blocks are visible, and those outside. -/
theorem SymbolTable.Framed.visible {t : SymbolTable} (wf : t.WellFormed) {fs : List Frame}
    {c c₀ : Coordinates} (framed : t.Framed fs c c₀) {name : String}
    (bound : (t.lookupFrom c name).isSome = true) :
    (t.lookupFrom c₀ name).isSome = true ∨ ∃ f ∈ fs, name ∈ f.names := by
  induction fs generalizing c with
  | nil =>
      obtain rfl : c = c₀ := framed
      exact .inl bound
  | cons f fs ih =>
      obtain ⟨p, ⟨-, s, found, above, names⟩, outer⟩ := framed
      rcases (lookupFrom_isSome_iff wf found name).mp bound with own | ⟨p', above', bound⟩
      · exact .inr ⟨f, List.mem_cons_self, names ▸ own⟩
      · rw [above] at above'
        cases above'
        rcases ih outer bound with outside | ⟨g, member, own⟩
        · exact .inl outside
        · exact .inr ⟨g, List.mem_cons_of_mem f member, own⟩

/-- A return that is right has a value if the function returns something, of the function's type. -/
theorem Check.sane_of_checkReturn {pos : Pos} {result : TypeName} {value : Option Expr}
    {s s' : State} (stop : s.engine.policy = .stop)
    (run : checkReturn pos result.ty value s = .ok true s') :
    (value = none ↔ result = .void) ∧ ∀ e ∈ value, e.Sane s.symbols.bindings result := by
  rcases checkReturn_ok run with
    ⟨rfl, void⟩ | ⟨e, type, d, s₁, s₂, rfl, same, detected, -, -, asked, folds⟩
  · cases result with
    | void => exact ⟨⟨fun _ => rfl, fun _ => rfl⟩, fun e member => nomatch member⟩
    | value type => cases void
  · cases result with
    | void => cases same
    | value type' =>
        cases same
        refine ⟨⟨nofun, nofun⟩, fun e' member => ?_⟩
        cases member
        have alike := e.detect_readsTable.alike detected
        rw [alike.table]
        exact (Expr.asked_of_accepts (alike.policy.symm.trans stop) asked).sane folds

/--
What is settled about a return at `p` when its function `h` ends, with the table `t₀`: its value has
the function's type in the scope `c` of the block around it. From there nothing is visible that is
not declared somewhere within the function or before it.
-/
structure Settled (t : SymbolTable) (p : Place) (value : Option Expr) (h : Header)
    (t₀ : SymbolTable) (c : Coordinates) : Prop where
  function : p.function = some h
  grows : t₀.Grows t
  registered : ∃ f fs, p.frames = f :: fs ∧ t₀.blocks.lookup f.start = some c
  visible : ∀ name, (t₀.lookupFrom c name).isSome = true → name ∈ p.within
  void : value = none ↔ h.result = .void
  typed : ∀ e ∈ value, e.HasType (t₀.bindingsAt c) h.result

namespace DefineRun

variable {h : Header} {body : Block} {s s' s₁ s₂ : State} {f : Function} {q : Place}

/-- The names that are visible where a function was defined, when the function ends. -/
theorem visible (whole : DefineRun h body s s' f s₁ s₂) (standing : Standing q s) (name : String) :
    (s₂.symbols.lookupFrom s.symbols.current name).isSome = true ↔
      name ∈ q.before ∨ name = h.name := by
  have declares := whole.named.trans whole.closes.declares
  rw [← declares.current, ← standing.visible]
  show (s₂.symbols.lookup name).isSome = true ↔ _
  rw [declares.visible standing.wellFormed]
  simp

/-- The body of a function has its scope when the function ends, and so have the blocks in it. -/
theorem visits {clean : Prop} (whole : DefineRun h body s s' f s₁ s₂) (standing : Standing q s)
    (fresh : clean → s.symbols.Unregistered body.braces) :
    (clean → s₂.symbols.FrameAt ⟨body.start, h.paramNames ++ Stmt.declaresAll body.stmts⟩
        (s₁.symbols.enter .resumeLast).current s.symbols.current) ∧
      ∀ x ∈ body.located (q.inFunction h body), Visited clean s₂.symbols (q.inFunction h body)
        (s₁.symbols.enter .resumeLast).current x := by
  obtain ⟨frame, visits⟩ := body.check_visits whole.named.wellFormed whole.opens
    (standing.inFunction whole) whole.checked (.refl s₂.symbols)
    fun clean => (fresh clean).kept whole.named
  rw [whole.named.current] at frame
  exact ⟨frame, visits⟩

/-- What stands in the body of a function is a site of it, as no function is inside another. -/
theorem site {x : Place × Stmt} {fs : List Frame} (whole : DefineRun h body s s' f s₁ s₂)
    (standing : Standing q s) (member : x ∈ body.located (q.inFunction h body))
    (frames : x.1.frames = fs ++ (q.inFunction h body).frames) :
    (body.start :: (fs.map Frame.start).reverse, x.2) ∈ body.sites := by
  rcases body.located_reached x member with
    ⟨-, gs, frames', member⟩ | ⟨q', pos, h', body', nested, -⟩
  · rw [frames] at frames'
    rw [List.append_cancel_right frames']
    cases body with
    | mk start stop stmts =>
        rw [Block.sites]
        exact List.mem_map.mpr ⟨_, member, rfl⟩
  · obtain ⟨a, a', gs, visit⟩ := (whole.visits standing False.elim).2 _ nested
    obtain ⟨f', r₁, r₂, whole'⟩ :=
      Stmt.define_ok visit.standing.stop visit.standing.wellFormed visit.run
    have known := visit.standing.function
    rw [whole'.outside, (visit.within rfl).1] at known
    cases known

/-- A return in the body of a function is settled when the function ends. -/
theorem settled {t : SymbolTable} {p : Place} {pos : Pos} {value : Option Expr}
    (whole : DefineRun h body s s' f s₁ s₂) (standing : Standing q s)
    (fresh : s.symbols.Unregistered body.braces) (grows : s'.symbols.Grows t)
    (member : (p, Stmt.returnWith pos value) ∈ body.located (q.inFunction h body)) :
    ∃ c, Settled t p value h s₂.symbols c := by
  obtain ⟨stop, table, ⟨r, right⟩, -⟩ := whole.returns
  obtain ⟨frame, visits⟩ := whole.visits standing fun _ : True => fresh
  obtain ⟨a, a', fs, visit⟩ := visits _ member
  obtain ⟨function, outer, inner⟩ := visit.within rfl
  -- the blocks around the return, the function's own block included
  let own : Frame := ⟨body.start, h.paramNames ++ Stmt.declaresAll body.stmts⟩
  have framed : s₂.symbols.Framed (fs ++ [own]) a.symbols.current s.symbols.current :=
    SymbolTable.framed_append.mpr ⟨_, visit.framed trivial, _, frame trivial, rfl⟩
  have declared : ∀ g ∈ fs ++ [own], ∀ name ∈ g.names, name ∈ p.within := by
    intro g member name declared
    rcases List.mem_append.mp member with member | member
    · exact inner g member name declared
    · rw [List.mem_singleton.mp member] at declared
      apply outer name
      show name ∈ q.before ++ h.name :: h.paramNames ++ Stmt.declaresAll body.stmts
      simp only [own, List.mem_append] at declared
      simp only [List.mem_append, List.mem_cons]
      tauto
  have frames : p.frames = (fs ++ [own]) ++ q.frames := by
    rw [visit.frames, List.append_assoc]
    rfl
  have site : (((fs ++ [own]).map Frame.start).reverse, Stmt.returnWith pos value) ∈
      body.sites := by
    have site := whole.site standing member visit.frames
    simpa [own] using site
  -- the second visit looks at it in the scope that the first one made for the innermost block
  obtain ⟨g, gs, split⟩ : ∃ g gs, fs ++ [own] = g :: gs :=
    List.exists_cons_of_ne_nil (List.append_ne_nil_of_right_ne_nil _ (List.cons_ne_nil _ _))
  rw [split] at framed frames site declared
  obtain ⟨above, ⟨registered, scope, found, -⟩, -⟩ := id framed
  rw [List.map_cons, List.reverse_cons] at site
  obtain ⟨r, checked⟩ := checkReturn_of_wellAt (checkReturns_ok right _ site)
  obtain ⟨resume, same⟩ := State.enteringAll_concat registered found (gs.map Frame.start).reverse
  rw [same] at checked
  obtain ⟨void, sane⟩ := sane_of_checkReturn (by exact stop) checked
  dsimp only at sane
  rw [SymbolTable.bindings_moved] at sane
  refine ⟨a.symbols.current, function, table ▸ grows, ⟨g, gs ++ q.frames, frames, registered⟩, ?_,
    void, fun e member => (sane e member).typed⟩
  intro name bound
  rcases framed.visible whole.closes.declares.wellFormed bound with outside | ⟨g', member, own⟩
  · apply outer name
    show name ∈ q.before ++ h.name :: h.paramNames ++ Stmt.declaresAll body.stmts
    rcases (whole.visible standing name).mp outside with before | rfl
    · simp [before]
    · simp
  · exact declared g' member name own

end DefineRun

/-- Every return of an accepted program stands in the body of a function. -/
theorem Program.Accepted.defined {program : Program} {o : Options} {file : String}
    {builtins : Registry} {log : Log}
    (accepted : program.Accepted (o.initialState file builtins log)) {p : Place} {pos : Pos}
    {value : Option Expr} (member : (p, Stmt.returnWith pos value) ∈ program.located) :
    ∃ q pos' h body, (q, Stmt.define pos' h body) ∈ program.located ∧
      (p, Stmt.returnWith pos value) ∈ body.located (q.inFunction h body) := by
  obtain ⟨s, s', fs, visit⟩ := accepted.visits _ member
  have inside : p.function.isSome = true := by
    rw [← visit.standing.function]
    exact (Stmt.returnWith_ok visit.standing.stop visit.run).1
  rcases Stmt.locatedAll_reached program _ member with
    ⟨outside, -⟩ | ⟨q, pos', h, body, defined, member, -⟩
  · rw [outside] at inside
    cases inside
  · exact ⟨q, pos', h, body, defined, member⟩

/-- Every return of an accepted program is settled when its function ends. -/
theorem Program.Accepted.returned {program : Program} {o : Options} {file : String}
    {builtins : Registry} {log : Log}
    (accepted : program.Accepted (o.initialState file builtins log))
    (distinct : program.DistinctBlocks) {p : Place} {pos : Pos} {value : Option Expr}
    (member : (p, Stmt.returnWith pos value) ∈ program.located) :
    ∃ h t₀ c,
      Settled (program.checked (o.initialState file builtins log)).symbols p value h t₀ c := by
  obtain ⟨q, pos', h, body, defined, member⟩ := accepted.defined member
  obtain ⟨s, s', fs, visit⟩ := accepted.visits _ defined
  obtain ⟨f, s₁, s₂, whole⟩ :=
    Stmt.define_ok visit.standing.stop visit.standing.wellFormed visit.run
  obtain ⟨c, settled⟩ :=
    whole.settled visit.standing (visit.fresh distinct) visit.later.grows member
  exact ⟨h, s₂.symbols, c, settled⟩

end Samo
