import Samo.Proofs.Shadowing
import Samo.Proofs.Unwinding

/-!
# The state of a check is balanced

A statement that gets to its end leaves the state of the check where it was, and on the way out of a
halted one the surroundings are restored too (`Unwinding`). What remains is the current scope of a
halted check. On the way out each block leaves one scope, and that is its own, with one exception:
the scope of a function's parameters is not left when one of them halts the check, so every block
around leaves the scope inside of its own. A check that is halted at a parameter ends one level
below the scope it started in, on the way from the parameters outwards (`Moment.Strays`).

If the check of a part gets to its end, so did the check of every part in it. What holds at the end
of the part inside holds later: the table has only grown since, and nothing recorded was lost
(`Moment.Next.finishes`). So on the way to a quiet end everything is quiet.
-/

namespace Samo

/-- A scope is another one or lies around it. -/
def SymbolTable.Encloses (t : SymbolTable) (outer inner : Coordinates) : Prop :=
  Relation.ReflTransGen (fun c p => ∃ s, t.scope? c = some s ∧ s.parent = some p) inner outer

namespace Check

variable {s s' : State} {pos : Pos} {h : Header} {halt : Halt}

/-! ## Where the start of a function is halted -/

theorem Leaves.halted {α : Type} {m : Check α} (stays : Leaves State.Stays m)
    (run : m s = .error halt s') : s'.symbols.current = s.symbols.current := by
  have kept := stays s
  rw [run] at kept
  exact kept.current

/-- A function of this name can be defined here. -/
structure State.Admits (s : State) (h : Header) : Prop where
  outside : s.currentFunction = none
  allowed : s.symbols.isBuiltin h.name = false
  fresh : s.symbols.lookup h.name = none

/-- The start of a function is halted with its parameters. -/
theorem beginFunction_halts (admits : s.Admits h)
    (halted : declareParams h.name h.params (s.declaring h) = .error halt s') :
    beginFunction pos h s = .error halt s' := by
  unfold beginFunction
  rw [bind_ok (get_run s), if_neg (by simp [admits.outside]), bind_ok (symbols_run s),
    if_neg (by simp [admits.allowed]), bind_ok (lookup_run h.name s), admits.fresh]
  exact (bind_ok rfl).trans ((bind_ok rfl).trans (bind_error halted))

/-- The start of a function is halted at its name, in the current scope, or with its parameters. -/
theorem beginFunction_error (halted : beginFunction pos h s = .error halt s') :
    s'.symbols.current = s.symbols.current ∨
      s.Admits h ∧ declareParams h.name h.params (s.declaring h) = .error halt s' := by
  have rejected : ∀ pos p,
      Leaves State.Stays (fatal pos p >>= fun _ => pure (none : Option Function)) :=
    fun pos p => (Leaves.fatal pos p).bind fun _ => .pure none
  unfold beginFunction at halted
  rw [bind_ok (get_run s)] at halted
  split at halted
  · exact .inl ((rejected _ _).halted halted)
  next outside =>
  rw [bind_ok (symbols_run s)] at halted
  by_cases builtin : s.symbols.isBuiltin h.name = true
  · rw [if_pos builtin] at halted
    exact .inl ((rejected _ _).halted halted)
  rw [if_neg builtin, bind_ok (lookup_run h.name s)] at halted
  cases fresh : s.symbols.lookup h.name with
  | some previous =>
      rw [fresh] at halted
      exact .inl ((rejected _ _).halted halted)
  | none =>
      rw [fresh] at halted
      have admits : s.Admits h := ⟨by simpa using outside, Bool.eq_false_iff.mpr builtin, fresh⟩
      refine .inr ⟨admits, ?_⟩
      rcases bind_eq_error_iff.mp halted with never | ⟨u, s₁, logged, halted⟩
      · cases never
      rcases bind_eq_error_iff.mp halted with never | ⟨u, s₂, entered, halted⟩
      · cases never
      cases logged
      cases entered
      rcases bind_eq_error_iff.mp halted with parameters | ⟨params, r, -, after⟩
      · exact parameters
      · cases params with
        | none => cases after
        | some qs => cases after

end Check

open Check

/-- How much there is to check in a part. -/
noncomputable def Part.size : Part → Nat
  | stmt st => sizeOf st
  | block _ body => sizeOf body
  | stmts sts => sizeOf sts
  | branches rest => sizeOf rest

/-- The surroundings of a part are as they were, wherever its check ends. -/
theorem Part.check_steady (part : Part) : Leaves State.Steady part.check := by
  cases part with
  | stmt st => exact st.check_steady
  | block mode body => exact body.check_steady mode
  | stmts sts => exact Stmt.checkAll_steady sts
  | branches rest => exact rest.check_steady

theorem Check.Modest.declares {m : Check Unit} (modest : Modest m) {s s' : State}
    (wf : s.symbols.WellFormed) (run : m s = .ok () s') :
    ∃ names starts, s.symbols.Declares s'.symbols names starts :=
  (modest s s' () wf run).table.declares

/-- A function is begun in the current scope. -/
theorem Check.Begins.declares {h : Header} {s s' : State} {f : Function} {t : SymbolTable}
    {params : List Symbol} (wf : s.symbols.WellFormed) (begins : Begins h s s' f t params) :
    ∃ names starts, s.symbols.Declares s'.symbols names starts := by
  have added := begins.adds.declares (SymbolTable.Opens.enter wf).wellFormed
  have left := SymbolTable.Declares.of_leave_params wf added
  obtain ⟨fresh, allowed⟩ := SymbolTable.free_leave_params wf begins.fresh begins.allowed added
  rw [begins.table]
  exact ⟨_, _, left.trans (.insert left.wellFormed fresh allowed)⟩

namespace Moment

variable {m m' : Moment}

/-- One part leads to the next by entering the scope of a block, or with declarations in the current
scope. -/
theorem Next.table (next : Next m m') (wf : m.state.symbols.WellFormed) :
    (∃ mode body, m.part = .block mode body ∧ m'.state.symbols = m.state.symbols.enter mode) ∨
      (m.part.unwind = id ∧
        ∃ names starts, m.state.symbols.Declares m'.state.symbols names starts) := by
  -- only a block enters a scope; every other step passes through declarations alone
  cases next with
  | first => exact .inr ⟨rfl, [], [], .refl wf⟩
  | @others st sts s s' done => exact .inr ⟨rfl, st.check_modest.declares wf done⟩
  | enter => exact .inl ⟨_, _, rfl, rfl⟩
  | block => exact .inr ⟨rfl, [], [], .refl wf⟩
  | function begun =>
      rcases beginFunction_cases wf begun with ⟨none, -⟩ | ⟨f, t, params, -, begins⟩
      · cases none
      · have declares := begins.declares wf
        exact .inr ⟨rfl, declares⟩
  | @branch pos cond body rest s s' condition =>
      have asks := Modest.of_readsTable (.checkCondition pos .ifWord cond)
      exact .inr ⟨rfl, asks.declares wf condition⟩
  | @arms pos cond body rest s s₁ s₂ condition done =>
      have asks := Modest.of_readsTable (.checkCondition pos .ifWord cond)
      have both := asks.bind fun _ => body.check_modest
      exact .inr ⟨rfl, both.declares wf ((bind_ok condition).trans done)⟩
  | otherwise => exact .inr ⟨rfl, [], [], .refl wf⟩
  | @elseIf pos cond body rest s s' condition =>
      have asks := Modest.of_readsTable (.checkCondition pos .ifWord cond)
      exact .inr ⟨rfl, asks.declares wf condition⟩
  | @moreArms pos cond body rest s s₁ s₂ condition done =>
      have asks := Modest.of_readsTable (.checkCondition pos .ifWord cond)
      have both := asks.bind fun _ => body.check_modest
      exact .inr ⟨rfl, both.declares wf ((bind_ok condition).trans done)⟩
  | @loop pos cond body s s' condition =>
      have asks := Modest.of_readsTable (.checkCondition pos .whileWord cond)
      have declares := asks.declares wf condition
      exact .inr ⟨rfl, declares⟩
  | @maybe pos e body s s₁ s₂ chance probable =>
      have both := (Modest.of_readsTable (.checkProbability pos body.isCompound e)).bind fun _ =>
        .of_readsTable (.checkProbable pos body)
      have declares := both.declares wf ((bind_ok chance).trans probable)
      exact .inr ⟨rfl, declares⟩
  | @maybeBody pos e body otherwisePos alternative s s₁ s₂ chance feasible =>
      have both := (Modest.of_readsTable (.checkProbability pos body.isCompound e)).bind fun _ =>
        .checkAlternatives pos body otherwisePos alternative
      have declares := both.declares wf ((bind_ok chance).trans feasible)
      exact .inr ⟨rfl, declares⟩
  | @alternative pos e body otherwisePos alternative s s₁ s₂ s₃ chance feasible done =>
      have both := (Modest.of_readsTable (.checkProbability pos body.isCompound e)).bind fun _ =>
        .checkAlternatives pos body otherwisePos alternative
      obtain ⟨names, starts, first⟩ := both.declares wf ((bind_ok chance).trans feasible)
      obtain ⟨names', starts', second⟩ :=
        body.check_modest.declares (by exact first.wellFormed) done
      exact .inr ⟨rfl, _, _, first.trans second⟩

/-- The scope that a block enters is one below the current scope. -/
def Anchored (m : Moment) : Prop :=
  ∀ mode body, m.part = .block mode body → ∃ scope,
    (m.state.symbols.enter mode).currentScope? = some scope ∧
      scope.parent = some m.state.symbols.current

/-- What holds at the moments of a run: blocks enter scopes below the current one. -/
structure Sound (m : Moment) : Prop where
  ready : m.Ready
  wellFormed : m.state.symbols.WellFormed
  anchored : m.Anchored

theorem Next.anchored (next : Next m m') (wf : m.state.symbols.WellFormed) : m'.Anchored := by
  intro mode body inside
  rcases next.table wf with ⟨mode', body', part, -⟩ | ⟨-, names, starts, declares⟩
  · -- a block leads to its statements
    cases next <;> cases part
    cases inside
  cases mode with
  | new => exact ⟨_, SymbolTable.currentScope?_enter_new declares.wellFormed, rfl⟩
  | resumeLast =>
      cases next with
      | function begun =>
          rcases beginFunction_cases wf begun with ⟨none, -⟩ | ⟨f, t, params, -, begins⟩
          · cases none
          · obtain ⟨-, resumed, -⟩ := begins.scope wf
            exact ⟨_, resumed, congrArg some declares.current.symm⟩
      | _ => cases inside

theorem Next.sound (next : Next m m') (sound : m.Sound) : m'.Sound := by
  refine ⟨next.ready sound.ready, ?_, next.anchored sound.wellFormed⟩
  rcases next.table sound.wellFormed with ⟨mode, body, part, entered⟩ | ⟨-, names, starts, declares⟩
  · have ready := sound.ready
    rw [Ready, part] at ready
    rw [entered]
    exact ready.wellFormed
  · exact declares.wellFormed

/-! ## On the way out -/

variable {h : Halt} {r s' : State}

/-- The definition of a function that is halted at one of its parameters, and the scope in which
they are declared. -/
inductive HaltsDeclaring : Moment → Coordinates → Prop
  | intro {pos header body s h r} : s.Admits header →
      declareParams header.name header.params (s.declaring header) = .error h r →
      HaltsDeclaring ⟨.stmt (.define pos header body), s⟩ (s.symbols.enter .new).current

/-- A table whose current scope is one below that of a moment, on the way outwards from another. -/
structure Strays (m : Moment) (t : SymbolTable) (c : Coordinates) : Prop where
  depth : t.current.depth = m.state.symbols.current.depth + 1
  below : ∃ scope, t.currentScope? = some scope ∧ scope.parent = some m.state.symbols.current
  encloses : t.Encloses t.current c

/-- What one part makes of the current scope when the next one is halted: a block leaves a scope,
and everything else leaves the table as it is. -/
theorem Next.unwinds_current (next : Next m m') (sound : m.Sound)
    (halted : m'.part.check m'.state = .error h r) :
    ∃ s', m.part.check m.state = .error h s' ∧
      (r.symbols.current = m'.state.symbols.current →
        s'.symbols.current = m.state.symbols.current) ∧
      ∀ c, m'.Strays r.symbols c → m.Strays s'.symbols c := by
  obtain ⟨s', out, table⟩ := next.unwinds halted
  refine ⟨s', out, ?_⟩
  rcases next.table sound.wellFormed with ⟨mode, body, part, entered⟩ | ⟨same, _, _, declares⟩
  · obtain ⟨scope, here, above⟩ := sound.anchored mode body part
    rw [← entered] at here
    have kept := m'.part.check_steady m'.state
    rw [halted] at kept
    obtain ⟨scope', there, same⟩ := kept.scopes _ scope here
    replace table : s'.symbols = r.symbols.leave := by
      rw [table, part]
      rfl
    constructor
    · intro stays
      have current : r.symbols.currentScope? = some scope' := by
        rw [SymbolTable.currentScope?, stays]
        exact there
      rw [table, SymbolTable.leave_eq current (same.trans above)]
    · intro c strays
      obtain ⟨inner, current, parent⟩ := strays.below
      rw [table, SymbolTable.leave_eq current parent]
      have deeper := (next.sound sound).wellFormed.parent_found here above
      exact ⟨deeper.1, ⟨scope', there, same.trans above⟩,
        strays.encloses.tail ⟨inner, current, parent⟩⟩
  · rw [table, same]
    constructor
    · intro stays
      rw [id, stays, declares.current]
    · intro c strays
      have depth := strays.depth
      have below := strays.below
      rw [declares.current] at depth below
      exact ⟨depth, below, strays.encloses⟩

/-- A definition that is halted at a parameter ends in the scope of the parameters. -/
theorem HaltsDeclaring.strays {c : Coordinates} (declaring : m.HaltsDeclaring c) (sound : m.Sound) :
    ∃ h s', m.part.check m.state = .error h s' ∧ m.Strays s'.symbols c := by
  cases declaring with
  | @intro pos header body s h r admits halted =>
      have wf : s.symbols.WellFormed := sound.wellFormed
      have out : (Stmt.define pos header body).check s = .error h r := by
        rw [Stmt.check, bind_error (beginFunction_halts admits halted)]
      have stays : State.Stays _ _ :=
        Leaves.declareParams header.name header.params (s.declaring header)
      rw [halted] at stays
      have current : r.symbols.current = (s.symbols.enter .new).current := stays.current
      obtain ⟨scope, there, same⟩ := stays.scopes _ _ (SymbolTable.currentScope?_enter_new wf)
      refine ⟨h, r, out, ?_, ⟨scope, ?_, same⟩, ?_⟩
      · rw [current]
        rfl
      · rw [SymbolTable.currentScope?, current]
        exact there
      · rw [current]
        exact .refl

/-- A check that comes to a parameter that halts it ends on the way out from there. -/
theorem strays_of_declaring {c : Coordinates} (steps : Relation.ReflTransGen Next m m')
    (declaring : m'.HaltsDeclaring c) (sound : m.Sound) :
    ∃ h s', m.part.check m.state = .error h s' ∧ m.Strays s'.symbols c := by
  induction steps using Relation.ReflTransGen.head_induction_on with
  | refl => exact declaring.strays sound
  | head next _ ih =>
      obtain ⟨h, r, halted, strays⟩ := ih (next.sound sound)
      obtain ⟨s', out, -, further⟩ := next.unwinds_current sound halted
      exact ⟨h, s', out, further c strays⟩

/-! ## Where a check is halted -/

/-- A halted part is halted where it stands, at a parameter, or in the next part. -/
def HaltedWithin (m : Moment) (h : Halt) (s' : State) : Prop :=
  s'.symbols.current = m.state.symbols.current ∨ (∃ c, m.HaltsDeclaring c) ∨
    ∃ m', Next m m' ∧ m'.Halts h

section

variable {s : State}

theorem define_halted {pos : Pos} {header : Header} {body : Block} (wf : s.symbols.WellFormed)
    (halted : (Stmt.define pos header body).check s = .error h s') :
    HaltedWithin ⟨.stmt (.define pos header body), s⟩ h s' := by
  rw [Stmt.check] at halted
  rcases bind_eq_error_iff.mp halted with start | ⟨found, s₁, begun, halted⟩
  · rcases beginFunction_error start with stays | ⟨admits, parameters⟩
    · exact .inl stays
    · exact .inr (.inl ⟨_, .intro admits parameters⟩)
  cases found with
  | none => cases halted
  | some f =>
      rcases bind_eq_error_iff.mp halted with inside | ⟨u, s₂, inside, ended⟩
      · rw [inFunction, bind_ok (get_run s₁)] at inside
        exact .inr (.inr ⟨_, .function begun, halts_of_surrounded inside⟩)
      · -- the function is complete, and what is wrong with it is found in the scope of its name
        rcases beginFunction_cases wf begun with ⟨none, -⟩ | ⟨g, t, params, same, begins⟩
        · cases none
        cases same
        obtain ⟨s₃, checked, rfl⟩ := inFunction_ok inside
        have named := SymbolTable.Declares.insert wf begins.fresh begins.allowed
        have opens := begins.opens wf
        obtain ⟨table, -⟩ := body.check_unhiding named.wellFormed (by exact opens) checked
        obtain ⟨_, _, declares⟩ := table.declares
        have stays := (Leaves.endFunction header body f).halted ended
        exact .inl (stays.trans (declares.current.trans named.current))

theorem stmt_halted (st : Stmt) (wf : s.symbols.WellFormed) (halted : st.check s = .error h s') :
    HaltedWithin ⟨.stmt st, s⟩ h s' := by
  -- a question halts where it stands, and what is nested is the next part
  cases st with
  | block body =>
      rw [Stmt.check] at halted
      exact .inr (.inr ⟨_, .block, s', halted⟩)
  | define pos header body => exact define_halted wf halted
  | branch pos cond body rest =>
      rw [Stmt.check] at halted
      rcases bind_eq_error_iff.mp halted with asked | ⟨u, s₁, asked, halted⟩
      · exact .inl ((Leaves.of_readsTable (.checkCondition pos .ifWord cond)).halted asked)
      rcases bind_eq_error_iff.mp halted with inside | ⟨u, s₂, done, halted⟩
      · exact .inr (.inr ⟨_, .branch asked, s', inside⟩)
      · exact .inr (.inr ⟨_, .arms asked done, s', halted⟩)
  | loop pos cond body =>
      rw [Stmt.check] at halted
      rcases bind_eq_error_iff.mp halted with asked | ⟨u, s₁, asked, halted⟩
      · exact .inl ((Leaves.of_readsTable (.checkCondition pos .whileWord cond)).halted asked)
      · exact .inr (.inr ⟨_, .loop asked, halts_of_surrounded halted⟩)
  | maybe pos e body =>
      rw [Stmt.check] at halted
      have asks : Leaves State.Stays _ :=
        .of_readsTable (.checkProbability pos body.isCompound e)
      rcases bind_eq_error_iff.mp halted with chance | ⟨u, s₁, chance, halted⟩
      · exact .inl (asks.halted chance)
      rcases bind_eq_error_iff.mp halted with probable | ⟨u, s₂, probable, halted⟩
      · have both := asks.bind fun _ => Leaves.of_readsTable (.checkProbable pos body)
        exact .inl (both.halted ((bind_ok chance).trans probable))
      · exact .inr (.inr ⟨_, .maybe chance probable, halts_of_surrounded halted⟩)
  | maybeOtherwise pos e body otherwisePos alternative =>
      rw [Stmt.check] at halted
      have asks : Leaves State.Stays _ :=
        .of_readsTable (.checkProbability pos body.isCompound e)
      rcases bind_eq_error_iff.mp halted with chance | ⟨u, s₁, chance, halted⟩
      · exact .inl (asks.halted chance)
      rcases bind_eq_error_iff.mp halted with feasible | ⟨u, s₂, feasible, halted⟩
      · have both := asks.bind fun _ => Leaves.checkAlternatives pos body otherwisePos alternative
        exact .inl (both.halted ((bind_ok chance).trans feasible))
      obtain ⟨s₃, inside⟩ := halts_of_surrounded halted
      rcases bind_eq_error_iff.mp inside with first | ⟨u, s₄, done, second⟩
      · exact .inr (.inr ⟨_, .maybeBody chance feasible, s₃, first⟩)
      · exact .inr (.inr ⟨_, .alternative chance feasible done, s₃, second⟩)
  | declare | infer | assign | call | breakOut | continueOn | returnWith | needs | bad =>
      exact .inl ((Stmt.check_stays _ rfl).halted halted)

end

/-- A halted check is halted where it stands, at a parameter, or in the next part. -/
theorem haltedWithin (sound : m.Sound) (halted : m.part.check m.state = .error h s') :
    m.HaltedWithin h s' := by
  obtain ⟨part, s⟩ := m
  cases part with
  | stmt st => exact stmt_halted st sound.wellFormed halted
  | block mode body =>
      cases body with
      | mk start final sts =>
          dsimp only [Part.check] at halted
          rw [Block.check] at halted
          obtain ⟨r, inside⟩ := halts_of_surrounded halted
          rcases bind_eq_error_iff.mp inside with inside | ⟨u, s₁, -, never⟩
          · exact .inr (.inr ⟨_, .enter, r, inside⟩)
          -- registering the block and leaving it cannot halt
          · cases never
  | stmts sts =>
      dsimp only [Part.check] at halted
      cases sts with
      | nil =>
          rw [Stmt.checkAll] at halted
          cases halted
      | cons st sts =>
          rw [Stmt.checkAll] at halted
          rcases bind_eq_error_iff.mp halted with inside | ⟨u, s₁, done, halted⟩
          · exact .inr (.inr ⟨_, .first, s', inside⟩)
          · exact .inr (.inr ⟨_, .others done, s', halted⟩)
  | branches rest =>
      dsimp only [Part.check] at halted
      cases rest with
      | done =>
          rw [Branches.check] at halted
          cases halted
      | otherwise pos body =>
          rw [Branches.check] at halted
          exact .inr (.inr ⟨_, .otherwise, s', halted⟩)
      | elseIf pos cond body rest =>
          rw [Branches.check] at halted
          rcases bind_eq_error_iff.mp halted with asked | ⟨u, s₁, asked, halted⟩
          · exact .inl ((Leaves.of_readsTable (.checkCondition pos .ifWord cond)).halted asked)
          rcases bind_eq_error_iff.mp halted with inside | ⟨u, s₂, done, halted⟩
          · exact .inr (.inr ⟨_, .elseIf asked, s', inside⟩)
          · exact .inr (.inr ⟨_, .moreArms asked done, s', halted⟩)

theorem Next.size_lt (next : Next m m') : m'.part.size < m.part.size := by
  cases next <;> simp [Part.size] <;> omega

/-- A halted check ends in the scope it started in, unless it came to a parameter that halts it. -/
theorem current_or_declaring (sound : m.Sound) (halted : m.part.check m.state = .error h s') :
    s'.symbols.current = m.state.symbols.current ∨
      ∃ m' c, Relation.ReflTransGen Next m m' ∧ m'.HaltsDeclaring c := by
  generalize size : m.part.size = n
  induction n using Nat.strong_induction_on generalizing m s' with
  | _ n ih =>
      rcases haltedWithin sound halted with stays | ⟨c, declaring⟩ | ⟨m', next, r, inside⟩
      · exact .inl stays
      · exact .inr ⟨m, c, .refl, declaring⟩
      · obtain ⟨s'', out, back, -⟩ := next.unwinds_current sound inside
        rw [halted] at out
        cases out
        rcases ih _ (size ▸ next.size_lt) (next.sound sound) inside rfl with stays | later
        · exact .inl (back stays)
        · obtain ⟨m'', c, steps, declaring⟩ := later
          exact .inr ⟨m'', c, steps.head next, declaring⟩

/-! ## Checks that get to their end -/

/-- The end of a block: its scope is filled, registered and left. -/
theorem Sound.left {mode : EntryMode} {start stop : Pos} {stmts : List Stmt} {s : State}
    (sound : Sound ⟨.block mode (.mk start stop stmts), s⟩)
    (run : (Block.mk start stop stmts).check mode s = .ok () r) :
    ∃ s₁, Stmt.checkAll stmts { s with symbols := s.symbols.enter mode } = .ok () s₁ ∧
      s₁.symbols.current = (s.symbols.enter mode).current ∧
      s₁.symbols.Left r.symbols start s.symbols.current ∧ s₁.Extends r := by
  obtain ⟨s₁, checked, rfl⟩ := Block.check_ok run
  have clear : State.Clear { s with symbols := s.symbols.enter mode } := sound.ready
  obtain ⟨names, starts, declares⟩ := (Stmt.checkAll_modest stmts).declares clear.wellFormed checked
  obtain ⟨scope, here, above⟩ := sound.anchored mode _ rfl
  obtain ⟨scope', here', above', -⟩ := declares.declared scope here
  refine ⟨s₁, checked, declares.current, ?_, .of_same rfl rfl⟩
  exact .of_parent declares.wellFormed here' (above'.trans above) start

theorem Sound.wellFormed_of_ok (sound : m.Sound) (run : m.part.check m.state = .ok () r) :
    r.symbols.WellFormed := by
  obtain ⟨part, s⟩ := m
  have wf : s.symbols.WellFormed := sound.wellFormed
  cases part with
  | stmt st =>
      obtain ⟨_, _, declares⟩ := st.check_modest.declares wf run
      exact declares.wellFormed
  | block mode body =>
      cases body with
      | mk start stop stmts =>
          obtain ⟨s₁, -, -, left, -⟩ := sound.left run
          exact left.wellFormed
  | stmts sts =>
      obtain ⟨_, _, declares⟩ := (Stmt.checkAll_modest sts).declares wf run
      exact declares.wellFormed
  | branches rest =>
      obtain ⟨_, _, declares⟩ := rest.check_modest.declares wf run
      exact declares.wellFormed

/-- If a part gets to its end, so does the next part in it, in an earlier state. -/
theorem Next.finishes (next : Next m m') (sound : m.Sound)
    (run : m.part.check m.state = .ok () r) :
    ∃ r', m'.part.check m'.state = .ok () r' ∧ r'.symbols.Grows r.symbols ∧ r'.Extends r := by
  have ended : ∀ r', m'.part.check m'.state = .ok () r' → r'.symbols.WellFormed :=
    fun r' run' => (next.sound sound).wellFormed_of_ok run'
  -- either nothing follows the next part, or what follows only adds to its state
  cases next with
  | @first st sts s =>
      dsimp only [Part.check] at run ended ⊢
      rw [Stmt.checkAll] at run
      obtain ⟨u, s₁, checked, others⟩ := bind_eq_ok_iff.mp run
      obtain ⟨_, _, declares⟩ := (Stmt.checkAll_modest sts).declares (ended s₁ checked) others
      exact ⟨s₁, checked, declares.grows, (Stmt.checkAll_disciplined sts).extends_of_ok others⟩
  | @others st sts s s' done =>
      dsimp only [Part.check] at run ⊢
      rw [Stmt.checkAll, bind_ok done] at run
      exact ⟨r, run, .refl _, .refl _⟩
  | enter =>
      dsimp only [Part.check] at run ⊢
      obtain ⟨s₁, checked, -, left, later⟩ := sound.left run
      exact ⟨s₁, checked, left.grows, later⟩
  | block =>
      dsimp only [Part.check] at run ⊢
      rw [Stmt.check] at run
      exact ⟨r, run, .refl _, .refl _⟩
  | @function pos header body s s' f begun =>
      dsimp only [Part.check] at run ended ⊢
      rw [Stmt.check, bind_ok begun] at run
      obtain ⟨u, s₂, inside, last⟩ := bind_eq_ok_iff.mp run
      obtain ⟨s₃, checked, rfl⟩ := inFunction_ok inside
      have wf : s₃.symbols.WellFormed := ended s₃ checked
      obtain ⟨_, _, declares⟩ := (Modest.endFunction header body f).declares (by exact wf) last
      have later := (Disciplined.endFunction header body f).extends_of_ok last
      exact ⟨s₃, checked, declares.grows, later.diagnostics, later.functions, later.counted⟩
  | @branch pos cond body rest s s' condition =>
      dsimp only [Part.check] at run ended ⊢
      rw [Stmt.check, bind_ok condition] at run
      obtain ⟨u, s₂, checked, arms⟩ := bind_eq_ok_iff.mp run
      obtain ⟨_, _, declares⟩ := rest.check_modest.declares (ended s₂ checked) arms
      exact ⟨s₂, checked, declares.grows, rest.check_disciplined.extends_of_ok arms⟩
  | arms condition done =>
      dsimp only [Part.check] at run ⊢
      rw [Stmt.check, bind_ok condition, bind_ok done] at run
      exact ⟨r, run, .refl _, .refl _⟩
  | otherwise =>
      dsimp only [Part.check] at run ⊢
      rw [Branches.check] at run
      exact ⟨r, run, .refl _, .refl _⟩
  | @elseIf pos cond body rest s s' condition =>
      dsimp only [Part.check] at run ended ⊢
      rw [Branches.check, bind_ok condition] at run
      obtain ⟨u, s₂, checked, arms⟩ := bind_eq_ok_iff.mp run
      obtain ⟨_, _, declares⟩ := rest.check_modest.declares (ended s₂ checked) arms
      exact ⟨s₂, checked, declares.grows, rest.check_disciplined.extends_of_ok arms⟩
  | moreArms condition done =>
      dsimp only [Part.check] at run ⊢
      rw [Branches.check, bind_ok condition, bind_ok done] at run
      exact ⟨r, run, .refl _, .refl _⟩
  | loop condition =>
      dsimp only [Part.check] at run ⊢
      rw [Stmt.check, bind_ok condition] at run
      obtain ⟨s₂, checked, rfl⟩ := inLoop_ok run
      exact ⟨s₂, checked, .refl _, .of_same rfl rfl⟩
  | maybe chance probable =>
      dsimp only [Part.check] at run ⊢
      rw [Stmt.check, bind_ok chance, bind_ok probable] at run
      obtain ⟨s₃, checked, rfl⟩ := inUncertainty_ok run
      exact ⟨s₃, checked, .refl _, .of_same rfl rfl⟩
  | @maybeBody pos e body otherwisePos alternative s s₁ s₂ chance feasible =>
      dsimp only [Part.check] at run ended ⊢
      rw [Stmt.check, bind_ok chance, bind_ok feasible] at run
      obtain ⟨s₃, inner, rfl⟩ := inUncertainty_ok run
      obtain ⟨u, s₄, checked, second⟩ := bind_eq_ok_iff.mp inner
      obtain ⟨_, _, declares⟩ := alternative.check_modest.declares (ended s₄ checked) second
      have later := alternative.check_disciplined.extends_of_ok second
      exact ⟨s₄, checked, declares.grows, later.trans (.of_same rfl rfl)⟩
  | alternative chance feasible done =>
      dsimp only [Part.check] at run ⊢
      rw [Stmt.check, bind_ok chance, bind_ok feasible] at run
      obtain ⟨s₃, inner, rfl⟩ := inUncertainty_ok run
      rw [bind_ok done] at inner
      exact ⟨s₃, inner, .refl _, .of_same rfl rfl⟩

/-- The same for every part that the check comes to. -/
theorem finishes_of_steps (steps : Relation.ReflTransGen Next m m') (sound : m.Sound)
    (run : m.part.check m.state = .ok () r) :
    m'.Sound ∧ ∃ r', m'.part.check m'.state = .ok () r' ∧ r'.symbols.Grows r.symbols ∧
      r'.Extends r := by
  induction steps with
  | refl => exact ⟨sound, r, run, .refl _, .refl _⟩
  | tail _ next ih =>
      obtain ⟨sound', r', run', grows, later⟩ := ih
      obtain ⟨r'', run'', grows', later'⟩ := next.finishes sound' run'
      exact ⟨next.sound sound', r'', run'', grows'.trans grows, later'.trans later⟩

/-- A definition leads to its body alone, once the function has begun. -/
theorem next_define_iff {pos : Pos} {h : Header} {body : Block} {s : State} :
    Next ⟨.stmt (.define pos h body), s⟩ m ↔ ∃ f s₁, beginFunction pos h s = .ok (some f) s₁ ∧
      m = ⟨.block .resumeLast body, { s₁ with currentFunction := some f, loopDepth := 0 }⟩ := by
  constructor
  · intro next
    cases next with
    | function begun => exact ⟨_, _, begun, rfl⟩
  · rintro ⟨f, s₁, begun, rfl⟩
    exact .function begun

/-! ## Whole runs -/

theorem sound_init (o : Options) (file : String) (builtins : Registry) (log : Log)
    (program : Program) : Sound ⟨.stmts program, o.initialState file builtins log⟩ := by
  refine ⟨ready_init o file builtins log program, SymbolTable.wellFormed_init builtins, ?_⟩
  intro mode body inside
  cases inside

theorem Of.sound {o : Options} {file : String} {builtins : Registry} {log : Log}
    {program : Program} (reached : Of program (o.initialState file builtins log) m) : m.Sound := by
  induction reached with
  | refl => exact sound_init o file builtins log program
  | tail _ next ih => exact next.sound ih

/-- A part is checked in a run from this very state on: if it is halted, so is the run, and if the
run gets to its end, so did the part, and what it left is still there. -/
structure CheckedIn (m : Moment) (program : Program) (s : State) : Prop where
  halts : ∀ h r, m.part.check m.state = .error h r → ∃ s', Stmt.checkAll program s = .error h s'
  finishes : ∀ s', Stmt.checkAll program s = .ok () s' →
    ∃ r, m.part.check m.state = .ok () r ∧ r.symbols.Grows s'.symbols ∧ r.Extends s'

theorem Of.checkedIn {o : Options} {file : String} {builtins : Registry} {log : Log}
    {program : Program} (reached : Of program (o.initialState file builtins log) m) :
    m.CheckedIn program (o.initialState file builtins log) := by
  refine ⟨fun h r halted => reached.halts ⟨r, halted⟩, fun s' run => ?_⟩
  exact (finishes_of_steps reached (sound_init o file builtins log program) run).2

end Moment

/-- Everything that the check of an accepted program comes to is checked quietly. -/
theorem Program.Accepted.finishes {program : Program} {o : Options} {file : String}
    {builtins : Registry} {log : Log} {m : Moment}
    (accepted : program.Accepted (o.initialState file builtins log))
    (reached : Moment.Of program (o.initialState file builtins log) m) :
    ∃ r, m.part.check m.state = .ok () r ∧ r.Quiet := by
  obtain ⟨_, run, quiet⟩ := accepted.quiet
  obtain ⟨-, r, done, -, later⟩ :=
    Moment.finishes_of_steps reached (Moment.sound_init o file builtins log program) run
  exact ⟨r, done, quiet.earlier later⟩

/-- A statement that gets to its end leaves its surroundings and the current scope as they were. -/
theorem Stmt.stays_of_ok {stmt : Stmt} {s s' : State} (wf : s.symbols.WellFormed)
    (run : stmt.check s = .ok () s') : s.Stays s' := by
  have steady := stmt.check_steady s
  rw [run] at steady
  obtain ⟨_, _, declares⟩ := stmt.check_modest.declares wf run
  exact ⟨steady, declares.current⟩

/-- The check of a definition does not get to the body: it ends the same with any other. -/
structure Header.Skips (h : Header) (pos : Pos) (body : Block) (s : State) : Prop where
  next : ∀ m, ¬ Moment.Next ⟨.stmt (.define pos h body), s⟩ m
  check : ∀ other, (Stmt.define pos h other).check s = (Stmt.define pos h body).check s

/-- The check of a definition in the state `s` is that of its body in the state `b`, and then of its
returns. The body starts in the very scope in which the parameters were declared. -/
structure Header.Visits (h : Header) (pos : Pos) (body : Block) (s b : State) : Prop where
  scope : ∃ params r, declareParams h.name h.params (s.declaring h) = .ok (some params) r ∧
    (b.symbols.enter .resumeLast).current = r.symbols.current ∧
    (b.symbols.enter .resumeLast).currentScope? = r.symbols.currentScope?
  next : ∀ m, Moment.Next ⟨.stmt (.define pos h body), s⟩ m ↔ m = ⟨.block .resumeLast body, b⟩
  check : ∃ f, b.currentFunction = some f ∧ (Stmt.define pos h body).check s = (do
    ensuring (body.check .resumeLast) fun s' =>
      { s' with currentFunction := none, loopDepth := s.loopDepth }
    endFunction h body f) b

theorem Header.skips_or_visits {s : State} (wf : s.symbols.WellFormed) (h : Header) (pos : Pos)
    (body : Block) : h.Skips pos body s ∨ ∃ b, h.Visits pos body s b := by
  cases begun : beginFunction pos h s with
  | error halt s₁ =>
      refine .inl ⟨?_, fun other => ?_⟩
      · simp [Moment.next_define_iff, begun]
      · rw [Stmt.check, Stmt.check, bind_error begun, bind_error begun]
  | ok found s₁ =>
      rcases beginFunction_cases wf begun with ⟨rfl, -⟩ | ⟨f, t, params, rfl, begins⟩
      · refine .inl ⟨?_, fun other => ?_⟩
        · simp [Moment.next_define_iff, begun]
        · rw [Stmt.check, Stmt.check, bind_ok begun, bind_ok begun]
      refine .inr ⟨{ s₁ with currentFunction := some f, loopDepth := 0 }, ?_, ?_, ?_⟩
      · obtain ⟨qs, r, declared, rfl⟩ := begins.declared
        obtain ⟨left, resumed, current⟩ := begins.scope wf
        have stays : State.Stays _ _ := Leaves.declareParams h.name h.params (s.declaring h)
        rw [declared] at stays
        exact ⟨qs, r, declared, current.trans stays.current.symm, resumed.trans left.symm⟩
      · simp [Moment.next_define_iff, begun]
      · refine ⟨f, rfl, ?_⟩
        rw [Stmt.check, bind_ok begun, ← begins.loops]
        rfl

/--
The state of a check is balanced, whatever the program, the built-in functions and the policy are. A
statement that gets to its end leaves the current scope, the frames to go back to, the depths and
the current function as they were. If the check of a definition gets to the body, it goes on as the
check of the body in the very scope in which the parameters were declared. After the check nothing
of its surroundings is left. The current scope is then the global one, unless the check was halted
while it declared the parameters of a function. Only the policy `stop` halts it there, and it ends
in the scope of depth one around them, which may be their own.
-/
theorem check_balanced (o : Options) (file : String) (builtins : Registry) (log : Log)
    (program : Program) :
    let s₀ := o.initialState file builtins log
    let final := program.checked s₀
    (∀ m, Moment.Of program s₀ m → m.CheckedIn program s₀) ∧
    (∀ stmt s s', Moment.Of program s₀ ⟨.stmt stmt, s⟩ → stmt.check s = .ok () s' → s.Stays s') ∧
    (∀ pos h body s, Moment.Of program s₀ ⟨.stmt (.define pos h body), s⟩ →
      h.Skips pos body s ∨ ∃ b, h.Visits pos body s b) ∧
    final.symbols.resume = [] ∧ final.loopDepth = 0 ∧ final.uncertainDepth = 0 ∧
    final.currentFunction = none ∧
    ((∀ m c, Moment.Of program s₀ m → ¬ m.HaltsDeclaring c) → final.symbols.current = .global) ∧
    ∀ m c, Moment.Of program s₀ m → m.HaltsDeclaring c → o.policy = .stop ∧
      final.symbols.current.depth = 1 ∧ final.symbols.Encloses final.symbols.current c := by
  intro s₀ final
  have sound := Moment.sound_init o file builtins log program
  have kept := Stmt.checkAll_steady program s₀
  obtain ⟨log', same⟩ := program.checked_eq s₀
  have steady : s₀.Steady final := by
    show s₀.Steady (program.checked s₀)
    rw [same]
    exact ⟨kept.resume, kept.loops, kept.chances, kept.function, kept.scopes⟩
  have table : final.symbols = (stateOf (Stmt.checkAll program s₀)).symbols := by
    show (program.checked s₀).symbols = _
    rw [same]
  refine ⟨fun m reached => reached.checkedIn,
    fun stmt s s' reached => Stmt.stays_of_ok reached.sound.wellFormed,
    fun pos h body s reached => h.skips_or_visits reached.sound.wellFormed pos body,
    steady.resume, steady.loops, steady.chances, steady.function, ?_, ?_⟩
  · intro never
    rw [table]
    cases run : Stmt.checkAll program s₀ with
    | ok u s' =>
        obtain ⟨_, _, declares⟩ := (Stmt.checkAll_modest program).declares sound.wellFormed run
        exact declares.current
    | error h s' =>
        rcases Moment.current_or_declaring sound run with stays | ⟨m, c, reached, declaring⟩
        · exact stays
        · exact absurd declaring (never m c reached)
  · intro m c reached declaring
    obtain ⟨h, s', halted, strays⟩ := Moment.strays_of_declaring reached declaring sound
    replace halted : Stmt.checkAll program s₀ = .error h s' := halted
    refine ⟨?_, ?_⟩
    · cases policy : o.policy with
      | stop => rfl
      | collect =>
          obtain ⟨u, s'', run, -⟩ := (Stmt.checkAll_disciplined program).collects s₀ policy
          rw [run] at halted
          cases halted
    · rw [table, halted]
      exact ⟨strays.depth, strays.encloses⟩

/-- A function with a parameter of no type. -/
def voidParameter : Stmt :=
  .define ⟨1, 2⟩ ⟨⟨1, 5⟩, "f", [⟨⟨1, 7⟩, .void, ⟨1, 12⟩, "x"⟩], none⟩ (.mk ⟨1, 15⟩ ⟨1, 17⟩ [])

/-- `{ fn f(void x) { } }` -/
def voidParameterBlock : Stmt := .block (.mk ⟨1, 0⟩ ⟨1, 19⟩ [voidParameter])

/-- `fn next(int n) int { ... }` -/
def nextHeader : Header :=
  ⟨⟨1, 3⟩, "next", [⟨⟨1, 8⟩, .value .int, ⟨1, 12⟩, "n"⟩], some (⟨1, 15⟩, .value .int)⟩

/-- `{ return n + 1; }`, in which the parameter is used. -/
def nextBody : Block :=
  .mk ⟨1, 19⟩ ⟨1, 36⟩ [.returnWith ⟨1, 21⟩
    (some (.binary ⟨1, 30⟩ .add (.ident ⟨1, 28⟩ "n") (.int ⟨1, 32⟩ "1" 1)))]

/-- One check is stopped at a parameter, in a scope of depth two, and ends in the block's. Another
one comes to a body that uses a parameter and gets through it, which it would not in a new scope. -/
theorem parameters_balanced :
    (∃ m, Moment.Of [voidParameterBlock] (echoStart .stop) m ∧ m.HaltsDeclaring ⟨2, 0⟩ ∧
      let final := Program.checked [voidParameterBlock] (echoStart .stop)
      final.symbols.current = ⟨1, 0⟩ ∧ final.symbols.Encloses final.symbols.current ⟨2, 0⟩) ∧
    ∃ b, nextHeader.Visits ⟨1, 0⟩ nextBody (echoStart .stop) b ∧
      (⟨.block .resumeLast nextBody, b⟩ : Moment).CheckedIn [.define ⟨1, 0⟩ nextHeader nextBody]
        (echoStart .stop) ∧
      (stateOf (nextBody.check .resumeLast b)).engine.diagnostics = [] ∧
      (stateOf (nextBody.check .new b)).engine.diagnostics ≠ [] := by
  have balanced := check_balanced { policy := .stop } "main" .empty ({} : Options).newLog
  constructor
  · let inside : State := { echoStart .stop with symbols := (echoStart .stop).symbols.enter .new }
    have reached : Moment.Of [voidParameterBlock] (echoStart .stop) ⟨.stmt voidParameter, inside⟩ :=
      (((Relation.ReflTransGen.single .first).tail .block).tail .enter).tail .first
    have declaring : Moment.HaltsDeclaring ⟨.stmt voidParameter, inside⟩ _ :=
      .intro ⟨rfl, rfl, rfl⟩ rfl
    obtain ⟨-, -, encloses⟩ := (balanced _).2.2.2.2.2.2.2.2 _ _ reached declaring
    exact ⟨_, reached, declaring, by decide +kernel, encloses⟩
  · have next : Moment.Next ⟨.stmt (.define ⟨1, 0⟩ nextHeader nextBody), echoStart .stop⟩ _ :=
      .function rfl
    obtain ⟨checked, -, bodies, -⟩ := balanced [.define ⟨1, 0⟩ nextHeader nextBody]
    rcases bodies _ _ _ _ (.single .first) with skips | ⟨b, visits⟩
    · exact absurd next (skips.next _)
    · have same := (visits.next _).mp next
      cases same
      refine ⟨_, visits, checked _ (.tail (.single .first) next), ?_, ?_⟩
      · decide +kernel
      · decide +kernel

end Samo
