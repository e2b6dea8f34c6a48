import Samo.Proofs.Surroundings

/-!
# The scopes that blocks are registered with

A block is registered under its opening brace when its check gets to its end, with the scope in
which its statements were checked. Nothing else is ever registered under a brace of the program
(`Part.check_registers`), also when a check is halted half way. So in every later table the
innermost block around a statement has the scope that the statement was checked in
(`Occasion.Settled`).
-/

namespace Samo

open Check

namespace SymbolTable

@[simp] theorem blocks_insert (t : SymbolTable) (symbol : Symbol) :
    (t.insert symbol).blocks = t.blocks := by
  unfold insert insert?
  split
  · rfl
  · rfl

@[simp] theorem blocks_enter (t : SymbolTable) (mode : EntryMode) :
    (t.enter mode).blocks = t.blocks := by
  unfold enter addScope
  dsimp only
  split
  · rfl
  · split
    · rfl
    · rfl

@[simp] theorem blocks_leave (t : SymbolTable) : t.leave.blocks = t.blocks := by
  unfold leave
  split
  · rfl
  · rfl

end SymbolTable

/-! ## A check registers its own blocks only -/

namespace Check.State

variable {starts : List Pos} {s s' : State}

/-- What is registered under other positions is as it was. -/
def RegistersOnly (starts : List Pos) (s s' : State) : Prop :=
  ∀ start ∉ starts, s'.symbols.blocks.lookup start = s.symbols.blocks.lookup start

namespace RegistersOnly

theorem of_blocks (same : s'.symbols.blocks = s.symbols.blocks) : s.RegistersOnly starts s' :=
  fun _ _ => by rw [same]

theorem weaken {starts' : List Pos} (registers : s.RegistersOnly starts s')
    (more : starts ⊆ starts') : s.RegistersOnly starts' s' :=
  fun start other => registers start fun own => other (more own)

instance : IsPreorder State (RegistersOnly starts) where
  refl _ := .of_blocks rfl
  trans _ _ _ first second := fun start other => (second start other).trans (first start other)

instance : Balanced (RegistersOnly starts) where
  aside _ _ _ := .of_blocks rfl
  list _ _ := .of_blocks rfl
  insert s symbol := .of_blocks (s.symbols.blocks_insert symbol)
  enter mode s := .of_blocks (s.symbols.blocks_enter mode)
  leave s := .of_blocks s.symbols.blocks_leave
  inLoop _ leaves _ := leaves.surrounded fun _ inside => inside
  inUncertainty _ leaves _ := leaves.surrounded fun _ inside => inside
  inFunction f m s leaves _ := by
    rw [Check.inFunction, bind_ok (get_run s)]
    exact leaves.surrounded fun _ inside => inside

theorem register {start : Pos} (own : start ∈ starts) :
    Leaves (RegistersOnly starts) (modifySymbols (·.register start)) := by
  intro s p other
  show (s.symbols.register start).blocks.lookup p = _
  have apart : p ≠ start := fun same => other (same ▸ own)
  rw [SymbolTable.lookup_register, if_neg apart, Option.or_none]

end RegistersOnly

end Check.State

namespace Part

/-- The opening braces in a part, in order. -/
def braces : Part → List Pos
  | stmt st => st.braces
  | block _ body => body.braces
  | stmts sts => Stmt.bracesAll sts
  | branches rest => rest.braces

theorem check_registers (part : Part) : Leaves (State.RegistersOnly part.braces) part.check := by
  have own : ∀ start ∈ part.braces,
      Leaves (State.RegistersOnly part.braces) (modifySymbols (·.register start)) :=
    fun start member => .register member
  cases part with
  | stmt st => exact st.check_leaves own
  | block mode body => exact body.check_leaves mode own
  | stmts sts => exact Stmt.checkAll_leaves sts own
  | branches rest => exact rest.check_leaves own

end Part

/-! ## Blocks that are still to be checked are not registered -/

namespace Moment

variable {m m' : Moment}

/-- On the way to the next part nothing is registered but blocks that stand before it. -/
theorem Next.registers (next : Next m m') :
    ∃ before, List.Sublist (before ++ m'.part.braces) m.part.braces ∧
      m.state.RegistersOnly before m'.state := by
  have asks : ∀ pos keyword cond,
      Leaves (State.RegistersOnly []) (checkCondition pos keyword cond) :=
    fun pos keyword cond => .of_readsTable (.checkCondition pos keyword cond)
  have chances : ∀ pos compound e,
      Leaves (State.RegistersOnly []) (checkProbability pos compound e) :=
    fun pos compound e => .of_readsTable (.checkProbability pos compound e)
  -- what only reads the table registers nothing; only parts checked on the way come before
  cases next with
  | @first st sts s =>
      refine ⟨[], ?_, .of_blocks rfl⟩
      dsimp only [Part.braces]
      rw [Stmt.bracesAll]
      exact List.sublist_append_left _ _
  | @others st sts s s' done =>
      refine ⟨st.braces, ?_, (Part.stmt st).check_registers.of_ok done⟩
      dsimp only [Part.braces]
      rw [Stmt.bracesAll]
  | @enter mode start stop sts s =>
      refine ⟨[], ?_, .of_blocks (s.symbols.blocks_enter mode)⟩
      dsimp only [Part.braces]
      rw [Block.braces]
      exact List.sublist_cons_self _ _
  | block =>
      refine ⟨[], ?_, .of_blocks rfl⟩
      dsimp only [Part.braces]
      rw [Stmt.braces]
      exact List.Sublist.refl _
  | @function pos header body s s' f begun =>
      have begins : s.RegistersOnly [] s' := (Leaves.beginFunction pos header).of_ok begun
      refine ⟨[], ?_, begins⟩
      dsimp only [Part.braces]
      rw [Stmt.braces]
      exact List.Sublist.refl _
  | @branch pos cond body rest s s' condition =>
      refine ⟨[], ?_, (asks pos .ifWord cond).of_ok condition⟩
      dsimp only [Part.braces]
      rw [Stmt.braces]
      exact List.sublist_append_left _ _
  | @arms pos cond body rest s s₁ s₂ condition done =>
      have asked := ((asks pos .ifWord cond).of_ok condition).weaken (List.nil_subset body.braces)
      have inside := (Part.block .new body).check_registers.of_ok done
      refine ⟨body.braces, ?_, IsTrans.trans _ _ _ asked inside⟩
      dsimp only [Part.braces]
      rw [Stmt.braces]
  | otherwise =>
      refine ⟨[], ?_, .of_blocks rfl⟩
      dsimp only [Part.braces]
      rw [Branches.braces]
      exact List.Sublist.refl _
  | @elseIf pos cond body rest s s' condition =>
      refine ⟨[], ?_, (asks pos .ifWord cond).of_ok condition⟩
      dsimp only [Part.braces]
      rw [Branches.braces]
      exact List.sublist_append_left _ _
  | @moreArms pos cond body rest s s₁ s₂ condition done =>
      have asked := ((asks pos .ifWord cond).of_ok condition).weaken (List.nil_subset body.braces)
      have inside := (Part.block .new body).check_registers.of_ok done
      refine ⟨body.braces, ?_, IsTrans.trans _ _ _ asked inside⟩
      dsimp only [Part.braces]
      rw [Branches.braces]
  | @loop pos cond body s s' condition =>
      have asked := (asks pos .whileWord cond).of_ok condition
      refine ⟨[], ?_, asked⟩
      dsimp only [Part.braces]
      rw [Stmt.braces]
      exact List.Sublist.refl _
  | @maybe pos e body s s₁ s₂ chance probable =>
      have both := (chances pos body.isCompound e).bind fun _ =>
        .of_readsTable (.checkProbable pos body)
      have asked := both.of_ok ((bind_ok chance).trans probable)
      refine ⟨[], ?_, asked⟩
      dsimp only [Part.braces]
      rw [Stmt.braces]
      exact List.Sublist.refl _
  | @maybeBody pos e body otherwisePos alternative s s₁ s₂ chance feasible =>
      have both := (chances pos body.isCompound e).bind fun _ =>
        .checkAlternatives pos body otherwisePos alternative
      have asked := both.of_ok ((bind_ok chance).trans feasible)
      refine ⟨[], ?_, asked⟩
      dsimp only [Part.braces]
      rw [Stmt.braces]
      exact List.sublist_append_left _ _
  | @alternative pos e body otherwisePos alternative s s₁ s₂ s₃ chance feasible done =>
      have both := (chances pos body.isCompound e).bind fun _ =>
        .checkAlternatives pos body otherwisePos alternative
      have asked := (both.of_ok ((bind_ok chance).trans feasible)).weaken
        (List.nil_subset body.braces)
      have inside := (Part.stmt body).check_registers.of_ok done
      refine ⟨body.braces, ?_, IsTrans.trans _ _ _ asked inside⟩
      dsimp only [Part.braces]
      rw [Stmt.braces]

/-- The blocks of a part are not registered when its check starts. -/
def Fresh (m : Moment) : Prop := m.state.symbols.Unregistered m.part.braces

theorem Next.fresh (next : Next m m') (fresh : m.Fresh) : m'.Fresh := by
  obtain ⟨before, inside, registers⟩ := next.registers
  have distinct := fresh.distinct.sublist inside
  refine ⟨(List.nodup_append.mp distinct).2.1, fun start member => ?_⟩
  have apart : start ∉ before := fun earlier =>
    (List.nodup_append.mp distinct).2.2 start earlier start member rfl
  rw [registers start apart]
  exact fresh.missing start (inside.subset (List.mem_append_right before member))

/-- In a program whose blocks can be told apart. -/
theorem Of.fresh {o : Options} {file : String} {builtins : Registry} {log : Log}
    {program : Program} (distinct : program.DistinctBlocks)
    (reached : Of program (o.initialState file builtins log) m) : m.Fresh := by
  induction reached with
  | refl => exact ⟨distinct, fun _ _ => rfl⟩
  | tail _ next ih => exact next.fresh ih

end Moment

/-! ## The innermost block -/

namespace Surrounding

/-- The opening brace, if this is a block. -/
def start? : Surrounding → Option Pos
  | block start => some start
  | _ => none

/-- The opening brace of the innermost block. -/
def innermost? (around : List Surrounding) : Option Pos := around.findSome? start?

end Surrounding

namespace Occasion

variable {clean : Prop} {t : SymbolTable} {x y : Occasion}

/--
An occasion of a check that gets to its end, seen from a later table `t`: the innermost block around
is registered there. If its braces can be told apart (`clean`), it is registered with the scope that
is the current one on the occasion.
-/
structure Settled (clean : Prop) (t : SymbolTable) (x : Occasion) : Prop where
  sound : x.moment.Sound
  fresh : clean → x.moment.Fresh
  done : ∃ r, x.moment.part.check x.moment.state = .ok () r ∧ r.symbols.Grows t
  scope : ∀ start ∈ Surrounding.innermost? x.around, ∃ c, t.blocks.lookup start = some c ∧
    (clean → c = x.moment.state.symbols.current)

/-- A block that gets to its end is registered, and with its scope if it was not registered before.
-/
theorem Settled.registered {mode : EntryMode} {start stop : Pos} {stmts : List Stmt} {s : State}
    {around : List Surrounding}
    (settled : Settled clean t ⟨around, ⟨.block mode (.mk start stop stmts), s⟩⟩) :
    ∃ c, t.blocks.lookup start = some c ∧ (clean → c = (s.symbols.enter mode).current) := by
  obtain ⟨r, run, grows⟩ := settled.done
  obtain ⟨s₁, checked, current, left, -⟩ := settled.sound.left run
  have here := left.blocks start
  rw [if_pos rfl] at here
  cases known : s₁.symbols.blocks.lookup start with
  | none =>
      rw [known, Option.none_or] at here
      exact ⟨_, grows.blocks start _ here, fun _ => current⟩
  | some c =>
      rw [known] at here
      refine ⟨c, grows.blocks start c here, fun clean => ?_⟩
      -- the statements of the block leave its own brace alone
      have fresh := settled.fresh clean
      unfold Moment.Fresh at fresh
      dsimp only [Part.braces] at fresh
      rw [Block.braces] at fresh
      have registers := (Part.stmts stmts).check_registers.of_ok checked
      have same := registers start (List.nodup_cons.mp fresh.distinct).1
      rw [known] at same
      have missing := fresh.missing start List.mem_cons_self
      rw [← SymbolTable.blocks_enter s.symbols mode, ← same] at missing
      cases missing

theorem Next.settled (next : x.Next y) (settled : x.Settled clean t) : y.Settled clean t := by
  obtain ⟨r, run, grows⟩ := settled.done
  obtain ⟨r', run', grows', -⟩ := next.moment.finishes settled.sound run
  refine ⟨next.moment.sound settled.sound, fun clean => next.moment.fresh (settled.fresh clean),
    ⟨r', run', grows'.trans grows⟩, ?_⟩
  obtain ⟨around, m⟩ := x
  obtain ⟨around', m'⟩ := y
  obtain ⟨moves, rfl⟩ := next
  dsimp only at moves ⊢
  intro start innermost
  have scope := moves.table settled.sound.wellFormed
  cases moves with
  | enter =>
      cases innermost
      exact settled.registered
  | _ =>
      -- loops and functions are no blocks, so the innermost one is the same
      rcases scope with ⟨_, _, part, -⟩ | ⟨-, _, _, declares⟩
      · cases part
      · rw [declares.current]
        exact settled.scope start innermost

theorem settled_of_steps (steps : Relation.ReflTransGen Next x y) (settled : x.Settled clean t) :
    y.Settled clean t := by
  induction steps with
  | refl => exact settled
  | tail _ next ih => exact next.settled ih

end Occasion

end Samo
