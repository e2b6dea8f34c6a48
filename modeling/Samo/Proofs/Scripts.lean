import Samo.Proofs.Traces

/-!
# What a collecting check reports

Under the policy `collect` a check always gets to its end. What it reports then depends on its
surroundings alone, that is, on everything in the state but the reports and the log
(`Check.Plays`). All reports of a statement point to the statement, and an error among them is never
the only failure (`Stmt.check_scripted`).
-/

namespace Samo

namespace Check

variable {α β : Type}

/-- The reports that a step makes from a state, what it gives, and the state it leads to. -/
def Plays (m : Check α) (s : State) (rs : List Report) (a : α) (s' : State) : Prop :=
  ∃ es, Tells m s es a s' ∧ Event.reports es = rs

theorem Tells.plays {m : Check α} {s s' : State} {es : List Event} {a : α}
    (tells : Tells m s es a s') : Plays m s (Event.reports es) a s' :=
  ⟨es, tells, rfl⟩

namespace Plays

theorem bind {m : Check α} {f : α → Check β} {s s₁ s₂ : State} {rs rs' : List Report} {a : α}
    {b : β} (first : Plays m s rs a s₁) (second : Plays (f a) s₁ rs' b s₂) :
    Plays (m >>= f) s (rs ++ rs') b s₂ := by
  obtain ⟨es, tells, rfl⟩ := first
  obtain ⟨es', tells', rfl⟩ := second
  exact ⟨es ++ es', tells.bind tells', Event.reports_append es es'⟩

/-- A look at the surroundings. -/
theorem read {f : State → Check α} {s s' : State} {rs : List Report} {a : α}
    (same : ∀ e l, f { s with engine := e, log := l } = f s) (plays : Plays (f s) s rs a s') :
    Plays (get >>= f) s rs a s' := by
  obtain ⟨es, tells, made⟩ := plays
  exact ⟨es, .read same tells, made⟩

/-- What makes no reports once never makes any. -/
theorem eq_nil {m : Check α} {s s₁ s₂ : State} {rs : List Report} {a b : α}
    (silent : Plays m s [] a s₁) (plays : Plays m s rs b s₂) : rs = [] := by
  obtain ⟨es, tells, none⟩ := silent
  obtain ⟨es', tells', rfl⟩ := plays
  refine List.eq_nil_iff_forall_not_mem.mpr fun r member => ?_
  obtain ⟨r', made, -⟩ := tells'.exists_report tells member
  rw [none] at made
  cases made

end Plays

/-! ## Reports that are accounted for -/

/-- The surroundings of what is run by chance. -/
def State.uncertain (s : State) : State := { s with uncertainDepth := s.uncertainDepth + 1 }

/--
The reports that a step makes from a state are accounted for: they point to a part of a text, and an
error among them, or one that is owed, comes with a fatal report.
-/
def ScriptedAt (Q : Pos → Prop) (owed : Prop) (m : Check α) (s : State) : Prop :=
  ∃ rs a s', Accounted Q owed False rs ∧ Plays m s rs a s'

/-- The reports of a step are accounted for. -/
def Scripted (Q : Pos → Prop) (owed : Prop) (m : Check α) : Prop := ∀ s, ScriptedAt Q owed m s

/-- The reports among the events of a step are accounted for if those of its collecting run are. -/
theorem Tells.accounted {Q : Pos → Prop} {m : Check α} {s s' : State} {es : List Event} {a : α}
    (tells : Tells m s es a s') (scripted : ScriptedAt Q False m s) :
    Accounted Q False False (Event.reports es) := by
  obtain ⟨_, b, s₁, accounted, es', tells', rfl⟩ := scripted
  refine ⟨fun r member => ?_, ?_⟩
  · obtain ⟨r', member', same⟩ := tells.exists_report tells' member
    rw [← Report.pos_diagnostic "" r, same, Report.pos_diagnostic]
    exact accounted.placed r' member'
  · rintro (none | ⟨r, member, mild⟩)
    · exact none.elim
    · obtain ⟨r₁, member₁, same₁⟩ := tells.exists_report tells' member
      have mild₁ : r₁.isFatal = false := by
        rw [Bool.eq_false_iff, ne_eq, Report.isFatal_iff "", ← same₁, ← Report.isFatal_iff, mild]
        exact Bool.noConfusion
      rcases accounted.owned (.inr ⟨r₁, member₁, mild₁⟩) with ⟨r₂, member₂, fatal⟩ | none
      · obtain ⟨r₃, member₃, same₃⟩ := tells'.exists_report tells member₂
        refine .inl ⟨r₃, member₃, ?_⟩
        rw [Report.isFatal_iff "", ← same₃, ← Report.isFatal_iff, fatal]
      · exact none.elim

namespace ScriptedAt

variable {Q : Pos → Prop} {owed : Prop}

/-- Behind a step without reports. -/
theorem after {m : Check α} {f : α → Check β} {s s₁ : State} {a : α} (silent : Plays m s [] a s₁)
    (scripted : ScriptedAt Q owed (f a) s₁) : ScriptedAt Q owed (m >>= f) s := by
  obtain ⟨rs, b, s₂, accounted, plays⟩ := scripted
  exact ⟨rs, b, s₂, accounted, silent.bind plays⟩

theorem bind {m : Check α} {f : α → Check β} {s : State} (first : ScriptedAt Q owed m s)
    (second : ∀ a, Scripted Q False (f a)) : ScriptedAt Q owed (m >>= f) s := by
  obtain ⟨rs, a, s₁, accounted, plays⟩ := first
  obtain ⟨rs', b, s₂, accounted', plays'⟩ := second a s₁
  exact ⟨rs ++ rs', b, s₂, accounted.append accounted', plays.bind plays'⟩

theorem inUncertainty {m : Check Unit} {s : State} (scripted : ScriptedAt Q owed m s.uncertain) :
    ScriptedAt Q owed (inUncertainty m) s := by
  obtain ⟨rs, _, s', accounted, es, tells, made⟩ := scripted
  exact ⟨rs, (), _, accounted, es, tells.inUncertainty, made⟩

end ScriptedAt

namespace Scripted

variable {Q : Pos → Prop} {owed : Prop}

theorem pure (a : α) : Scripted Q False (pure a : Check α) :=
  fun s => ⟨[], a, s, .nil id, (Tells.pure a s).plays⟩

theorem bind {m : Check α} {f : α → Check β} (first : Scripted Q owed m)
    (second : ∀ a, Scripted Q False (f a)) : Scripted Q owed (m >>= f) :=
  fun s => (first s).bind second

theorem ite {c : Prop} [Decidable c] {m m' : Check α} (left : Scripted Q owed m)
    (right : Scripted Q owed m') : Scripted Q owed (if c then m else m') := by
  split
  · exact left
  · exact right

/-- Less may be owed. -/
theorem weaken {owed' : Prop} {m : Check α} (scripted : Scripted Q owed m) (less : owed' → owed) :
    Scripted Q owed' m := by
  intro s
  obtain ⟨rs, a, s', accounted, plays⟩ := scripted s
  exact ⟨rs, a, s', ⟨accounted.placed, fun owes => accounted.owned (owes.imp_left less)⟩, plays⟩

theorem read {f : State → Check α} (same : ∀ s e l, f { s with engine := e, log := l } = f s)
    (each : ∀ s, Scripted Q owed (f s)) : Scripted Q owed (get >>= f) := by
  intro s
  obtain ⟨rs, a, s', accounted, plays⟩ := each s s
  exact ⟨rs, a, s', accounted, .read (same s) plays⟩

theorem modifySymbols (f : SymbolTable → SymbolTable) : Scripted Q False (modifySymbols f) :=
  fun s => ⟨[], (), _, .nil id, (Tells.modifySymbols f s).plays⟩

theorem debug (message : String) : Scripted Q False (debug message) :=
  fun s => ⟨[], (), s, .nil id, (Tells.debug message s).plays⟩

theorem warn (pos : Pos) (p : Problem) : Scripted Q False (warn pos p) :=
  fun s => ⟨[], (), s, .nil id, (Tells.warn pos p s).plays⟩

end Scripted

/-- What is asked in a state leads back to the state. -/
theorem Question.plays {Q : Pos → Prop} {owed : Prop} {admits : α → Prop} {m : Check α}
    (question : Question Q owed admits m) (s : State) :
    ∃ rs a, Accounted Q owed (admits a) rs ∧ Plays m s rs a s := by
  obtain ⟨rs, a, accounted, tells⟩ := question.tells s
  exact ⟨rs, a, accounted, _, tells, Event.reports_map_report rs⟩

namespace Scripted

variable {Q : Pos → Prop} {owed : Prop}

theorem of_question {m : Check α} (question : Question Q owed (fun _ => False) m) :
    Scripted Q owed m := by
  intro s
  obtain ⟨rs, a, accounted, plays⟩ := question.plays s
  exact ⟨rs, a, s, accounted, plays⟩

/-- What the answer to a question admits is owed by what follows. -/
theorem ask {admits : α → Prop} {m : Check α} {f : α → Check β}
    (question : Question Q owed admits m) (answer : ∀ a, Scripted Q (admits a) (f a)) :
    Scripted Q owed (m >>= f) := by
  intro s
  obtain ⟨rs, a, accounted, plays⟩ := question.plays s
  obtain ⟨rs', b, s', accounted', plays'⟩ := answer a s
  exact ⟨rs ++ rs', b, s', accounted.append accounted', plays.bind plays'⟩

theorem fatal {pos : Pos} (here : Q pos) (p : Problem) : Scripted Q owed (fatal pos p) :=
  of_question (.fatal here p)

/-! ## Parts of statements -/

theorem inScope (mode : EntryMode) {m : Check Unit} (action : Scripted Q owed m) :
    Scripted Q owed (inScope mode m) := by
  intro s
  obtain ⟨rs, _, s', accounted, es, tells, made⟩ :=
    action { s with symbols := s.symbols.enter mode }
  exact ⟨rs, (), _, accounted, es, tells.inScope, made⟩

theorem inLoop {m : Check Unit} (action : Scripted Q owed m) : Scripted Q owed (inLoop m) := by
  intro s
  obtain ⟨rs, _, s', accounted, es, tells, made⟩ := action { s with loopDepth := s.loopDepth + 1 }
  exact ⟨rs, (), _, accounted, es, tells.inLoop, made⟩

theorem inUncertainty {m : Check Unit} (action : Scripted Q owed m) :
    Scripted Q owed (inUncertainty m) :=
  fun s => (action s.uncertain).inUncertainty

theorem inFunction (f : Function) {m : Check Unit} (action : Scripted Q owed m) :
    Scripted Q owed (inFunction f m) := by
  intro s
  obtain ⟨rs, _, s', accounted, es, tells, made⟩ :=
    action { s with currentFunction := some f, loopDepth := 0 }
  exact ⟨rs, (), _, accounted, es, tells.inFunction, made⟩

theorem declaring : Declaring Q (Scripted Q False) where
  ask := of_question
  bind := bind
  look := read
  insert _ := modifySymbols _
  debug := debug

/-- That a body is invalid is fatal, so errors in it do not stand alone. -/
theorem endFunction {h : Header} (here : Q h.namePos) {body : Block} (within : body.Within Q)
    (f : Function) : Scripted Q False (endFunction h body f) := by
  have complete : ∀ valid : Bool, Scripted Q False (do
      let complete ← body.returnsOnAllPaths h.result.ty
      if !complete then Check.fatal h.namePos (.pathsIncomplete h.result)
      if valid && complete then modify fun s => { s with functions := s.functions ++ [f] }) := by
    intro valid
    refine (of_question (body.returnsOnAllPaths_question h.result.ty within)).bind fun _ => ?_
    refine declaring.report here _ (.ite (fun s => ?_) (pure _))
    exact ⟨[], (), _, .nil id, (Tells.list f s).plays⟩
  unfold Check.endFunction
  refine ask (.checkReturns here h.result.ty within) fun valid => ?_
  cases valid with
  | true => exact (complete true).weaken Bool.noConfusion
  | false => exact (fatal here _).bind fun _ => complete false

theorem block (mode : EntryMode) (start stop : Pos) {stmts : List Stmt}
    (inner : Scripted Q False (Stmt.checkAll stmts)) :
    Scripted Q False ((Block.mk start stop stmts).check mode) := by
  rw [Block.check]
  exact inScope mode (inner.bind fun _ => modifySymbols _)

theorem walking : Walking Q (fun _ => True) (Scripted Q False) :=
  declaring.walking warn (declaring.beginFunction (modifySymbols _) (modifySymbols _))
    (fun f _ start stop _ head within _ inner =>
      (inFunction f (block .resumeLast start stop inner)).bind fun _ =>
        endFunction head.name (.mk within) f)
    (fun stop _ _ inner => block .new _ stop inner) inLoop inUncertainty

end Scripted

/-! ## Silence -/

/-- A step makes no reports from a state. -/
def Silent (m : Check α) (s : State) : Prop := ∃ a s', Plays m s [] a s'

namespace Silent

variable {Q : Pos → Prop} {owed : Prop}

theorem scriptedAt {m : Check α} {s : State} (silent : Silent m s) : ScriptedAt Q False m s := by
  obtain ⟨a, s', plays⟩ := silent
  exact ⟨[], a, s', .nil id, plays⟩

/-- Both parts of a step without reports are without reports. -/
theorem parts {m : Check α} {f : α → Check β} {s : State} (silent : Silent (m >>= f) s)
    (first : Scripted Q owed m) (second : ∀ a, Scripted Q owed (f a)) :
    ∃ a s₁, Plays m s [] a s₁ ∧ Silent (f a) s₁ := by
  obtain ⟨c, s₃, whole⟩ := silent
  obtain ⟨rs, a, s₁, -, plays⟩ := first s
  obtain ⟨rs', b, s₂, -, plays'⟩ := second a s₁
  obtain ⟨rfl, rfl⟩ := List.append_eq_nil_iff.mp (whole.eq_nil (plays.bind plays'))
  exact ⟨a, s₁, plays, b, s₂, plays'⟩

/-- After a question without reports the state is what it was. -/
theorem asked {admits : α → Prop} {m : Check α} {f : α → Check β} {s : State}
    (silent : Silent (m >>= f) s) (question : Question Q owed admits m)
    (second : ∀ a, Scripted Q owed (f a)) : ∃ a, Plays m s [] a s ∧ Silent (f a) s := by
  obtain ⟨c, s₃, whole⟩ := silent
  obtain ⟨rs, a, -, plays⟩ := question.plays s
  obtain ⟨rs', b, s₂, -, plays'⟩ := second a s
  obtain ⟨rfl, rfl⟩ := List.append_eq_nil_iff.mp (whole.eq_nil (plays.bind plays'))
  exact ⟨a, plays, b, s₂, plays'⟩

/-- A fatal report is not silent. -/
theorem not_fatal (pos : Pos) (p : Problem) (s : State) : ¬ Silent (fatal pos p) s := by
  rintro ⟨_, s', silent⟩
  cases silent.eq_nil (Tells.fatal pos p s).plays

end Silent

/-! ## By chance -/

section Chance

variable {Q : Pos → Prop}

theorem Silent.inUncertainty {m : Check Unit} {s : State} (silent : Silent (inUncertainty m) s)
    (action : Scripted Q False m) : Silent m s.uncertain := by
  obtain ⟨_, s₁, whole⟩ := silent
  obtain ⟨rs, _, s', -, es, tells, made⟩ := action s.uncertain
  obtain rfl := whole.eq_nil ⟨es, tells.inUncertainty, made⟩
  exact ⟨(), s', es, tells, made⟩

theorem checkProbable_plays (pos : Pos) {body : Stmt} (feasible : body.declaresOrReturns = false)
    (s : State) : Plays (checkProbable pos body) s [] () s := by
  unfold checkProbable
  rw [feasible]
  exact (Tells.pure () s).plays

theorem feasible_of_silent {pos : Pos} {body : Stmt} {s s' : State}
    (silent : Plays (checkProbable pos body) s [] () s') : body.declaresOrReturns = false := by
  rw [Bool.eq_false_iff]
  intro infeasible
  unfold checkProbable at silent
  rw [if_pos infeasible] at silent
  exact Silent.not_fatal _ _ s ⟨(), s', silent⟩

/-- What may not be an alternative is reported at the alternative, if the body is feasible. -/
theorem checkAlternatives_plays {pos otherwisePos : Pos} {body alternative : Stmt}
    (feasible : body.declaresOrReturns = false) (here : Q otherwisePos) (s : State) :
    ∃ rs, Accounted Q False False rs ∧
      Plays (checkAlternatives pos body otherwisePos alternative) s rs () s := by
  have last : Plays (do if 0 < (← get).uncertainDepth then warn pos .nestedAlternatives) s [] ()
      s := by
    refine .read (fun _ _ => rfl) ?_
    split
    · exact (Tells.warn _ _ s).plays
    · exact (Tells.pure () s).plays
  unfold checkAlternatives
  rw [feasible]
  cases alternative.declaresOrReturns with
  | true =>
      have settled : Accounted Q False False [.fatal otherwisePos .infeasibleAlternative] :=
        ⟨List.forall_mem_singleton.mpr here, fun _ => .inl ⟨_, List.mem_singleton_self _, rfl⟩⟩
      exact ⟨_, settled.append (.nil id), (Tells.fatal _ _ s).plays.bind last⟩
  | false => exact ⟨[], .nil id, last⟩

end Chance

end Check

/-! ## Statements -/

open Check

variable {Q : Pos → Prop}

/-- The reports on a statement point to it, and an error among them comes with a fatal report. -/
theorem Stmt.check_scripted (s : Stmt) (within : s.Within Q) : Scripted Q False s.check :=
  Scripted.walking.stmt s within fun _ _ => trivial

theorem Stmt.checkAll_scripted (ss : List Stmt) (within : ∀ s ∈ ss, s.Within Q) :
    Scripted Q False (Stmt.checkAll ss) :=
  Scripted.walking.all ss within fun _ _ => trivial

theorem Block.check_scripted (b : Block) (within : b.Within Q) (mode : EntryMode) :
    Scripted Q False (b.check mode) := by
  cases within with
  | @mk start stop stmts inner => exact .block mode start stop (Stmt.checkAll_scripted stmts inner)

theorem Branches.check_scripted (rest : Branches) (within : rest.Within Q) :
    Scripted Q False rest.check :=
  Scripted.walking.branches rest within fun _ _ => trivial

/-- The reports on every statement are accounted for somewhere. -/
theorem Stmt.check_scripted_anywhere (s : Stmt) : Scripted (fun _ => True) False s.check :=
  s.check_scripted s.within_anywhere

theorem Block.check_scripted_anywhere (b : Block) (mode : EntryMode) :
    Scripted (fun _ => True) False (b.check mode) :=
  b.check_scripted b.within_anywhere mode

theorem Branches.check_scripted_anywhere (rest : Branches) :
    Scripted (fun _ => True) False rest.check :=
  rest.check_scripted rest.within_anywhere

theorem Stmt.checkAll_scripted_anywhere (ss : List Stmt) :
    Scripted (fun _ => True) False (Stmt.checkAll ss) :=
  Stmt.checkAll_scripted ss (Stmt.all_within_anywhere ss)

end Samo
