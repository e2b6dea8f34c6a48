import Samo.Proofs.Inquiries

/-!
# The questions of a check

What a check asks about expressions, returns and statements. Each of these steps is a `Question`
about the part of the text that it is asked about, so it only reads the symbol table
(`Check.Question.checkReturns`, `Block.returnsOnAllPaths_question`).
-/

namespace Samo

/-! ## Questions about expressions -/

open Check

/-- An operand whose questions only read the symbol table. -/
structure Operand.ReadsTable (o : Operand) : Prop where
  leaves : Check.ReadsTable o.leaves
  accepts : ∀ type, Check.ReadsTable (o.accepts type)

theorem Operand.ReadsTable.detect {o : Operand} (reads : o.ReadsTable) :
    Check.ReadsTable o.detect :=
  reads.leaves.bind fun _ => .pure _

theorem Check.ReadsTable.argumentTypes (callee : String) (index : Nat) {args : List Operand}
    (reads : ∀ a ∈ args, a.ReadsTable) : ReadsTable (argumentTypes callee index args) := by
  induction args generalizing index with
  | nil => exact .pure (some [])
  | cons a rest ih =>
      have first : a.ReadsTable := reads a List.mem_cons_self
      have others := fun index => ih index fun x member => reads x (List.mem_cons_of_mem _ member)
      unfold Check.argumentTypes
      refine first.detect.bind fun d => ?_
      split
      · exact (ReadsTable.fatal _ _).bind fun _ => .pure none
      split
      · exact (ReadsTable.fatal _ _).bind fun _ => .pure none
      · exact (others (index + 1)).bind fun _ => .pure _

namespace Expr

/-- Asking about an expression only reads the symbol table. -/
theorem operand_readsTable (e : Expr) : e.operand.ReadsTable := by
  have inquired := e.within_anywhere.inquired
  exact ⟨inquired.leaves.question.readsTable, fun type => (inquired.accepts type).question.readsTable⟩

theorem operands_readsTable (args : List Expr) : ∀ o ∈ operands args, o.ReadsTable := by
  intro o member
  rw [operands_eq_map] at member
  obtain ⟨a, -, rfl⟩ := List.mem_map.mp member
  exact a.operand_readsTable

theorem leaves_readsTable (e : Expr) : ReadsTable e.leaves := e.operand_readsTable.leaves

theorem accepts_readsTable (e : Expr) (type : ValueType) : ReadsTable (e.accepts type) :=
  e.operand_readsTable.accepts type

theorem detect_readsTable (e : Expr) : ReadsTable e.detect := e.operand_readsTable.detect

theorem resolve_readsTable (pos : Pos) (f : String) (args : List Expr) :
    ReadsTable (resolve pos f (operands args)) :=
  (Within.resolve (Q := fun _ => True) trivial f fun a _ => a.within_anywhere).readsTable

end Expr

/-! ## Questions about returns -/

namespace Check.Question

variable {Q : Pos → Prop}

/-- Every error about a return makes the answer no. -/
theorem checkReturn {pos : Pos} (here : Q pos) (ret : Ty) {value : Option Expr}
    (within : ∀ e ∈ value, e.Within Q) :
    Question Q False (· = false) (checkReturn pos ret value) := by
  unfold Check.checkReturn
  split
  · exact ite (fun _ => pure False.elim) fun _ => error_bind here _ rfl
  · next e =>
    have inner := within e rfl
    refine ite (fun _ => error_bind here _ rfl) fun _ => inner.detect.bind fun d => ?_
    refine ite (fun _ => error_bind here _ rfl) fun _ => ite (fun _ => error_bind here _ rfl) ?_
    have valid : Question Q False (· = false) (ret.value?.elim (Pure.pure false) e.accepts) := by
      cases ret.value? with
      | none => exact pure False.elim
      | some type => exact inner.accepts type
    refine fun _ => valid.bind fun valid => ?_
    cases valid with
    | false => exact error_bind here _ rfl
    | true =>
        exact ((checkConstant inner).imp fun _ => False.elim).weaken Bool.noConfusion

theorem checkIfReturn (ret : Ty) {s : Stmt} (within : s.Within Q) :
    Question Q False (fun verdicts => false ∈ verdicts) (checkIfReturn ret s) := by
  unfold Check.checkIfReturn
  split
  · cases within with
    | returnWith here inner =>
        exact (checkReturn here ret inner).bind fun verdict => pure fun no =>
          List.mem_singleton.mpr no.symm
  · exact pure False.elim

theorem returnMatches (ret : Ty) {value : Option Expr} (within : ∀ e ∈ value, e.Within Q) :
    Question Q False (fun _ => False) (returnMatches ret value) := by
  unfold Check.returnMatches
  split
  · exact pure id
  · next e => exact (within e rfl).detect.bind fun _ => pure id

end Check.Question

namespace Check.ReadsTable

theorem identifier (pos : Pos) (name : String) : ReadsTable (identifier pos name) :=
  (Inquiry.identifier (Q := fun _ => True) trivial (List.mem_singleton_self _)).question.readsTable

theorem checkIfReturn (ret : Ty) (s : Stmt) : ReadsTable (checkIfReturn ret s) :=
  (Question.checkIfReturn ret s.within_anywhere).readsTable

theorem returnMatches (ret : Ty) (value : Option Expr) : ReadsTable (returnMatches ret value) :=
  (Question.returnMatches ret fun e _ => e.within_anywhere).readsTable

end Check.ReadsTable

section Visits

variable {α : Type} {Q : Pos → Prop} {admits : List α → Prop} {visit : Stmt → Check (List α)}

mutual

/-- A visit of the statements in a statement asks what the single visits ask. -/
theorem Stmt.visitScoped_question (both : ∀ as bs, admits as ∨ admits bs → admits (as ++ bs))
    (asks : ∀ s : Stmt, s.Within Q → Question Q False admits (visit s)) (s : Stmt)
    (within : s.Within Q) : Question Q False admits (s.visitScoped visit) := by
  have here := asks s within
  cases within <;> unfold Stmt.visitScoped
  case block b inner =>
    refine here.bind fun _ => ?_
    exact ((b.visitScoped_question both asks inner).carry _).bind fun _ => .pure (both _ _)
  case branch p c b rest _ _ inner others =>
    refine here.bind fun _ => ((asks _ (.block inner)).carry _).bind fun _ => ?_
    refine ((b.visitScoped_question both asks inner).carry _).bind fun _ => ?_
    refine ((rest.visitScoped_question both asks others).carry _).bind fun _ => .pure ?_
    exact fun owes => both _ _ (owes.imp_left fun owes => both _ _ (owes.imp_left (both _ _)))
  case loop p c b _ _ inner =>
    refine here.bind fun _ => ((asks _ (.block inner)).carry _).bind fun _ => ?_
    refine ((b.visitScoped_question both asks inner).carry _).bind fun _ => .pure ?_
    exact fun owes => both _ _ (owes.imp_left (both _ _))
  case maybe p e body _ _ inner =>
    refine here.bind fun _ => ?_
    exact ((body.visitScoped_question both asks inner).carry _).bind fun _ =>
      .pure (both _ _)
  case maybeOtherwise p e body q alternative _ _ inner _ other =>
    refine here.bind fun _ => ?_
    refine ((body.visitScoped_question both asks inner).carry _).bind fun _ => ?_
    refine ((alternative.visitScoped_question both asks other).carry _).bind fun _ => .pure ?_
    exact fun owes => both _ _ (owes.imp_left (both _ _))
  case declare | infer | assign | call | define | breakOut | continueOn | returnWith | needs |
      bad =>
    exact here

theorem Block.visitScoped_question (both : ∀ as bs, admits as ∨ admits bs → admits (as ++ bs))
    (asks : ∀ s : Stmt, s.Within Q → Question Q False admits (visit s)) (b : Block)
    (within : b.Within Q) : Question Q False admits (b.visitScoped visit) := by
  cases within with
  | @mk start stop stmts inner =>
      rw [Block.visitScoped]
      exact (Stmt.visitAllScoped_question both asks stmts inner).inScopeOf start

theorem Stmt.visitAllScoped_question (both : ∀ as bs, admits as ∨ admits bs → admits (as ++ bs))
    (asks : ∀ s : Stmt, s.Within Q → Question Q False admits (visit s)) (ss : List Stmt)
    (within : ∀ s ∈ ss, s.Within Q) : Question Q False admits (Stmt.visitAllScoped visit ss) := by
  cases ss with
  | nil =>
      rw [Stmt.visitAllScoped]
      exact .pure False.elim
  | cons s ss =>
      obtain ⟨first, others⟩ := List.forall_mem_cons.mp within
      rw [Stmt.visitAllScoped]
      refine (s.visitScoped_question both asks first).bind fun _ => ?_
      exact ((Stmt.visitAllScoped_question both asks ss others).carry _).bind fun _ =>
        .pure (both _ _)

theorem Branches.visitScoped_question (both : ∀ as bs, admits as ∨ admits bs → admits (as ++ bs))
    (asks : ∀ s : Stmt, s.Within Q → Question Q False admits (visit s)) (rest : Branches)
    (within : rest.Within Q) : Question Q False admits (rest.visitScoped visit) := by
  cases within <;> rw [Branches.visitScoped]
  case done => exact .pure False.elim
  case otherwise p b inner =>
    refine (asks _ (.block inner)).bind fun _ => ?_
    exact ((b.visitScoped_question both asks inner).carry _).bind fun _ => .pure (both _ _)
  case elseIf p c b rest _ _ inner others =>
    refine (asks _ (.block inner)).bind fun _ => ?_
    refine ((b.visitScoped_question both asks inner).carry _).bind fun _ => ?_
    refine ((rest.visitScoped_question both asks others).carry _).bind fun _ => .pure ?_
    exact fun owes => both _ _ (owes.imp_left (both _ _))

end

end Visits

/-- Every error about a return of a function makes the answer no. -/
theorem Check.Question.checkReturns {Q : Pos → Prop} {namePos : Pos} (here : Q namePos) (ret : Ty)
    {body : Block} (within : body.Within Q) :
    Question Q False (· = false) (checkReturns namePos ret body) := by
  have visits := body.visitScoped_question (fun _ _ => List.mem_append.mpr)
    (fun _ => checkIfReturn ret) within
  unfold Check.checkReturns
  refine visits.bind fun verdicts => ite (fun _ => error_bind here _ rfl) fun _ => pure fun no => ?_
  exact List.all_eq_false.mpr ⟨false, no, Bool.noConfusion⟩

theorem Check.ReadsTable.checkReturns (namePos : Pos) (ret : Ty) (body : Block) :
    ReadsTable (checkReturns namePos ret body) :=
  (Question.checkReturns (Q := fun _ => True) trivial ret body.within_anywhere).readsTable

section Traces

variable {Q : Pos → Prop}

mutual

/-- Reading the shape off a statement asks what its returns give. -/
theorem Stmt.trace_question (ret : Ty) (s : Stmt) (within : s.Within Q) (t : Trail) :
    Question Q False (fun _ => False) (s.trace ret t) := by
  cases within <;> rw [Stmt.trace]
  case returnWith _ inner =>
    refine .ite (fun _ => .pure id) fun _ => (Question.returnMatches ret inner).bind fun _ => ?_
    exact .ite (fun _ => .pure id) fun _ => .pure id
  case block b inner => exact b.trace_question ret inner t
  case branch p c b rest _ _ inner others =>
    exact (b.trace_question ret inner .start).bind fun _ =>
      (rest.trace_question ret others).bind fun _ => .pure id
  case loop p c b _ _ inner => exact (b.trace_question ret inner .start).bind fun _ => .pure id
  case maybe p e body _ _ inner =>
    exact (body.trace_question ret inner .start).bind fun _ => .pure id
  case maybeOtherwise p e body q alternative _ _ inner _ other =>
    exact (body.trace_question ret inner .start).bind fun _ =>
      (alternative.trace_question ret other .start).bind fun _ => .pure id
  case declare | infer | assign | call | define | breakOut | continueOn | needs | bad =>
    exact .pure id

theorem Block.trace_question (ret : Ty) (b : Block) (within : b.Within Q) (t : Trail) :
    Question Q False (fun _ => False) (b.trace ret t) := by
  cases within with
  | @mk start stop stmts inner =>
      rw [Block.trace]
      exact (Stmt.traceAll_question ret stmts inner t).inScopeOf start

theorem Stmt.traceAll_question (ret : Ty) (ss : List Stmt) (within : ∀ s ∈ ss, s.Within Q)
    (t : Trail) : Question Q False (fun _ => False) (Stmt.traceAll ret ss t) := by
  cases ss with
  | nil =>
      rw [Stmt.traceAll]
      exact .pure id
  | cons s ss =>
      obtain ⟨first, others⟩ := List.forall_mem_cons.mp within
      rw [Stmt.traceAll]
      exact (s.trace_question ret first t).bind fun t => Stmt.traceAll_question ret ss others t

theorem Branches.trace_question (ret : Ty) (rest : Branches) (within : rest.Within Q) :
    Question Q False (fun _ => False) (rest.trace ret) := by
  cases within <;> rw [Branches.trace]
  case done => exact .pure id
  case otherwise p b inner => exact (b.trace_question ret inner .start).bind fun _ => .pure id
  case elseIf p c b rest _ _ inner others =>
    exact (b.trace_question ret inner .start).bind fun _ =>
      (rest.trace_question ret others).bind fun _ => .pure id

end

theorem Block.returnsOnAllPaths_question (ret : Ty) {body : Block} (within : body.Within Q) :
    Question Q False (fun _ => False) (body.returnsOnAllPaths ret) := by
  unfold Block.returnsOnAllPaths Block.path
  refine .ite (fun _ => .pure id) fun _ => Question.bind ?_ fun _ => .pure id
  exact (body.trace_question ret within .start).bind fun _ => .pure id

end Traces

/-- Reading the shape off a block only reads the symbol table. -/
theorem Block.trace_readsTable (ret : Ty) (b : Block) (t : Trail) : ReadsTable (b.trace ret t) :=
  (b.trace_question ret b.within_anywhere t).readsTable

theorem Block.returnsOnAllPaths_readsTable (ret : Ty) (body : Block) :
    ReadsTable (body.returnsOnAllPaths ret) :=
  (Block.returnsOnAllPaths_question ret body.within_anywhere).readsTable

/-! ## Questions about statements -/

namespace Check.Question

variable {Q : Pos → Prop}

theorem checkDeclarable {pos : Pos} (here : Q pos) (name : String) :
    Question Q False (fun _ => False) (checkDeclarable pos name) := by
  unfold Check.checkDeclarable
  refine symbols.bind fun t => ite (fun _ => fatal_bind here _ (pure id)) fun _ => ?_
  refine (lookup name).bind fun found => ?_
  split
  · exact fatal_bind here _ (pure id)
  · exact pure id

theorem expectType (type : ValueType) {e : Expr} (within : e.Within Q) {pos : Pos} (here : Q pos) :
    Question Q False (fun _ => False) (expectType type e pos) := by
  unfold Check.expectType
  refine (within.accepts type).bind fun accepted => ?_
  cases accepted with
  | true => exact pure Bool.noConfusion
  | false =>
      -- what was owed is settled by the fatal report after the next question
      refine (within.detect.carry _).bind fun found => ?_
      dsimp only
      split
      · exact fatal_bind here _ (pure id)
      · exact fatal_bind here _ (pure id)

theorem foldInto (v : Variable) {e : Expr} (within : e.Within Q) :
    Question Q False (fun _ => False) (foldInto v e) := by
  unfold Check.foldInto
  refine (checkConstant within).bind fun folds => ite (fun _ => ?_) fun _ => pure id
  split
  · exact pure id
  · exact pure id

theorem initialise (v : Variable) {e : Expr} (within : e.Within Q) {pos : Pos} (here : Q pos) :
    Question Q False (fun _ => False) (initialise v e pos) := by
  unfold Check.initialise
  exact (expectType _ within here).bind fun _ => ite (fun _ => foldInto _ within) fun _ => pure id

theorem checkAssignment {pos : Pos} (here : Q pos) (name : String) {value : Expr}
    (within : value.Within Q) :
    Question Q False (fun _ => False) (checkAssignment pos name value) := by
  unfold Check.checkAssignment
  refine symbols.bind fun t => ite (fun _ => fatal here _) fun _ => ?_
  refine (lookup name).bind fun found => ?_
  split
  · exact fatal here _
  · exact fatal here _
  · next v =>
    refine (expectType v.type within here).bind fun _ => ite (fun _ => ?_) fun _ => pure id
    exact (checkConstant within).bind fun _ => pure id

theorem checkCondition {pos : Pos} (here : Q pos) (keyword : Keyword) {cond : Expr}
    (within : cond.Within Q) :
    Question Q False (fun _ => False) (checkCondition pos keyword cond) := by
  unfold Check.checkCondition
  refine (within.accepts .boolie).bind fun accepted => ?_
  cases accepted with
  | true => exact ((checkConstant within).bind fun _ => pure id).weaken Bool.noConfusion
  | false => exact fatal here _

theorem checkProbability {pos : Pos} (here : Q pos) (compound : Bool) {e : Expr}
    (within : e.Within Q) :
    Question Q False (fun _ => False) (checkProbability pos compound e) := by
  have last : ∀ valid : Bool, Question Q (valid = false) (fun _ => False) (do
      if valid then
        let _ ← Check.checkConstant e
      else Check.fatal pos (.probabilityType compound)) := by
    intro valid
    cases valid with
    | true => exact ((checkConstant within).bind fun _ => pure id).weaken Bool.noConfusion
    | false => exact fatal here _
  unfold Check.checkProbability
  refine within.detect.bind fun found => ite (fun _ => fatal here _) fun _ => ?_
  refine ite (fun _ => (within.accepts .int).bind last) fun _ => ?_
  exact (pure False.elim).bind last

theorem checkProbable {pos : Pos} (here : Q pos) (body : Stmt) :
    Question Q False (fun _ => False) (checkProbable pos body) := by
  unfold Check.checkProbable
  exact ite (fun _ => fatal here _) fun _ => pure id

end Check.Question

namespace Check.ReadsTable

theorem checkDeclarable (pos : Pos) (name : String) : ReadsTable (checkDeclarable pos name) :=
  (Question.checkDeclarable (Q := fun _ => True) trivial name).readsTable

theorem expectType (type : ValueType) (e : Expr) (pos : Pos) :
    ReadsTable (expectType type e pos) :=
  (Question.expectType type e.within_anywhere trivial).readsTable

theorem initialise (v : Variable) (e : Expr) (pos : Pos) : ReadsTable (initialise v e pos) :=
  (Question.initialise v e.within_anywhere trivial).readsTable

theorem checkCondition (pos : Pos) (keyword : Keyword) (cond : Expr) :
    ReadsTable (checkCondition pos keyword cond) :=
  (Question.checkCondition (Q := fun _ => True) trivial keyword cond.within_anywhere).readsTable

theorem checkProbability (pos : Pos) (compound : Bool) (e : Expr) :
    ReadsTable (checkProbability pos compound e) :=
  (Question.checkProbability (Q := fun _ => True) trivial compound e.within_anywhere).readsTable

theorem checkProbable (pos : Pos) (body : Stmt) : ReadsTable (checkProbable pos body) :=
  (Question.checkProbable (Q := fun _ => True) trivial body).readsTable

end Check.ReadsTable

end Samo
