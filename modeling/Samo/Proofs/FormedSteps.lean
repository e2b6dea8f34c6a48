import Samo.Proofs.PolicyAgreement
import Samo.Proofs.SecondVisit

/-!
# Steps that go through

What a check does at a well-formed statement, before it looks into the blocks of it. A state `Fits`
a point of a program if its table has the stack of scopes that the rules read there. From such a
state declarations, assignments, conditions and headers of functions are accepted, and lead to a
state that fits the next point.
-/

namespace Samo

open Check

/-! ## States that fit -/

/-- Nothing fatal and no error is recorded. -/
def Engine.Mild (e : Engine) : Prop :=
  ∀ d ∈ e.diagnostics, d.severity ≠ .fatal ∧ d.severity ≠ .error

theorem Engine.Mild.warning {e : Engine} (mild : e.Mild) (pos : Pos) (message : String) :
    (e.record .warning pos message).Mild := by
  rcases e.record_cases .warning pos message with ⟨-, same⟩ | added
  · rw [same]
    exact mild
  · intro d member
    rw [added, List.mem_append, List.mem_singleton] at member
    rcases member with before | rfl
    · exact mild d before
    · exact ⟨nofun, nofun⟩

/-- A state of a check at a point of a well-formed program. -/
structure Fits (builtins : Registry) (around : Around) (st : Stack) (s : State) : Prop where
  stop : s.engine.policy = .stop
  mild : s.engine.Mild
  wellFormed : s.symbols.WellFormed
  builtins : s.symbols.builtins = builtins
  stack : s.symbols.stack = st
  function : s.currentFunction.isSome = around.returns.isSome
  loops : around.inLoop = true → 0 < s.loopDepth

namespace Fits

variable {builtins : Registry} {around : Around} {st st' : Stack} {s s' : State}

/-- After statements that are accepted the state fits again, with the stack that is there then. -/
theorem after {names : List String} {starts : List Pos} (fits : Fits builtins around st s)
    (passes : Passes s s' names starts) (mild : s'.engine.Mild) (stack : s'.symbols.stack = st') :
    Fits builtins around st' s' := by
  refine ⟨passes.policy.trans fits.stop, mild, passes.table.wellFormed, ?_, stack, ?_, ?_⟩
  · rw [passes.table.grows.builtins, fits.builtins]
  · rw [passes.function, fits.function]
  · rw [passes.loops]
    exact fits.loops

/-- After statements that declare nothing the stack is the same. -/
theorem passed {starts : List Pos} (fits : Fits builtins around st s)
    (passes : Passes s s' [] starts) (mild : s'.engine.Mild) : Fits builtins around st s' :=
  fits.after passes mild ((passes.table.stack_eq fits.wellFormed).trans fits.stack)

theorem sane {e : Expr} {type : TypeName} (fits : Fits builtins around st s)
    (sane : e.Sane (Stack.bindings st builtins) type) : e.Sane s.symbols.bindings type := by
  rw [← fits.stack, ← fits.builtins] at sane
  exact sane.of_stack

/-- A name that is free by the rules is free in the table. -/
theorem free {name : String} (fits : Fits builtins around st s)
    (free : Stack.Free builtins st name) :
    s.symbols.isBuiltin name = false ∧ s.symbols.lookup name = none := by
  constructor
  · rw [SymbolTable.isBuiltin, fits.builtins]
    exact free.reserved
  · have undeclared := free.undeclared
    rw [← fits.stack, SymbolTable.lookup_stack] at undeclared
    exact Option.map_eq_none_iff.mp undeclared

theorem warn (fits : Fits builtins around st s) (pos : Pos) (p : Problem) :
    ∃ s', Check.warn pos p s = .ok () s' ∧ Fits builtins around st s' :=
  ⟨_, rfl, fits.passed ((Unobtrusive.warn pos p).passes fits.wellFormed rfl)
    (fits.mild.warning pos p.message)⟩

end Fits

/-! ## Values and names -/

namespace Check

variable {s : State} {type : ValueType} {e : Expr}

theorem checkDeclarable_run {name : String} (pos : Pos)
    (free : s.symbols.isBuiltin name = false ∧ s.symbols.lookup name = none) :
    checkDeclarable pos name s = .ok true s := by
  unfold checkDeclarable
  rw [bind_ok (symbols_run s), if_neg (by simp [free.1]), bind_ok (lookup_run name s), free.2]
  rfl

theorem expectType_run (pos : Pos) (answers : e.Answers s type) :
    expectType type e pos s = .ok true s := by
  unfold expectType
  rw [bind_ok answers.accepts]
  rfl

theorem initialise_run {v : Variable} (pos : Pos) (sane : e.Sane s.symbols.bindings (.value v.type))
    (distinct : s.symbols.builtins.Distinct) : ∃ v', initialise v e pos s = .ok v' s := by
  unfold initialise
  have expected : expectType ({ v with initialised := true } : Variable).type e pos s =
      .ok true s := expectType_run pos (sane.answers distinct)
  rw [bind_ok expected, if_pos rfl]
  exact ⟨_, foldInto_run sane.folds⟩

theorem checkCondition_run (pos : Pos) (keyword : Keyword)
    (sane : e.Sane s.symbols.bindings (.value .boolie)) (distinct : s.symbols.builtins.Distinct) :
    checkCondition pos keyword e s = .ok () s := by
  unfold checkCondition
  rw [bind_ok (sane.answers distinct).accepts, if_pos rfl, bind_ok (checkConstant_run sane.folds)]
  rfl

theorem checkProbability_run (pos : Pos) (compound : Bool)
    (sane : e.Sane s.symbols.bindings (.value .int)) (distinct : s.symbols.builtins.Distinct) :
    checkProbability pos compound e s = .ok () s := by
  have answers := sane.answers distinct
  unfold checkProbability
  rw [bind_ok answers.detect, if_neg (by simp)]
  dsimp only
  rw [if_pos rfl, bind_ok answers.accepts, if_pos rfl, bind_ok (checkConstant_run sane.folds)]
  rfl

theorem checkProbable_run {body : Stmt} (pos : Pos) (plain : body.declaresOrReturns = false) :
    checkProbable pos body s = .ok () s := by
  unfold checkProbable
  rw [if_neg (by simp [plain])]
  rfl

end Check

/-! ## Declarations and assignments -/

namespace Fits

variable {builtins : Registry} {around : Around} {st : Stack} {s : State}

/-- A variable with a free name is declared. -/
theorem declareVariable {v : Variable} (fits : Fits builtins around st s)
    (free : Stack.Free builtins st v.name) :
    ∃ s', Check.declareVariable v s = .ok () s' ∧
      Fits builtins around (Stack.declare (.var (.fresh v.type v.name 0)) st) s' := by
  obtain ⟨allowed, fresh⟩ := fits.free free
  refine ⟨_, rfl, fits.after ((declareVariable_adds allowed fresh rfl).passes fits.wellFormed)
    fits.mild ?_⟩
  have fresh' : s.symbols.lookup (Symbol.var v).name = none := fresh
  show (s.symbols.insert (.var v)).stack = _
  rw [SymbolTable.stack_insert fits.wellFormed fresh' allowed, fits.stack]
  rfl

/-- A variable gets its initial value and is declared. -/
theorem initialise {v : Variable} {e : Expr} (fits : Fits builtins around st s)
    (distinct : builtins.Distinct) (free : Stack.Free builtins st v.name)
    (sane : e.Sane (Stack.bindings st builtins) (.value v.type)) (pos : Pos) :
    ∃ s', (do Check.declareVariable (← Check.initialise v e pos)) s = .ok () s' ∧
      Fits builtins around (Stack.declare (.var (.fresh v.type v.name 0)) st) s' := by
  obtain ⟨v', initialised⟩ := initialise_run pos (fits.sane sane) (fits.builtins ▸ distinct)
  obtain ⟨name, type⟩ := initialise_kept initialised
  rw [bind_ok initialised, ← name, ← type]
  exact fits.declareVariable (name ▸ free)

theorem checkDeclaration {pos namePos : Pos} {type : ValueType} {name : String}
    {init : Option Expr} (fits : Fits builtins around st s) (distinct : builtins.Distinct)
    (free : Stack.Free builtins st name)
    (sane : ∀ e ∈ init, e.Sane (Stack.bindings st builtins) (.value type)) :
    ∃ s', Check.checkDeclaration pos (.value type) namePos name init s = .ok () s' ∧
      Fits builtins around (Stack.declare (.var (.fresh type name 0)) st) s' := by
  unfold Check.checkDeclaration
  dsimp only
  have typed : (Variable.fresh type name namePos.line).type = type := Value.type_initial type
  rw [bind_ok (checkDeclarable_run namePos (fits.free free)), if_pos rfl]
  cases init with
  | none =>
      have declared := fits.declareVariable
        (v := { Variable.fresh type name namePos.line with known := true }) free
      rwa [show Variable.type { Variable.fresh type name namePos.line with known := true } = type
        from typed] at declared
  | some e =>
      have declared := fits.initialise (v := Variable.fresh type name namePos.line) distinct free
        (typed.symm ▸ sane e rfl) namePos
      rwa [typed] at declared

theorem checkInference {namePos : Pos} {type : ValueType} {name : String} {init : Expr}
    (fits : Fits builtins around st s) (distinct : builtins.Distinct)
    (free : Stack.Free builtins st name)
    (sane : init.Sane (Stack.bindings st builtins) (.value type)) :
    ∃ s', Check.checkInference namePos name init s = .ok () s' ∧
      Fits builtins around (Stack.declare (.var (.fresh type name 0)) st) s' := by
  have answers := (fits.sane sane).answers (fits.builtins ▸ distinct)
  unfold Check.checkInference
  rw [bind_ok answers.detect, if_neg (by simp)]
  dsimp only [Ty.value?]
  rw [bind_ok (checkDeclarable_run namePos (fits.free free)), if_pos rfl]
  let v : Variable := { Variable.fresh type name namePos.line with inferred := true }
  have typed : v.type = type := Value.type_initial type
  have declared := fits.initialise (v := v) distinct free (typed.symm ▸ sane) namePos
  rwa [typed] at declared

theorem checkAssignment {pos : Pos} {name : String} {value : Expr} {v : Variable}
    (fits : Fits builtins around st s) (distinct : builtins.Distinct)
    (known : Stack.lookup st name = some (.var v))
    (sane : value.Sane (Stack.bindings st builtins) (.value v.type)) :
    Check.checkAssignment pos name value s = .ok () s := by
  rw [← fits.stack, SymbolTable.lookup_stack] at known
  obtain ⟨symbol, found, plain⟩ := Option.map_eq_some_iff.mp known
  have same : symbol.plain = (Symbol.var v).plain := by
    rw [← plain, Symbol.plain_plain]
  obtain ⟨v', rfl, type⟩ := Symbol.exists_var_of_plain same
  rw [← type] at sane
  -- a built-in function's name would stand for nothing in the table
  have allowed : s.symbols.isBuiltin name = false := by
    by_contra builtin
    have missing := SymbolTable.lookupFrom_of_isBuiltin fits.wellFormed
      (by simpa using builtin) s.symbols.current
    rw [SymbolTable.lookup, missing] at found
    cases found
  unfold Check.checkAssignment
  rw [bind_ok (symbols_run s), if_neg (by simp [allowed]), bind_ok (lookup_run name s), found]
  dsimp only
  have sane := fits.sane sane
  rw [bind_ok (expectType_run pos (sane.answers (fits.builtins ▸ distinct))), if_pos rfl,
    bind_ok (checkConstant_run sane.folds)]
  rfl

/-- Alternatives may be warned of, if they are inside others. -/
theorem checkAlternatives {pos otherwisePos : Pos} {body alternative : Stmt}
    (fits : Fits builtins around st s) (first : body.declaresOrReturns = false)
    (second : alternative.declaresOrReturns = false) :
    ∃ s', Check.checkAlternatives pos body otherwisePos alternative s = .ok () s' ∧
      Fits builtins around st s' := by
  unfold Check.checkAlternatives
  rw [first, second]
  show ∃ s', (get >>= fun r : State =>
    if 0 < r.uncertainDepth then Check.warn pos .nestedAlternatives else pure ()) s = _ ∧ _
  rw [bind_ok (get_run s)]
  split
  · exact fits.warn pos _
  · exact ⟨s, rfl, fits⟩

end Fits

/-! ## Headers of functions -/

/-- A name that is free stays free when another name is declared. -/
theorem Stack.Free.declare {builtins : Registry} {st : Stack} {name : String} {symbol : Symbol}
    (free : Stack.Free builtins st name) (other : symbol.name ≠ name) :
    Stack.Free builtins (Stack.declare symbol st) name := by
  refine ⟨free.reserved, ?_⟩
  have undeclared := free.undeclared
  cases st with
  | nil => simp [Stack.declare, Stack.lookup, other]
  | cons frame frames =>
      rw [Stack.lookup, List.findSome?_eq_none_iff, List.forall_mem_cons] at undeclared
      rw [Stack.declare, Stack.lookup, List.findSome?_eq_none_iff, List.forall_mem_cons]
      refine ⟨?_, undeclared.2⟩
      rw [List.find?_append, undeclared.1]
      simp [other]

namespace Fits

variable {builtins : Registry} {around : Around} {st : Stack} {s : State}

theorem declareParam {p : Param} {q : Parameter} (fits : Fits builtins around st s)
    (type : (p.name, p.type) = (q.name, .value q.type)) (free : Stack.Free builtins st q.name)
    (function : String) :
    ∃ s', Check.declareParam function p s = .ok (some q) s' ∧
      Fits builtins around (Stack.declare q.symbol st) s' := by
  obtain ⟨name, type⟩ := Prod.mk.inj type
  obtain ⟨allowed, fresh⟩ := fits.free free
  let v := Variable.fresh q.type q.name p.namePos.line
  have typed : v.type = q.type := Value.type_initial q.type
  refine ⟨{ s with symbols := s.symbols.insert (.var v) }, ?_, ?_⟩
  · unfold Check.declareParam
    rw [type, name]
    dsimp only
    rw [bind_ok (checkDeclarable_run p.namePos ⟨allowed, fresh⟩), if_pos rfl,
      bind_ok (modifySymbols_run _ s)]
    rfl
  · have passes : Passes s { s with symbols := s.symbols.insert (.var v) } [v.name] [] :=
      ⟨.insert fits.wellFormed fresh allowed, rfl, rfl, rfl⟩
    refine fits.after passes fits.mild ?_
    have fresh' : s.symbols.lookup (Symbol.var v).name = none := fresh
    show (s.symbols.insert (.var v)).stack = _
    rw [SymbolTable.stack_insert fits.wellFormed fresh' allowed, fits.stack]
    show Stack.declare (.var (.fresh v.type v.name 0)) st = _
    rw [typed]
    rfl

/-- Parameters with free names are declared one after the other. -/
theorem declareParams {frame : List Symbol} {ps : List Param} {params : List Parameter}
    (fits : Fits builtins around (frame :: st) s)
    (types : ps.map (fun p => (p.name, p.type)) = params.map (fun q => (q.name, .value q.type)))
    (distinct : (params.map Parameter.name).Nodup)
    (free : ∀ q ∈ params, Stack.Free builtins (frame :: st) q.name) (function : String) :
    ∃ s', Check.declareParams function ps s = .ok (some params) s' ∧
      Fits builtins around ((frame ++ params.map Parameter.symbol) :: st) s' := by
  induction ps generalizing params frame s with
  | nil =>
      obtain rfl : params = [] := List.map_eq_nil_iff.mp types.symm
      rw [List.map_nil, List.append_nil]
      exact ⟨s, rfl, fits⟩
  | cons p ps ih =>
      obtain ⟨q, params, rfl, type, types⟩ := List.map_eq_cons_iff.mp types.symm
      rw [List.map_cons, List.nodup_cons] at distinct
      obtain ⟨s₁, first, fits₁⟩ := fits.declareParam type.symm
        (free q List.mem_cons_self) function
      have free₁ : ∀ r ∈ params, Stack.Free builtins ((frame ++ [q.symbol]) :: st) r.name := by
        intro r member
        have other : q.symbol.name ≠ r.name := fun same =>
          distinct.1 (List.mem_map.mpr ⟨r, member, same.symm⟩)
        exact (free r (List.mem_cons_of_mem q member)).declare other
      obtain ⟨s₂, others, fits₂⟩ := ih fits₁ types.symm distinct.2 free₁
      refine ⟨s₂, ?_, ?_⟩
      · rw [Check.declareParams, bind_ok first, bind_ok others]
        rfl
      · rw [List.append_assoc] at fits₂
        exact fits₂

/-- In a new scope nothing is declared yet. -/
theorem enter (fits : Fits builtins around st s) :
    Fits builtins around ([] :: st) { s with symbols := s.symbols.enter .new } := by
  have opens := SymbolTable.Opens.enter fits.wellFormed
  refine ⟨fits.stop, fits.mild, opens.wellFormed, opens.builtins.trans fits.builtins, ?_,
    fits.function, fits.loops⟩
  show (s.symbols.enter .new).stack = _
  rw [SymbolTable.stack_enter fits.wellFormed, fits.stack]

theorem logged (fits : Fits builtins around st s) (log : Log) :
    Fits builtins around st { s with log } :=
  ⟨fits.stop, fits.mild, fits.wellFormed, fits.builtins, fits.stack, fits.function, fits.loops⟩

/-- A header that is right is declared, and the scope that its body is to resume has the
parameters. -/
theorem beginFunction {h : Header} {params : List Parameter} (fits : Fits builtins around st s)
    (outside : around.returns = none) (free : Stack.Free builtins st h.name)
    (takes : h.Takes builtins st params) (pos : Pos) :
    ∃ f s', Check.beginFunction pos h s = .ok (some f) s' ∧
      (s.symbols.insert (.fn f)).stack = Stack.declare (h.symbol params) st ∧
      s'.engine.Mild ∧
      (s'.symbols.enter .resumeLast).stack =
        params.map Parameter.symbol :: Stack.declare (h.symbol params) st := by
  obtain ⟨allowed, fresh⟩ := fits.free free
  have nowhere : s.currentFunction.isSome = false := by
    rw [fits.function, outside]
    rfl
  -- the parameters are declared in a scope of their own, with the function's name still free
  have entered := fits.enter.logged (s.log.debug s!"Checking function '{h.name}'")
  have unknown : ∀ q ∈ params, Stack.Free builtins ([] :: st) q.name := fun q member =>
    ⟨(takes.free q member).reserved, (takes.free q member).undeclared⟩
  obtain ⟨s₂, declared, fits₂⟩ := entered.declareParams takes.types takes.distinct
    unknown h.name
  obtain ⟨symbols, adds, -, described⟩ := declareParams_adds declared
  let f : Function :=
    { name := h.name, line := h.namePos.line, params, returns := h.result,
      home := s₂.symbols.leave.current }
  have fresh' : s.symbols.lookup (Symbol.fn f).name = .none := fresh
  obtain ⟨named, opens, same⟩ :=
    SymbolTable.Opens.resume fits.wellFormed fresh' allowed
      (adds.table.declares entered.wellFormed) fun c => adds.table.missing entered.wellFormed
  have stack : (s.symbols.insert (.fn f)).stack = Stack.declare (h.symbol params) st := by
    rw [SymbolTable.stack_insert fits.wellFormed fresh' allowed, fits.stack]
    rfl
  refine ⟨f, { s₂ with symbols := s₂.symbols.leave.insert (.fn f) }, ?_, stack, fits₂.mild, ?_⟩
  · unfold Check.beginFunction
    rw [bind_ok (get_run s), if_neg (by simp [nowhere]), bind_ok (symbols_run s),
      if_neg (by simp [allowed]), bind_ok (lookup_run h.name s), fresh]
    dsimp only
    have logged : debug s!"Checking function '{h.name}'" s = .ok () { s with
      log := s.log.debug s!"Checking function '{h.name}'" } := rfl
    rw [bind_ok logged, bind_ok (modifySymbols_run _ _), bind_ok declared,
      bind_ok (modifySymbols_run _ s₂)]
    rfl
  · -- the scope that is resumed is the one of the parameters, under the function's name
    obtain ⟨scope, here⟩ := fits₂.wellFormed.current
    have frame : scope.symbols.map Symbol.plain = params.map Parameter.symbol := by
      have both := fits₂.stack
      rw [SymbolTable.stack, SymbolTable.stackAt_eq fits₂.wellFormed here] at both
      exact (List.cons.inj both).1
    show ((s₂.symbols.leave.insert (.fn f)).enter .resumeLast).stack = _
    rw [opens.stack_eq named.wellFormed (same.trans here), frame, stack]

end Fits

end Samo
