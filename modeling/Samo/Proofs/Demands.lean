import Samo.Proofs.Acceptance

/-!
# What statements demand of their expressions

`Stmt.Demands` says which type each expression of a statement is to have and what the names it
declares stand for. An accepted statement other than a return meets its demands where it is checked
(`Stmt.check_demands`); those of a return are met only when its function ends.
-/

namespace Samo

open Check

/-- The conditions of the arms after the first one. -/
def Branches.conditions : Branches → List Expr
  | .done | .otherwise .. => []
  | .elseIf _ cond _ rest => cond :: rest.conditions

/-- The expressions that stand in a statement itself, not in a statement inside of it. -/
def Stmt.expressions : Stmt → List Expr
  | .declare _ _ _ _ init => init.toList
  | .infer _ _ _ init => [init]
  | .assign _ _ value => [value]
  | .call pos name args => [.call pos name args]
  | .branch _ cond _ rest => cond :: rest.conditions
  | .loop _ cond _ => [cond]
  | .returnWith _ value => value.toList
  | .maybe _ probability _ | .maybeOtherwise _ probability .. => [probability]
  | .block _ | .define .. | .breakOut _ | .continueOn _ | .needs .. | .bad .. => []

/--
What a statement at a place demands, where `lookup` gives what its names stand for and `typed` the
types of its expressions. A declared variable has the type that is written or that its initial value
has, an assigned value the variable's, and a returned value the function's.
-/
def Stmt.Demands (lookup : String → Option Symbol) (typed : Expr → TypeName → Prop) (p : Place) :
    Stmt → Prop
  | .declare _ type _ name init =>
    (∃ v, type = .value v.type ∧ lookup name = some (.var v)) ∧ ∀ e ∈ init, typed e type
  | .infer _ _ name init => ∃ v, lookup name = some (.var v) ∧ typed init (.value v.type)
  | .assign _ name value => ∃ v, lookup name = some (.var v) ∧ typed value (.value v.type)
  | .call pos name args => ∃ type, typed (.call pos name args) type
  | .define _ header _ => ∃ f, lookup header.name = some (.fn f) ∧ header.Describes f
  | .branch _ cond _ rest => ∀ e ∈ cond :: rest.conditions, typed e (.value .boolie)
  | .loop _ cond _ => typed cond (.value .boolie)
  | .returnWith _ value =>
    ∃ h, p.function = some h ∧ (value = none ↔ h.result = .void) ∧ ∀ e ∈ value, typed e h.result
  | .maybe _ probability _ | .maybeOtherwise _ probability .. => typed probability (.value .int)
  | .bad .. => False
  | .block _ | .breakOut _ | .continueOn _ | .needs .. => True

namespace Stmt

variable {lookup lookup' : String → Option Symbol} {typed typed' : Expr → TypeName → Prop}
  {p : Place} {stmt : Stmt}

/-- Demands that are met stay so when more is known. -/
theorem Demands.mono (found : ∀ name symbol, lookup name = some symbol → lookup' name = some symbol)
    (types : ∀ e type, typed e type → typed' e type) (demands : stmt.Demands lookup typed p) :
    stmt.Demands lookup' typed' p := by
  cases stmt with
  | declare pos type namePos name init =>
      obtain ⟨⟨v, same, known⟩, right⟩ := demands
      exact ⟨⟨v, same, found _ _ known⟩, fun e member => types _ _ (right e member)⟩
  | infer pos namePos name init =>
      obtain ⟨v, known, right⟩ := demands
      exact ⟨v, found _ _ known, types _ _ right⟩
  | assign pos name value =>
      obtain ⟨v, known, right⟩ := demands
      exact ⟨v, found _ _ known, types _ _ right⟩
  | call pos name args =>
      obtain ⟨type, right⟩ := demands
      exact ⟨type, types _ _ right⟩
  | define pos header body =>
      obtain ⟨f, known, describes⟩ := demands
      exact ⟨f, found _ _ known, describes⟩
  | branch pos cond body rest => exact fun e member => types _ _ (demands e member)
  | loop pos cond body => exact types _ _ demands
  | returnWith pos value =>
      obtain ⟨h, inside, void, right⟩ := demands
      exact ⟨h, inside, void, fun e member => types _ _ (right e member)⟩
  | maybe pos probability body => exact types _ _ demands
  | maybeOtherwise pos probability body otherwisePos alternative => exact types _ _ demands
  | bad | block | breakOut | continueOn | needs => exact demands

/-- Every expression of a statement whose demands are met has a type. -/
theorem Demands.exists_type (demands : stmt.Demands lookup typed p) :
    ∀ e ∈ stmt.expressions, ∃ type, typed e type := by
  intro e member
  cases stmt with
  | declare pos type namePos name init =>
      exact ⟨type, demands.2 e (Option.mem_toList.mp member)⟩
  | infer pos namePos name init =>
      obtain ⟨v, -, right⟩ := demands
      rw [List.mem_singleton.mp member]
      exact ⟨_, right⟩
  | assign pos name value =>
      obtain ⟨v, -, right⟩ := demands
      rw [List.mem_singleton.mp member]
      exact ⟨_, right⟩
  | call pos name args =>
      rw [List.mem_singleton.mp member]
      exact demands
  | branch pos cond body rest => exact ⟨_, demands e member⟩
  | returnWith pos value =>
      obtain ⟨h, -, -, right⟩ := demands
      exact ⟨_, right e (Option.mem_toList.mp member)⟩
  | loop | maybe | maybeOtherwise =>
      rw [List.mem_singleton.mp member]
      exact ⟨_, demands⟩
  | block | define | breakOut | continueOn | needs | bad => cases member

end Stmt

/-! ## Where the types are found -/

/-- An expression is sane at a type in a state that fits a place, in the current scope of `s'` and
not later than `s'`. -/
def TypedAt (p : Place) (s' : State) (e : Expr) (type : TypeName) : Prop :=
  ∃ s, Standing p s ∧ s.symbols.current = s'.symbols.current ∧ s.symbols.Grows s'.symbols ∧
    e.Sane s.symbols.bindings type

namespace TypedAt

variable {p : Place} {s s' : State} {e : Expr} {type : TypeName}

theorem of_passes {names : List String} {starts : List Pos} (standing : Standing p s)
    (passes : Passes s s' names starts) (sane : e.Sane s.symbols.bindings type) :
    TypedAt p s' e type :=
  ⟨s, standing, passes.table.current.symm, passes.table.grows, sane⟩

/-- The type is the same in every later table. -/
theorem hasType {t : SymbolTable} (typed : TypedAt p s' e type) (grows : s'.symbols.Grows t)
    (wf : t.WellFormed) : e.HasType (t.bindingsAt s'.symbols.current) type := by
  obtain ⟨s, -, current, earlier, sane⟩ := typed
  rw [← current]
  exact sane.typed.mono ((earlier.trans grows).bindings wf s.symbols.current)

theorem zeroFree (typed : TypedAt p s' e type) : e.ZeroFree := by
  obtain ⟨s, -, -, -, sane⟩ := typed
  exact sane.zeroFree

end TypedAt

theorem Branches.check_conditions {p : Place} {s s' : State} (rest : Branches)
    (standing : Standing p s) (run : rest.check s = .ok () s') :
    ∀ e ∈ rest.conditions, TypedAt p s' e (.value .boolie) := by
  have passes := rest.check_passes standing.stop standing.wellFormed run
  intro e member
  match rest with
  | .done | .otherwise .. => cases member
  | .elseIf pos cond body rest =>
      rw [Branches.check] at run
      obtain ⟨s₁, s₂, arm⟩ := standing.arm run
      rcases List.mem_cons.mp member with rfl | member
      · exact .of_passes standing passes (checkCondition_ok standing.stop arm.condition)
      -- the arms before have declared nothing that is visible here
      · exact rest.check_conditions arm.standing₂ arm.arms e member

/-- An accepted statement that is no return has the types that it demands. -/
theorem Stmt.check_demands {p : Place} {s s' : State} (stmt : Stmt) (standing : Standing p s)
    (run : stmt.check s = .ok () s') (other : ∀ pos value, stmt ≠ .returnWith pos value) :
    stmt.Demands s'.symbols.lookup (TypedAt p s') p := by
  have passes := stmt.check_passes standing.stop standing.wellFormed run
  -- what is visible when the statement starts is still visible at its end
  have here : ∀ e type, e.Sane s.symbols.bindings type → TypedAt p s' e type := fun _ _ =>
    .of_passes standing passes
  cases stmt with
  | declare pos type namePos name init =>
      rw [Stmt.check] at run
      obtain ⟨-, v, rfl, known, sane⟩ := checkDeclaration_ok standing.stop standing.wellFormed run
      exact ⟨⟨v, rfl, known⟩, fun e member => here e _ (sane e member)⟩
  | infer pos namePos name init =>
      rw [Stmt.check] at run
      obtain ⟨-, v, known, sane⟩ := checkInference_ok standing.stop standing.wellFormed run
      exact ⟨v, known, here _ _ sane⟩
  | assign pos name value =>
      rw [Stmt.check] at run
      obtain ⟨v, known, sane⟩ := checkAssignment_ok standing.stop run
      exact ⟨v, passes.table.lookup_eq known, here _ _ sane⟩
  | call pos name args =>
      rw [Stmt.check] at run
      obtain ⟨type, s₁, resolved, -⟩ := bind_eq_ok_iff.mp run
      obtain ⟨result, -, sane⟩ := Expr.sane_of_resolve standing.stop resolved
      exact ⟨result, here _ _ sane⟩
  | define pos header body =>
      obtain ⟨f, s₁, s₂, whole⟩ := Stmt.define_ok standing.stop standing.wellFormed run
      obtain ⟨f', known, describes⟩ := whole.found
      refine ⟨f', ?_, describes⟩
      -- the check of the returns leaves the table as the body left it
      rw [whole.returns.2.1]
      exact whole.closes.declares.lookup_eq known
  | branch pos cond body rest =>
      rw [Stmt.check] at run
      obtain ⟨s₁, s₂, arm⟩ := standing.arm run
      intro e member
      rcases List.mem_cons.mp member with rfl | member
      · exact here _ _ (checkCondition_ok standing.stop arm.condition)
      · exact rest.check_conditions arm.standing₂ arm.arms e member
  | loop pos cond body =>
      rw [Stmt.check] at run
      obtain ⟨u, s₁, condition, -⟩ := bind_eq_ok_iff.mp run
      exact here _ _ (checkCondition_ok standing.stop condition)
  | maybe pos probability body =>
      rw [Stmt.check] at run
      obtain ⟨u, s₁, chance, -⟩ := bind_eq_ok_iff.mp run
      exact here _ _ (checkProbability_ok standing.stop chance)
  | maybeOtherwise pos probability body otherwisePos alternative =>
      rw [Stmt.check] at run
      obtain ⟨u, s₁, chance, -⟩ := bind_eq_ok_iff.mp run
      exact here _ _ (checkProbability_ok standing.stop chance)
  | returnWith pos value => exact absurd rfl (other pos value)
  | bad pos fault =>
      rw [Stmt.check] at run
      exact absurd run (fatal_ne_ok standing.stop)
  | block | breakOut | continueOn | needs => exact trivial

end Samo
