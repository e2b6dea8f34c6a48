import Samo.Proofs.Folding
import Samo.Proofs.Overloads
import Samo.Proofs.Questions
import Samo.Proofs.Scopes

/-!
# The types of expressions

`Expr.HasType` gives the rules by which an expression has a type, once it is settled what its names
stand for (`Bindings`). A check that nothing fatal stops asks only questions whose answer is right
by these rules: what is accepted at a type has it (`Expr.asked_of_accepts`), and a call that gets
through has the type of its function (`Expr.sane_of_resolve`). On the way the arguments of all calls
are folded, so none of them divides by a known zero.
-/

namespace Samo

/-! ## The rules -/

/-- What the names stand for after a move to another scope. -/
theorem SymbolTable.bindings_moved (t : SymbolTable) (c : Coordinates) (resume : List Coordinates) :
    SymbolTable.bindings { t with current := c, resume := resume } = t.bindingsAt c := by
  have same : lookupFrom { t with current := c, resume := resume } = t.lookupFrom :=
    lookupFrom_congr rfl
  rw [bindings, bindingsAt, same]
  rfl

/--
The types of expressions. Arguments go to the parameters of a function of the program as
`Queues.assign` hands them out, and to those of a built-in function by their places.
-/
inductive Expr.HasType (Γ : Bindings) : Expr → TypeName → Prop
  | int {pos spelling value} : HasType Γ (.int pos spelling value) (.value .int)
  | string {pos spelling value} : HasType Γ (.string pos spelling value) (.value .string)
  | boolie {pos value} : HasType Γ (.boolie pos value) (.value .boolie)
  | ident {pos name v} :
      Γ.lookup name = some (.var v) → HasType Γ (.ident pos name) (.value v.type)
  | negate {pos x} : HasType Γ x (.value .int) → HasType Γ (.unary pos .negate x) (.value .int)
  | not {pos x} : HasType Γ x (.value .boolie) → HasType Γ (.unary pos .not x) (.value .boolie)
  | arithmetic {pos op x y} : op.family = .arithmetic → HasType Γ x (.value .int) →
      HasType Γ y (.value .int) → HasType Γ (.binary pos op x y) (.value .int)
  | concat {pos x y} : HasType Γ x (.value .string) → HasType Γ y (.value .string) →
      HasType Γ (.binary pos .add x y) (.value .string)
  | logical {pos op x y} : op.family = .logical → HasType Γ x (.value .boolie) →
      HasType Γ y (.value .boolie) → HasType Γ (.binary pos op x y) (.value .boolie)
  | relational {pos op x y} : op.family = .relational → HasType Γ x (.value .int) →
      HasType Γ y (.value .int) → HasType Γ (.binary pos op x y) (.value .boolie)
  | equality {pos op x y type} : op.family = .equality → HasType Γ x (.value type) →
      HasType Γ y (.value type) → HasType Γ (.binary pos op x y) (.value .boolie)
  | paren {pos x type} : HasType Γ x type → HasType Γ (.paren pos x) type
  | user {pos name args f} : Γ.lookup name = some (.fn f) → args.length = f.params.length →
      (∀ a ∈ (Queues.ofList isBooleanForm args).assign f.paramTypes, HasType Γ a.2 (.value a.1)) →
      HasType Γ (.call pos name args) f.returns
  | builtin {pos name args f} : Γ.lookup name = none → f ∈ Γ.builtins.overloads name →
      args.length = f.params.length →
      (∀ a ∈ f.paramTypes.zip args, HasType Γ a.2 (.value a.1)) →
      HasType Γ (.call pos name args) f.returns

/-- More names stand for something, and no name stands for something else. -/
structure Bindings.Extends (Γ Γ' : Bindings) : Prop where
  found : ∀ name symbol, Γ.lookup name = some symbol → Γ'.lookup name = some symbol
  reserved : ∀ name, Γ.lookup name = none → Γ.builtins.contains name = true →
    Γ'.lookup name = none
  builtins : Γ'.builtins = Γ.builtins

/-- A later table says more than an earlier one. -/
theorem SymbolTable.Grows.bindings {t t' : SymbolTable} (grows : t.Grows t') (wf : t'.WellFormed)
    (c : Coordinates) : (t.bindingsAt c).Extends (t'.bindingsAt c) := by
  refine ⟨grows.found c, fun name _ builtin => ?_, grows.builtins⟩
  have builtin' : t'.isBuiltin name = true := by
    rw [isBuiltin, grows.builtins]
    exact builtin
  exact lookupFrom_of_isBuiltin wf builtin' c

theorem Registry.contains_of_mem_overloads {r : Registry} {name : String} {f : Function}
    (member : f ∈ r.overloads name) : r.contains name = true := by
  unfold overloads at member
  unfold contains
  cases found : r.overloads? name with
  | none =>
      rw [found] at member
      cases member
  | some o => rfl

/-! ## Plain symbols -/

/-- A symbol as far as types go: not where it was declared, and not what is known of its value. -/
def Symbol.plain : Symbol → Symbol
  | .var v => .var (.fresh v.type v.name 0)
  | .fn f => .fn { f with line := 0, home := .global }

namespace Symbol

@[simp] theorem name_plain (s : Symbol) : s.plain.name = s.name := by cases s <;> rfl

@[simp] theorem plain_plain (s : Symbol) : s.plain.plain = s.plain := by
  cases s with
  | var v => simp [plain, Variable.fresh, Variable.type]
  | fn f => rfl

@[simp] theorem plain_settle (c : Coordinates) (s : Symbol) : (s.settle c).plain = s.plain := by
  cases s <;> rfl

/-- A plain variable has the type of the variable. -/
theorem exists_var_of_plain {s : Symbol} {v : Variable} (same : s.plain = (Symbol.var v).plain) :
    ∃ v', s = .var v' ∧ v'.type = v.type := by
  cases s with
  | fn f => cases same
  | var v' =>
      refine ⟨v', rfl, ?_⟩
      have fresh : Variable.fresh v'.type v'.name 0 = .fresh v.type v.name 0 := Symbol.var.inj same
      have types := congrArg Variable.type fresh
      simpa [Variable.fresh, Variable.type] using types

/-- A plain function has the parameters and the result of the function. -/
theorem exists_fn_of_plain {s : Symbol} {f : Function} (same : s.plain = (Symbol.fn f).plain) :
    ∃ f', s = .fn f' ∧ f'.params = f.params ∧ f'.returns = f.returns := by
  cases s with
  | var v => cases same
  | fn f' =>
      have parts : ({ f' with line := 0, home := .global } : Function) =
          { f with line := 0, home := .global } := Symbol.fn.inj same
      refine ⟨f', rfl, ?_, ?_⟩
      · simpa using congrArg Function.params parts
      · simpa using congrArg Function.returns parts

end Symbol

/-- An expression keeps its type if its names stand for the same as far as types go. -/
theorem Expr.HasType.transfer {Γ Γ' : Bindings}
    (same : ∀ name symbol, Γ.lookup name = some symbol →
      ∃ symbol', Γ'.lookup name = some symbol' ∧ symbol'.plain = symbol.plain)
    (reserved : ∀ name, Γ.lookup name = none → Γ.builtins.contains name = true →
      Γ'.lookup name = none)
    (builtins : Γ'.builtins = Γ.builtins) {e : Expr} {type : TypeName}
    (typed : e.HasType Γ type) : e.HasType Γ' type := by
  induction typed with
  | int => exact .int
  | string => exact .string
  | boolie => exact .boolie
  | ident found =>
      obtain ⟨symbol, found', plain⟩ := same _ _ found
      obtain ⟨v', rfl, types⟩ := Symbol.exists_var_of_plain plain
      rw [← types]
      exact .ident found'
  | negate _ ih => exact .negate ih
  | not _ ih => exact .not ih
  | arithmetic family _ _ left right => exact .arithmetic family left right
  | concat _ _ left right => exact .concat left right
  | logical family _ _ left right => exact .logical family left right
  | relational family _ _ left right => exact .relational family left right
  | equality family _ _ left right => exact .equality family left right
  | paren _ ih => exact .paren ih
  | user found size _ ih =>
      obtain ⟨symbol, found', plain⟩ := same _ _ found
      obtain ⟨f', rfl, params, returns⟩ := Symbol.exists_fn_of_plain plain
      rw [← returns]
      refine .user found' (by rw [size, params]) fun a handed => ih a ?_
      rw [Function.paramTypes, params] at handed
      exact handed
  | builtin missing member size _ ih =>
      have contained := Registry.contains_of_mem_overloads member
      exact .builtin (reserved _ missing contained) (builtins ▸ member) size ih

/-- An expression keeps its type when more is declared. -/
theorem Expr.HasType.mono {Γ Γ' : Bindings} (more : Γ.Extends Γ') {e : Expr} {type : TypeName}
    (typed : e.HasType Γ type) : e.HasType Γ' type :=
  typed.transfer (fun _ symbol found => ⟨symbol, more.found _ _ found, rfl⟩) more.reserved
    more.builtins

/-- An expression that shows by its form that it is a truth value has no other type. -/
theorem Expr.HasType.eq_boolie {Γ : Bindings} {e : Expr} {type : TypeName}
    (typed : e.HasType Γ type) (form : e.isBooleanForm = true) : type = .value .boolie := by
  induction typed with
  | boolie | not | logical | relational | equality => rfl
  | int | string | ident | negate | user | builtin => cases form
  | arithmetic family _ _ _ _ =>
      simp [isBooleanForm, BinaryOp.isArithmetic, family] at form
  | concat _ _ _ _ => cases form
  | paren _ ih => exact ih form

theorem Expr.HasType.isBooleanForm_eq_false {Γ : Bindings} {e : Expr} {type : TypeName}
    (typed : e.HasType Γ type) (other : type ≠ .value .boolie) : e.isBooleanForm = false := by
  by_contra form
  exact other (typed.eq_boolie (by simpa using form))

/-! ## What is found out about an expression -/

/-- What is known of an expression that is accepted at a type. -/
structure Expr.Asked (Γ : Bindings) (e : Expr) (type : TypeName) : Prop where
  typed : e.HasType Γ type
  arguments : e.ArgumentsFree

/-- An expression of a type in which no known integer is divided by a known zero. -/
structure Expr.Sane (Γ : Bindings) (e : Expr) (type : TypeName) : Prop where
  typed : e.HasType Γ type
  zeroFree : e.ZeroFree

/-- What is accepted at a type and folded is sane. -/
theorem Expr.Asked.sane {Γ : Bindings} {e : Expr} {type : TypeName} (asked : e.Asked Γ type)
    (folds : e.foldError? = none) : e.Sane Γ type :=
  ⟨asked.typed, e.zeroFree_iff.mpr ⟨folds, asked.arguments⟩⟩

/-! ## Questions that get to their end -/

namespace Check

variable {s s' : State}

theorem identifier_ok {pos : Pos} {name : String} {found : Option Symbol}
    (stop : s.engine.policy = .stop) (run : identifier pos name s = .ok found s') :
    ∃ symbol, found = some symbol ∧ s.symbols.lookup name = some symbol := by
  unfold identifier at run
  rw [bind_ok (lookup_run name s)] at run
  cases known : s.symbols.lookup name with
  | some symbol =>
      rw [known] at run
      cases run
      exact ⟨symbol, rfl, rfl⟩
  | none =>
      rw [known] at run
      exact absurd run (fatal_bind_ne_ok stop)

/-- Nothing fatal is reported only if folding goes well. -/
theorem checkConstant_ok {e : Expr} {folds : Bool} (stop : s.engine.policy = .stop)
    (run : checkConstant e s = .ok folds s') : e.foldError? = none := by
  unfold checkConstant at run
  cases folds : e.foldError? with
  | none => rfl
  | some err =>
      rw [folds] at run
      exact absurd run (fatal_bind_ne_ok stop)

/-- The operand was asked and is one of the type, and folding it goes well. -/
structure Accepted (s : State) (type : ValueType) (o : Operand) : Prop where
  asked : ∃ s₁ s₂, s.Alike s₁ ∧ o.accepts type s₁ = .ok true s₂
  folds : o.expr.foldError? = none

theorem Accepted.of_alike {s r : State} {type : ValueType} {o : Operand} (alike : s.Alike r)
    (accepted : Accepted r type o) : Accepted s type o := by
  obtain ⟨⟨s₁, s₂, alike', run⟩, folds⟩ := accepted
  exact ⟨⟨s₁, s₂, alike.trans alike', run⟩, folds⟩

theorem checkArguments_ok {callee : String} {index : Nat} {args : List (ValueType × Operand)}
    (stop : s.engine.policy = .stop) (reads : ∀ a ∈ args, a.2.ReadsTable)
    (run : checkArguments callee index args s = .ok () s') :
    ∀ a ∈ args, Accepted s a.1 a.2 := by
  induction args generalizing index s with
  | nil =>
      intro a member
      cases member
  | cons x rest ih =>
      obtain ⟨type, o⟩ := x
      have first : o.ReadsTable := reads (type, o) List.mem_cons_self
      have others : ∀ a ∈ rest, a.2.ReadsTable := fun a member =>
        reads a (List.mem_cons_of_mem _ member)
      unfold checkArguments at run
      obtain ⟨accepted, s₁, asked, run⟩ := bind_eq_ok_iff.mp run
      have alike₁ := (first.accepts type).alike asked
      have stop₁ : s₁.engine.policy = .stop := alike₁.policy.symm.trans stop
      cases accepted with
      | false =>
          exact absurd run (fatal_bind_ne_ok stop₁)
      | true =>
          obtain ⟨u, s₂, folded, run⟩ := bind_eq_ok_iff.mp run
          have alike₂ := alike₁.trans ((ReadsTable.checkConstant o.expr).alike folded)
          intro a member
          rcases List.mem_cons.mp member with rfl | member
          · exact ⟨⟨s, s₁, ⟨rfl, rfl⟩, asked⟩, checkConstant_ok stop₁ folded⟩
          · exact (ih (alike₂.policy.symm.trans stop) others run a member).of_alike alike₂

theorem argumentTypes_ok {callee : String} {index : Nat} {args : List Operand}
    {found : Option (List ValueType)} (stop : s.engine.policy = .stop)
    (reads : ∀ a ∈ args, a.ReadsTable) (run : argumentTypes callee index args s = .ok found s') :
    ∃ types, found = some types ∧ types.length = args.length := by
  induction args generalizing index s s' found with
  | nil =>
      cases run
      exact ⟨[], rfl, rfl⟩
  | cons o rest ih =>
      have first : o.ReadsTable := reads o List.mem_cons_self
      have others : ∀ a ∈ rest, a.ReadsTable := fun a member =>
        reads a (List.mem_cons_of_mem _ member)
      unfold argumentTypes at run
      obtain ⟨d, s₁, asked, run⟩ := bind_eq_ok_iff.mp run
      have stop₁ : s₁.engine.policy = .stop := (first.detect.alike asked).policy.symm.trans stop
      split at run
      · exact absurd run (fatal_bind_ne_ok stop₁)
      cases valued : d.type.value? with
      | none =>
          rw [valued] at run
          exact absurd run (fatal_bind_ne_ok stop₁)
      | some type =>
          rw [valued] at run
          obtain ⟨more, s₂, run, given⟩ := bind_eq_ok_iff.mp run
          obtain ⟨types, rfl, size⟩ := ih stop₁ others run
          cases given
          exact ⟨_, rfl, by rw [List.length_cons, List.length_cons, size]⟩

/-- What a call that gets to its end has found out: every argument is of its parameter's type. -/
theorem resolve_ok {pos : Pos} {callee : String} {args : List Operand} {type : Ty}
    (stop : s.engine.policy = .stop) (reads : ∀ a ∈ args, a.ReadsTable)
    (run : resolve pos callee args s = .ok type s') :
    (∃ f, s.symbols.lookup callee = some (.fn f) ∧ type = f.returns.ty ∧
        args.length = f.params.length ∧
        ∀ a ∈ (Queues.ofList (·.expr.isBooleanForm) args).assign f.paramTypes,
          Accepted s a.1 a.2) ∨
      (s.symbols.lookup callee = none ∧ ∃ f ∈ s.symbols.builtins.overloads callee,
        type = f.returns.ty ∧ args.length = f.params.length ∧
        ∀ a ∈ f.paramTypes.zip args, Accepted s a.1 a.2) := by
  unfold resolve at run
  rw [bind_ok (lookup_run callee s)] at run
  cases known : s.symbols.lookup callee with
  | some symbol =>
      rw [known] at run
      cases symbol with
      | var v =>
          exact absurd run (fatal_bind_ne_ok stop)
      | fn f =>
          refine .inl ⟨f, rfl, ?_⟩
          simp only [resolveUser] at run
          split at run
          · exact absurd run (fatal_bind_ne_ok stop)
          · next size =>
            obtain ⟨u, s₁, checked, given⟩ := bind_eq_ok_iff.mp run
            cases given
            refine ⟨rfl, not_not.mp size, checkArguments_ok stop (fun a member => ?_) checked⟩
            exact reads a.2 (Queues.mem_of_mem_assign member)
  | none =>
      rw [known] at run
      refine .inr ⟨rfl, ?_⟩
      dsimp only at run
      rw [bind_ok (symbols_run s)] at run
      cases listed : s.symbols.builtins.overloads? callee with
      | none =>
          rw [listed] at run
          exact absurd run (fatal_bind_ne_ok stop)
      | some o =>
          rw [listed] at run
          simp only [resolveBuiltin] at run
          obtain ⟨found, s₁, asked, run⟩ := bind_eq_ok_iff.mp run
          have alike := (ReadsTable.argumentTypes callee 1 reads).alike asked
          have stop₁ : s₁.engine.policy = .stop := alike.policy.symm.trans stop
          obtain ⟨types, rfl, size⟩ := argumentTypes_ok stop reads asked
          dsimp only at run
          rw [bind_ok (symbols_run s₁), ← alike.table] at run
          match matched :
            s.symbols.builtins.matching? callee (paramDescriptor (types.map .value)) with
          | .error ambiguous =>
              rw [matched] at run
              exact absurd run (fatal_bind_ne_ok stop₁)
          | .ok none =>
              rw [matched] at run
              exact absurd run (fatal_bind_ne_ok stop₁)
          | .ok (some f) =>
              rw [matched] at run
              -- the types found choose the overload, and its parameters ask for them once more
              obtain ⟨member, rfl⟩ := Registry.matching?_eq_some matched
              obtain ⟨u, s₂, checked, given⟩ := bind_eq_ok_iff.mp run
              cases given
              refine ⟨f, member, rfl, ?_, fun a given => ?_⟩
              · rw [← size, f.length_paramTypes]
              · refine (checkArguments_ok stop₁ (fun a member => ?_) checked a given).of_alike alike
                exact reads a.2 (List.of_mem_zip member).2

end Check

/-! ## Answers are right -/

open Check

/-- Whatever type an expression is accepted at, it has. -/
def Expr.Sound (e : Expr) : Prop :=
  ∀ type (s s' : State), s.engine.policy = .stop → e.accepts type s = .ok true s' →
    e.Asked s.symbols.bindings (.value type)

namespace Expr

theorem Sound.of_accepted {e : Expr} (sound : e.Sound) {s : State} {type : ValueType}
    (stop : s.engine.policy = .stop) (accepted : Accepted s type e.operand) :
    e.Sane s.symbols.bindings (.value type) := by
  obtain ⟨⟨s₁, s₂, alike, run⟩, folds⟩ := accepted
  rw [alike.table]
  exact (sound type s₁ s₂ (alike.policy.symm.trans stop) run).sane folds

/-- Arguments that are handed out as operands are handed out as expressions. -/
theorem assign_operands (types : List ValueType) (args : List Expr) :
    (Queues.ofList (·.expr.isBooleanForm) (operands args)).assign types =
      ((Queues.ofList isBooleanForm args).assign types).map fun a => (a.1, a.2.operand) := by
  rw [operands_eq_map, Queues.ofList_map, Queues.assign_map]
  rfl

/-- Every argument of a call goes to a parameter of a built-in function by its place. -/
theorem exists_mem_zip {types : List ValueType} {args : List Expr}
    (size : types.length = args.length) {a : Expr} (member : a ∈ args) :
    ∃ type, (type, a) ∈ types.zip args := by
  rw [← List.map_snd_zip size.ge] at member
  obtain ⟨⟨type, a⟩, handed, rfl⟩ := List.mem_map.mp member
  exact ⟨type, handed⟩

theorem sane_call_of_sound {args : List Expr} (sound : ∀ a ∈ args, a.Sound) {s s' : State}
    {pos : Pos} {name : String} {type : Ty} (stop : s.engine.policy = .stop)
    (run : resolve pos name (operands args) s = .ok type s') :
    ∃ result : TypeName, type = result.ty ∧
      (call pos name args).Sane s.symbols.bindings result := by
  have reads := operands_readsTable args
  have count : (operands args).length = args.length := by rw [operands_eq_map, List.length_map]
  rcases resolve_ok stop reads run with ⟨f, found, result, size, accepted⟩ |
    ⟨missing, f, member, result, size, accepted⟩
  · rw [count] at size
    have right : ∀ a ∈ (Queues.ofList isBooleanForm args).assign f.paramTypes,
        a.2.Sane s.symbols.bindings (.value a.1) := by
      intro a handed
      refine (sound a.2 (Queues.mem_of_mem_assign handed)).of_accepted stop ?_
      refine accepted (a.1, a.2.operand) ?_
      rw [assign_operands]
      exact List.mem_map_of_mem handed
    refine ⟨f.returns, result, .user found size fun a handed => (right a handed).typed, ?_⟩
    refine zeroFree_call.mpr fun a given => ?_
    obtain ⟨type, handed⟩ := Queues.exists_mem_assign (f.length_paramTypes.trans size.symm) given
    exact (right (type, a) handed).zeroFree
  · rw [count] at size
    have right : ∀ a ∈ f.paramTypes.zip args, a.2.Sane s.symbols.bindings (.value a.1) := by
      intro a handed
      refine (sound a.2 (List.of_mem_zip handed).2).of_accepted stop ?_
      refine accepted (a.1, a.2.operand) ?_
      rw [operands_eq_map, List.zip_map_right]
      exact List.mem_map_of_mem handed
    refine ⟨f.returns, result, .builtin missing member size fun a handed => (right a handed).typed,
      ?_⟩
    refine zeroFree_call.mpr fun a given => ?_
    obtain ⟨type, handed⟩ := exists_mem_zip (f.length_paramTypes.trans size.symm) given
    exact (right (type, a) handed).zeroFree

theorem asked_of_bothAccept {x y : Expr} (left : x.Sound) (right : y.Sound) {s s' : State}
    {type : ValueType} (stop : s.engine.policy = .stop)
    (run : x.operand.bothAccept y.operand type s = .ok true s') :
    x.Asked s.symbols.bindings (.value type) ∧ y.Asked s.symbols.bindings (.value type) := by
  unfold Operand.bothAccept at run
  obtain ⟨first, s₁, asked, run⟩ := bind_eq_ok_iff.mp run
  obtain ⟨second, s₂, asked', given⟩ := bind_eq_ok_iff.mp run
  obtain ⟨both, -⟩ := pure_eq_ok_iff.mp given
  obtain ⟨rfl, rfl⟩ := Bool.and_eq_true_iff.mp both
  have alike := (x.accepts_readsTable type).alike asked
  refine ⟨left type s s₁ stop asked, ?_⟩
  rw [alike.table]
  exact right type s₁ s₂ (alike.policy.symm.trans stop) asked'

/-- Two expressions that can be compared have one type, which the operator takes. -/
theorem asked_of_checkComparison {x y : Expr} (left : x.Sound) (right : y.Sound) {s s' : State}
    {pos : Pos} {op : BinaryOp} (stop : s.engine.policy = .stop)
    (run : checkComparison pos op x.operand y.operand s = .ok true s') :
    ∃ type, (op.family = .relational → type = .int) ∧
      x.Asked s.symbols.bindings (.value type) ∧
      y.Asked s.symbols.bindings (.value type) := by
  unfold checkComparison at run
  obtain ⟨d, s₁, asked, run⟩ := bind_eq_ok_iff.mp run
  have alike₁ := x.detect_readsTable.alike asked
  split at run
  · obtain ⟨u, s₂, -, given⟩ := bind_eq_ok_iff.mp run
    cases given
  obtain ⟨d', s₂, asked', run⟩ := bind_eq_ok_iff.mp run
  have alike₂ := alike₁.trans (y.detect_readsTable.alike asked')
  split at run
  · obtain ⟨u, s₃, -, given⟩ := bind_eq_ok_iff.mp run
    cases given
  split at run
  · obtain ⟨u, s₃, -, given⟩ := bind_eq_ok_iff.mp run
    cases given
  by_cases taken :
    (if op.family = .relational then d.type.isOrdered else d.type.isComparable) = true
  · rw [if_neg (by simpa using taken)] at run
    cases valued : d.type.value? with
    | none =>
        rw [valued] at run
        cases run
    | some type =>
        rw [valued] at run
        obtain ⟨first, second⟩ := asked_of_bothAccept left right
          (alike₂.policy.symm.trans stop) run
        rw [alike₂.table]
        refine ⟨type, fun relational => ?_, first, second⟩
        rw [if_pos relational, Ty.value?_eq_some_iff.mp valued] at taken
        cases type with
        | int => rfl
        | string => cases taken
        | boolie => cases taken
  · rw [if_pos (by simpa using taken)] at run
    obtain ⟨u, s₃, -, given⟩ := bind_eq_ok_iff.mp run
    cases given

theorem Sound.binary {p : Pos} {op : BinaryOp} {x y : Expr} (left : x.Sound) (right : y.Sound) :
    (binary p op x y).Sound := by
  intro type s s' stop run
  rw [accepts_binary] at run
  cases family : op.family with
  | arithmetic =>
      cases type with
      | int =>
          rw [family] at run
          obtain ⟨first, second⟩ := asked_of_bothAccept left right stop run
          exact ⟨.arithmetic family first.typed second.typed, first.arguments, second.arguments⟩
      | string =>
          rw [family] at run
          -- of the arithmetic operators only `+` joins texts
          dsimp only at run
          split at run
          · next same =>
            subst same
            obtain ⟨first, second⟩ := asked_of_bothAccept left right stop run
            exact ⟨.concat first.typed second.typed, first.arguments, second.arguments⟩
          · cases run
      | boolie =>
          rw [family] at run
          cases run
  | logical =>
      cases type with
      | boolie =>
          rw [family] at run
          obtain ⟨first, second⟩ := asked_of_bothAccept left right stop run
          exact ⟨.logical family first.typed second.typed, first.arguments, second.arguments⟩
      | int | string =>
          rw [family] at run
          cases run
  | relational =>
      cases type with
      | boolie =>
          rw [family] at run
          obtain ⟨type, ordered, first, second⟩ :=
            asked_of_checkComparison left right stop run
          -- only numbers are ordered
          obtain rfl := ordered family
          exact ⟨.relational family first.typed second.typed, first.arguments, second.arguments⟩
      | int | string =>
          rw [family] at run
          cases run
  | equality =>
      cases type with
      | boolie =>
          rw [family] at run
          obtain ⟨type, -, first, second⟩ := asked_of_checkComparison left right stop run
          exact ⟨.equality family first.typed second.typed, first.arguments, second.arguments⟩
      | int | string =>
          rw [family] at run
          cases run

/-- Every expression has the types it is accepted at. -/
theorem sound (e : Expr) : e.Sound := by
  induction e using Expr.induction with
  | int p spelling n =>
      intro type s s' _ run
      rw [accepts, pure_eq_ok_iff] at run
      obtain rfl : type = .int := by simpa using run.1
      exact ⟨.int, trivial⟩
  | string p spelling v =>
      intro type s s' _ run
      rw [accepts, pure_eq_ok_iff] at run
      obtain rfl : type = .string := by simpa using run.1
      exact ⟨.string, trivial⟩
  | boolie p b =>
      intro type s s' _ run
      rw [accepts, pure_eq_ok_iff] at run
      obtain rfl : type = .boolie := by simpa using run.1
      exact ⟨.boolie, trivial⟩
  | ident p x =>
      intro type s s' stop run
      rw [accepts] at run
      obtain ⟨found, s₁, asked, given⟩ := bind_eq_ok_iff.mp run
      obtain ⟨symbol, rfl, known⟩ := identifier_ok stop asked
      have typed : symbol.type = .value type := by simpa using (pure_eq_ok_iff.mp given).1
      cases symbol with
      -- a function has no value type
      | fn f => cases typed
      | var v =>
          cases typed
          exact ⟨.ident known, trivial⟩
  | unary p op x ih =>
      intro type s s' stop run
      cases op with
      | negate =>
          rw [accepts] at run
          split at run
          · next same =>
            subst same
            have inner := ih .int s s' stop run
            exact ⟨.negate inner.typed, inner.arguments⟩
          · cases run
      | not =>
          rw [accepts] at run
          split at run
          · next same =>
            subst same
            have inner := ih .boolie s s' stop run
            exact ⟨.not inner.typed, inner.arguments⟩
          · cases run
  | binary p op x y left right => exact left.binary right
  | paren p x ih =>
      intro type s s' stop run
      rw [accepts] at run
      have inner := ih type s s' stop run
      exact ⟨.paren inner.typed, inner.arguments⟩
  | call p f args ih =>
      intro type s s' stop run
      rw [accepts] at run
      obtain ⟨found, s₁, asked, given⟩ := bind_eq_ok_iff.mp run
      obtain ⟨result, rfl, sane⟩ := sane_call_of_sound ih stop asked
      have same : result.ty = .value type := by simpa using (pure_eq_ok_iff.mp given).1
      cases result with
      | void => cases same
      | value type' =>
          cases same
          exact ⟨sane.typed, zeroFree_call.mp sane.zeroFree⟩

/-- What is accepted at a type has it. -/
theorem asked_of_accepts {e : Expr} {type : ValueType} {s s' : State}
    (stop : s.engine.policy = .stop) (run : e.accepts type s = .ok true s') :
    e.Asked s.symbols.bindings (.value type) := e.sound type s s' stop run

/-- A call that gets to its end has its function's type. -/
theorem sane_of_resolve {args : List Expr} {s s' : State} {pos : Pos} {name : String} {type : Ty}
    (stop : s.engine.policy = .stop) (run : resolve pos name (operands args) s = .ok type s') :
    ∃ result : TypeName, type = result.ty ∧
      (call pos name args).Sane s.symbols.bindings result :=
  sane_call_of_sound (fun a _ => a.sound) stop run

end Expr

end Samo
